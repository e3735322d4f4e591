import YominsAgent.Logs.Ship
import YominsAgent.Transport.Flush

/- The loop of `deliver` (`ship.go`) over the posts of one batch, with what `Poster.Post`
   (`post.go`) makes of each answer.

   A batch is given up when `Post` returns a `RefusedError`, which is documented as a 4xx other than
   401, 403 and 429. `Post` returns it for every status that none of its other cases takes, also for
   those below 200 and for the 3xx that the client does not follow. `deliver_settles_iff` says that
   these are the only answers on which the loop leaves the rule of the event transport (`doPost`),
   and `deliver_run` that the shipper takes exactly these turns.

   Correspondence (Go ↔ Lean):
     `Poster.Post`        ↔ `Turn.result`, with `Transport.post`
     the loop of `deliver` ↔ `deliver`, one `Turn` a round
     `s.sleep(ctx, wait)` ↔ `Turn.slept` -/
namespace YominsAgent.Logs
open Go Lib Transport List

/-- One round of the loop: the session and the clock at the post, what the attempt
comes back with, and whether the time to wait ends before the context does. -/
structure Turn where
  session : Session
  now : Int
  attempt : Attempt
  slept : Bool

/-- `Poster.Post`. -/
def Turn.result (t : Turn) : PostResult :=
  if t.session.paused t.now then .paused else (post t.session t.now t.attempt).2

/-- The server's answer to the batch, when it was posted and there is one. -/
def Turn.answer (t : Turn) : Option Response :=
  if t.session.paused t.now then none
  else match t.attempt with
    | .answered resp => some resp
    | _ => none

inductive Delivery where
  /-- accepted, and acknowledged -/
  | accepted
  /-- given up, and acknowledged -/
  | refused (status : Nat)
  /-- the context is done; nothing is acknowledged -/
  | gaveUp
  | retrying (wait : Int)
  deriving DecidableEq, Repr

/-- The wait before the round after next. -/
def nextWait (wait : Int) (r : PostResult) : Int := min (wrap64 (retryWait wait r * 2)) minute

/-- The rounds of `deliver`, which would wait for `wait` after the first of them. -/
def deliver : Int → List Turn → Delivery
  | wait, [] => .retrying wait
  | wait, t :: ts =>
    match t.result with
    | .ok => .accepted
    | .refused status => .refused status
    | r => if t.slept then deliver (nextWait wait r) ts else .gaveUp

/-- A 4xx other than 401, 403 and 429. -/
def refusesBatch (status : Nat) : Bool :=
  400 ≤ status && status < 500 && status != 401 && status != 403 && status != 429

theorem refusesBatch_iff {n : Nat} :
    refusesBatch n = true ↔ (400 ≤ n ∧ n < 500) ∧ n ≠ 401 ∧ n ≠ 403 ∧ n ≠ 429 := by
  simp [refusesBatch, and_assoc]

/-- The batch is neither accepted nor refused: it is posted again, unless the context
is done. -/
def GoesOn (t : Turn) (d : Delivery) : Prop :=
  if t.slept then ∃ wait, d = .retrying wait else d = .gaveUp

def Settles (t : Turn) (d : Delivery) : Prop :=
  match t.answer with
  | some resp =>
    if ok2xx resp.status then d = .accepted
    else if refusesBatch resp.status then d = .refused resp.status
    else GoesOn t d
  | none => GoesOn t d

/-- The answers for which `Post` has no case of their own. -/
def unforeseen (status : Nat) : Bool := status < 200 || (300 ≤ status && status < 400)

theorem unforeseen_iff {n : Nat} : unforeseen n = false ↔ 200 ≤ n ∧ ¬ (300 ≤ n ∧ n < 400) := by
  simp [unforeseen]

/-! ## One round -/

section Round
variable {t : Turn} {wait : Int}

/-- The event transport drops a batch on the same statuses. -/
theorem doPost_badBatch_iff (s : Session) (now : Int) (resp : Response) :
    (doPost s now (.answered resp)).2 = .permanent (.badBatch resp.status) ↔
      refusesBatch resp.status = true := by
  simp only [doPost, attempt]
  by_cases hok : ok2xx resp.status = true
  · rw [if_pos hok]
    rw [ok2xx_iff] at hok
    refine iff_of_false (by simp) ?_
    rw [refusesBatch_iff]
    omega
  rw [if_neg hok]
  by_cases hagent : refusesAgent resp.status = true
  · rw [if_pos hagent]
    rw [refusesAgent_iff] at hagent
    refine iff_of_false (by simp) ?_
    rw [refusesBatch_iff]
    omega
  rw [if_neg hagent]
  rw [refusesAgent_iff] at hagent
  by_cases hbad : (decide (400 ≤ resp.status) && decide (resp.status < 500) &&
      resp.status != 429) = true
  · rw [if_pos hbad, refusesBatch_iff]
    simp only [Bool.and_eq_true, decide_eq_true_eq, bne_iff_ne] at hbad
    refine iff_of_true rfl ?_
    omega
  · rw [if_neg hbad, refusesBatch_iff]
    simp only [Bool.and_eq_true, decide_eq_true_eq, bne_iff_ne] at hbad
    refine iff_of_false (by simp) ?_
    omega

theorem deliver_goesOn {r : PostResult} (hr : t.result = r) (hok : settles r = false) :
    GoesOn t (deliver wait [t]) := by
  cases r with
  | ok => cases hok
  | refused => cases hok
  | _ =>
    simp only [GoesOn, deliver, hr]
    split
    · exact ⟨_, rfl⟩
    · rfl

theorem goesOn_settled {d : Delivery} (h : GoesOn t d) :
    d ≠ .accepted ∧ ∀ status, d ≠ .refused status := by
  unfold GoesOn at h
  split at h
  · obtain ⟨w, rfl⟩ := h
    exact ⟨nofun, nofun⟩
  · subst h
    exact ⟨nofun, nofun⟩

/-- A round with an answer comes to what it should exactly when the answer is
foreseen. -/
theorem settles_answer_iff {resp : Response} (h : t.answer = some resp) :
    Settles t (deliver wait [t]) ↔ unforeseen resp.status = false := by
  unfold Turn.answer at h
  split at h
  · cases h
  next hpaused =>
  split at h
  case h_2 => cases h
  next resp' hatt =>
  obtain rfl := Option.some.inj h
  have hanswer : t.answer = some resp' := by
    simp only [Turn.answer, if_neg hpaused, hatt]
  have hresult : t.result = (post t.session t.now (.answered resp')).2 := by
    rw [Turn.result, if_neg hpaused, hatt]
  simp only [Settles, hanswer]
  simp only [post] at hresult
  by_cases hok : ok2xx resp'.status = true
  · -- accepted
    rw [if_pos hok] at hresult ⊢
    rw [ok2xx_iff] at hok
    simp only [deliver, hresult, unforeseen_iff, true_iff]
    omega
  rw [if_neg hok] at hresult ⊢
  rw [ok2xx_iff] at hok
  by_cases hagent : refusesAgent resp'.status = true
  · -- the agent is rejected
    rw [if_pos hagent] at hresult
    rw [refusesAgent_iff] at hagent
    rw [if_neg (by rw [refusesBatch_iff]; omega), unforeseen_iff]
    exact iff_of_true (deliver_goesOn hresult rfl) (by omega)
  rw [if_neg hagent] at hresult
  rw [refusesAgent_iff] at hagent
  by_cases hbusy : (resp'.status == 429 || decide (500 ≤ resp'.status)) = true
  · -- the server is busy
    rw [if_pos hbusy] at hresult
    simp only [Bool.or_eq_true, beq_iff_eq, decide_eq_true_eq] at hbusy
    rw [if_neg (by rw [refusesBatch_iff]; omega), unforeseen_iff]
    exact iff_of_true (deliver_goesOn hresult rfl) (by omega)
  · -- the default case
    rw [if_neg hbusy] at hresult
    simp only [Bool.or_eq_true, beq_iff_eq, decide_eq_true_eq] at hbusy
    have hd : deliver wait [t] = .refused resp'.status := by simp only [deliver, hresult]
    rw [hd, unforeseen_iff]
    by_cases hbatch : refusesBatch resp'.status = true
    · rw [if_pos hbatch]
      rw [refusesBatch_iff] at hbatch
      exact iff_of_true rfl (by omega)
    · rw [if_neg hbatch]
      rw [refusesBatch_iff] at hbatch
      exact iff_of_false (fun h => (goesOn_settled h).2 _ rfl) (by omega)

theorem settles_none (hurl : t.attempt ≠ .noRequest) (h : t.answer = none) :
    Settles t (deliver wait [t]) := by
  simp only [Settles, h]
  unfold Turn.answer at h
  split at h
  · next hp => exact deliver_goesOn (show t.result = .paused from if_pos hp) rfl
  · next hp =>
    cases ha : t.attempt with
    | noRequest => exact absurd ha hurl
    | network =>
      refine deliver_goesOn (r := .network) ?_ rfl
      rw [Turn.result, if_neg hp, ha]
      rfl
    | answered => simp [ha] at h

end Round

/-! ## All rounds -/

theorem deliver_append {wait w : Int} {pre : List Turn} (t : Turn)
    (h : deliver wait pre = .retrying w) : deliver wait (pre ++ [t]) = deliver w [t] := by
  induction pre generalizing wait with
  | nil =>
    cases h
    rfl
  | cons u pre ih =>
    rw [cons_append]
    unfold deliver at h
    rw [deliver]
    split at h
    · cases h
    · cases h
    · split at h
      · next hs => rw [if_pos hs]; exact ih h
      · cases h

/-- The round `t` of `turns` begins after those of `pre`. -/
def Begins (turns pre : List Turn) (t : Turn) : Prop :=
  (∃ post, turns = pre ++ t :: post) ∧ ∃ wait, deliver second pre = .retrying wait

/-- Every round of a delivery comes to what it should (accepted, given up on a
definite refusal, or posted again) exactly when no round is answered with an
unforeseen status. The definite refusals are those on which the event transport drops
a batch. -/
theorem deliver_settles_iff (turns : List Turn) (hurl : ∀ t ∈ turns, t.attempt ≠ .noRequest) :
    (∀ s now resp, (doPost s now (.answered resp)).2 = .permanent (.badBatch resp.status) ↔
      refusesBatch resp.status = true) ∧
    ((∀ pre t, Begins turns pre t → Settles t (deliver second (pre ++ [t]))) ↔
      ∀ pre t, Begins turns pre t → ∀ resp, t.answer = some resp →
        unforeseen resp.status = false) := by
  have hround : ∀ pre t, Begins turns pre t →
      (Settles t (deliver second (pre ++ [t])) ↔
        ∀ resp, t.answer = some resp → unforeseen resp.status = false) := by
    rintro pre t ⟨⟨post, hturns⟩, w, hw⟩
    rw [deliver_append t hw]
    have hmem : t ∈ turns := hturns ▸ mem_append_right pre mem_cons_self
    cases ha : t.answer with
    | none => exact iff_of_true (settles_none (hurl t hmem) ha) nofun
    | some resp =>
      rw [settles_answer_iff ha]
      exact ⟨fun h r hr => Option.some.inj hr ▸ h, fun h => h resp rfl⟩
  refine ⟨doPost_badBatch_iff, fun h pre t hr => ?_, fun h pre t hr => ?_⟩
  · exact (hround pre t hr).mp (h pre t hr)
  · exact (hround pre t hr).mpr (h pre t hr)

/-- A post that an agent with a fresh session makes, with the status of its answer. -/
def answeredWith (status : Nat) : Turn :=
  { session := newSession, now := 0, slept := true,
    attempt := .answered ⟨status, [], [], [], []⟩ }

/-- A batch that is refused with 422 after a 503 is given up there, as it should. -/
theorem deliver_settles_busy_refused :
    deliver second [answeredWith 503, answeredWith 422] = .refused 422 ∧
    ∀ pre t, Begins [answeredWith 503, answeredWith 422] pre t →
      Settles t (deliver second (pre ++ [t])) := by
  refine ⟨by decide, (deliver_settles_iff _ (by decide)).2.mpr ?_⟩
  rintro pre t ⟨⟨post, h⟩, -⟩ resp hresp
  have hmem : t ∈ [answeredWith 503, answeredWith 422] :=
    h ▸ mem_append_right pre mem_cons_self
  simp only [mem_cons, not_mem_nil, or_false] at hmem
  rcases hmem with rfl | rfl <;> cases hresp <;> decide

/-- `304 Not Modified`: the lines are given up and their positions move on, where the
event transport posts its batch again. -/
theorem deliver_notModified_refused :
    Begins [answeredWith 304] [] (answeredWith 304) ∧
    deliver second [answeredWith 304] = .refused 304 ∧ refusesBatch 304 = false ∧
    (doPost newSession 0 (answeredWith 304).attempt).2 = .retry (.status 304) ∧
    ¬ Settles (answeredWith 304) (deliver second [answeredWith 304]) := by
  refine ⟨⟨⟨[], rfl⟩, _, rfl⟩, by decide, by decide, by decide, ?_⟩
  rintro ⟨wait, h⟩
  cases h

/-! ## The shipper takes these rounds -/

section Shipper
variable {ε : Type} (encode : Int → ε → Option Bytes) (cfg : ShipperConfig)

/-- The steps of the shipper in the rounds of a delivery, up to its end. A sleep that is
interrupted ends because the context is done. -/
def deliverLabels : List Turn → List (ShipLabel ε)
  | [] => []
  | t :: ts =>
    .posted t.result ::
      if settles t.result then []
      else if t.slept then .woken :: deliverLabels ts
      else [.cancel, .giveUp]

/-- The shipper after the rounds of a delivery that was to wait for `wait`. -/
def afterDelivery (k : Cont ε) (s : Shipper ε) : Delivery → Shipper ε
  | .accepted | .refused _ => resume cfg k s.settle
  | .gaveUp => resume cfg k { s with cancelled := true }
  | .retrying wait => { s with control := .posting k wait }

theorem resume_control (k : Cont ε) (s : Shipper ε) (c : Control ε) :
    resume cfg k { s with control := c } = resume cfg k s := by
  cases k <;> rfl

/-- A shipper that has begun to post a batch takes the rounds of `deliver`: its entries
are acknowledged when the batch is accepted or refused and in no other case. -/
theorem deliver_run {k : Cont ε} {wait : Int} (turns : List Turn) (s : Shipper ε)
    (hctl : s.control = .posting k wait) :
    run (shipStep encode cfg) s (deliverLabels turns) =
      some (afterDelivery cfg k s (deliver wait turns)) := by
  induction turns generalizing s wait with
  | nil =>
    simp only [deliverLabels, run, deliver, afterDelivery, ← hctl]
  | cons t ts ih =>
    by_cases hset : settles t.result = true
    · have hd : afterDelivery cfg k s (deliver wait (t :: ts)) = resume cfg k s.settle := by
        cases hr : t.result with
        | ok | refused => simp only [deliver, hr, afterDelivery]
        | _ => rw [hr] at hset; cases hset
      rw [hd]
      simp only [deliverLabels, if_pos hset, run, shipStep, hctl]
    · have hd : deliver wait (t :: ts) =
          if t.slept then deliver (nextWait wait t.result) ts else .gaveUp := by
        cases hr : t.result with
        | ok | refused => rw [hr] at hset; exact absurd rfl hset
        | _ => simp only [deliver, hr]
      rw [hd]
      by_cases hslept : t.slept = true
      · simp only [deliverLabels, if_neg hset, if_pos hslept, run, shipStep, hctl]
        refine (ih { s with control := .posting k (nextWait wait t.result) } rfl).trans ?_
        cases deliver (nextWait wait t.result) ts with
        | accepted | refused => exact congrArg some (resume_control cfg k s.settle _)
        | gaveUp => exact congrArg some (resume_control cfg k { s with cancelled := true } _)
        | retrying => rfl
      · simp only [deliverLabels, if_neg hset, if_neg hslept, run, shipStep, hctl, if_true,
          afterDelivery]
        exact congrArg some (resume_control cfg k { s with cancelled := true } _)

/-- A batch is posted to a server that fails, and once more: it is accepted, or the server
fails again and the agent is stopped while it waits. -/
theorem second_post_settles :
    let s : Shipper Nat := { newRun with batch := [3], buf := [0], control := .posting .toSelect second }
    let cfg : ShipperConfig := ⟨2, 0, 0, [], []⟩
    run (shipStep (fun _ _ => none) cfg) s (deliverLabels [answeredWith 503, answeredWith 200]) =
      some (resume cfg .toSelect { s with settled := [([3], [0])], acked := [3] }) ∧
    run (shipStep (fun _ _ => none) cfg) s
        (deliverLabels [answeredWith 503, { answeredWith 503 with slept := false }]) =
      some (resume cfg .toSelect { s with cancelled := true }) := by
  intro s cfg
  exact ⟨deliver_run _ cfg [answeredWith 503, answeredWith 200] s rfl,
    deliver_run _ cfg [answeredWith 503, { answeredWith 503 with slept := false }] s rfl⟩

end Shipper

end YominsAgent.Logs
