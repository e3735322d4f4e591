import Mathlib.Data.Finset.Basic
import YominsAgent.Transport.Pause

/- One session under any number of requests at once. A request is started and answered; between the
   two, others may be started and answered. `Traffic` takes no notice of who sends: a request starts
   whether or not the session is paused, since the retry loops of `Push` and `flush` look at the
   pause once and `Post` starts its request behind its look. So every run of the three transports is
   a run of it (`run_traffic`).

   `PausesStand` says that the pause of each rejection ends no earlier than the rejection said,
   unless a request started behind the rejection was accepted. `accepted` and `reject` overwrite the
   end of the pause without asking when the request was started, so an answer that comes late breaks
   it (`late_answer_ends_pause`). A run keeps it exactly when each of its answers either meets no
   pause or is in turn (`pauses_stand_iff`): an acceptance of a request started behind the last
   rejection, a rejection whose own pause ends no earlier than the present one. -/
namespace YominsAgent.Transport
open Lib List Bool

structure Traffic where
  session : Session
  now : Int
  /-- the requests without an answer -/
  pending : Finset Nat
  /-- the number of the next request -/
  next : Nat
  hist : List Ev

inductive Move where
  | tick (d : Nat)
  /-- `client.Do` is called. -/
  | start
  /-- Request `n` comes back. -/
  | answer (n : Nat) (a : Attempt)
  deriving DecidableEq, Repr

namespace Traffic

def init (now : Int) : Traffic := ⟨newSession, now, ∅, 0, []⟩

def step (s : Traffic) : Move → Option Traffic
  | .tick d => some { s with now := s.now + d }
  | .start =>
    some { s with
      pending := insert s.next s.pending, next := s.next + 1
      hist := s.hist ++ [.started s.next s.now] }
  | .answer n a =>
    if n ∈ s.pending then
      some { s with
        session := settle s.session s.now a, pending := s.pending.erase n
        hist := s.hist ++ events s.session s.now n a }
    else none

/-- The pause of a rejection with end `u` stands once `h` has followed the
rejection: a request started behind it was accepted, or the pause is over, or the
session stays paused until `u` at least. -/
def Stands (s : Traffic) (u : Int) (h : List Ev) : Prop :=
  Cleared h ∨ u ≤ s.now ∨ ∃ v, s.session.until = some v ∧ u ≤ v

def PausesStand (s : Traffic) : Prop :=
  ∀ h₁ n u h₂, s.hist = h₁ ++ .rejected n u :: h₂ → s.Stands u h₂

end Traffic

/-- What one record says of request `n` having been started behind the last
rejection. -/
def noteStart (n : Nat) (b : Bool) : Ev → Bool
  | .started m _ => b || m == n
  | .accepted _ => b
  | .rejected _ _ => false

/-- Request `n` was started behind the last rejection, or there was none. -/
def startedSince (n : Nat) (h : List Ev) : Bool := h.foldl (noteStart n) true

/-- The answer meets no pause; or the request it accepts was started behind the last
rejection; or the pause it begins ends no earlier than the present one. -/
def inTurn (s : Traffic) : Move → Bool
  | .answer n (.answered resp) =>
    !s.session.paused s.now ||
      if ok2xx resp.status then startedSince n s.hist
      else if refusesAgent resp.status then
        s.session.until.all fun v => v ≤ s.now + s.session.pauseFor (rejection resp)
      else true
  | _ => true

/-! ## Requests started behind a rejection -/

variable {n : Nat} {b : Bool} {h : List Ev}

theorem started_of_foldl (hb : h.foldl (noteStart n) b = true) :
    b = true ∨ ∃ t, Ev.started n t ∈ h := by
  induction h generalizing b with
  | nil => exact .inl hb
  | cons e h ih =>
    rcases ih hb with he | ⟨t, ht⟩
    · cases e with
      | started m t =>
        rcases or_eq_true_iff.mp he with hb | hm
        · exact .inl hb
        · exact .inr ⟨t, by rw [beq_iff_eq.mp hm]; exact mem_cons_self⟩
      | accepted => exact .inl he
      | rejected => cases he
    · exact .inr ⟨t, mem_cons_of_mem e ht⟩

theorem foldl_of_started (hrej : ∀ m u, Ev.rejected m u ∉ h)
    (hs : b = true ∨ ∃ t, Ev.started n t ∈ h) : h.foldl (noteStart n) b = true := by
  induction h generalizing b with
  | nil =>
    rcases hs with hb | ⟨t, ht⟩
    · exact hb
    · cases ht
  | cons e h ih =>
    refine ih (fun m u hm => hrej m u (mem_cons_of_mem e hm)) ?_
    cases e with
    | started =>
      rcases hs with hb | ⟨t', ht⟩
      · exact .inl (or_eq_true_iff.mpr (.inl hb))
      · rcases mem_cons.mp ht with heq | ht
        · cases heq
          exact .inl (or_eq_true_iff.mpr (.inr (beq_self_eq_true n)))
        · exact .inr ⟨t', ht⟩
    | accepted =>
      rcases hs with hb | ⟨t, ht⟩
      · exact .inl hb
      · exact .inr ⟨t, (mem_cons.mp ht).resolve_left nofun⟩
    | rejected m u => exact absurd mem_cons_self (hrej m u)

variable {m : Nat} {u : Int} {h₁ h₂ : List Ev}

/-- A request started behind the last rejection was started behind each. -/
theorem started_behind (h : startedSince n (h₁ ++ .rejected m u :: h₂) = true) :
    ∃ t, Ev.started n t ∈ h₂ := by
  unfold startedSince at h
  rw [foldl_append, foldl_cons] at h
  exact (started_of_foldl h).resolve_left nofun

theorem startedSince_of_last {t : Int} (hrej : ∀ m u, Ev.rejected m u ∉ h₂)
    (hs : Ev.started n t ∈ h₂) : startedSince n (h₁ ++ .rejected m u :: h₂) = true := by
  unfold startedSince
  rw [foldl_append, foldl_cons]
  exact foldl_of_started hrej (.inr ⟨t, hs⟩)

/-! ## Steps -/

/-- What an answer does to the session and the history. -/
inductive Answered (s : Session) (now : Int) (n : Nat) (a : Attempt) : Prop where
  | passed (ha : ∀ resp, a = .answered resp →
        ok2xx resp.status = false ∧ refusesAgent resp.status = false)
      (hs : settle s now a = s) (he : events s now n a = [])
  | accepted (resp : Response) (ha : a = .answered resp) (hok : ok2xx resp.status = true)
      (hs : settle s now a = s.accepted resp) (he : events s now n a = [.accepted n])
  | rejected (resp : Response) (ha : a = .answered resp) (hok : ok2xx resp.status = false)
      (hr : refusesAgent resp.status = true) (hs : settle s now a = s.reject (rejection resp) now)
      (he : events s now n a = [.rejected n (now + s.pauseFor (rejection resp))])

theorem answered (s : Session) (now : Int) (n : Nat) (a : Attempt) : Answered s now n a := by
  cases a with
  | noRequest | network => exact .passed nofun rfl rfl
  | answered resp =>
    cases hok : ok2xx resp.status with
    | true => exact .accepted resp rfl hok (by simp [settle, hok]) (by simp [events, hok])
    | false =>
      cases hr : refusesAgent resp.status with
      | true => exact .rejected resp rfl hok hr (settle_rejected hr) (by simp [events, hok, hr])
      | false =>
        refine .passed ?_ (by simp [settle, hok, hr]) (by simp [events, hok, hr])
        intro resp' heq
        cases heq
        exact ⟨hok, hr⟩

namespace Traffic
variable {s s' : Traffic} {a : Move} {e : Ev}

/-- The end of the pause is that of the last rejection, and nothing was accepted
since. -/
def LastRejection (s : Traffic) : Prop :=
  ∀ v, s.session.until = some v → ∃ h₁ m h₂, s.hist = h₁ ++ .rejected m v :: h₂ ∧
    (∀ k, Ev.accepted k ∉ h₂) ∧ ∀ k u, Ev.rejected k u ∉ h₂

theorem LastRejection.snoc (h : LastRejection s) (hs : s'.session = s.session)
    (hh : s'.hist = s.hist ++ [e]) (ha : ∀ k, e ≠ .accepted k) (hr : ∀ k u, e ≠ .rejected k u) :
    LastRejection s' := by
  intro v hv
  obtain ⟨h₁, m, h₂, heq, hacc, hrej⟩ := h v (hs ▸ hv)
  refine ⟨h₁, m, h₂ ++ [e], by rw [hh, heq]; simp, ?_, ?_⟩
  · exact fun k hk => (mem_snoc.mp hk).elim (hacc k) fun he => ha k he.symm
  · exact fun k u hk => (mem_snoc.mp hk).elim (hrej k u) fun he => hr k u he.symm

theorem lastRejection_step (h : LastRejection s) (hstep : step s a = some s') :
    LastRejection s' := by
  cases a with
  | tick =>
    cases hstep
    exact h
  | start =>
    cases hstep
    exact h.snoc rfl rfl nofun nofun
  | answer n a =>
    obtain ⟨-, ⟨⟩⟩ := Option.ite_none_right_eq_some.mp hstep
    cases answered s.session s.now n a with
    | passed ha hs he =>
      intro v hv
      rw [hs] at hv
      simpa [he] using h v hv
    | accepted resp ha hok hs =>
      intro v hv
      rw [hs] at hv
      cases hv
    | rejected resp ha hok hr hs he =>
      intro v hv
      rw [hs] at hv
      cases hv
      exact ⟨s.hist, n, [], by rw [he], fun k => not_mem_nil, fun k u => not_mem_nil⟩

/-- With the end of the pause and the clock kept, a pause that stands does so
whatever follows it. -/
theorem Stands.later {e : List Ev} (hs : s.Stands u h) (hu : s'.session.until = s.session.until)
    (hn : s.now ≤ s'.now) : s'.Stands u (h ++ e) := by
  rcases hs with hc | ho | ⟨v, hv, huv⟩
  · exact .inl (hc.append e)
  · exact .inr (.inl (Int.le_trans ho hn))
  · exact .inr (.inr ⟨v, hu ▸ hv, huv⟩)

/-- Where no pause is in force, each rejection was lifted or is over, and stays so. -/
theorem Stands.of_not_paused {e : List Ev} (hs : s.Stands u h)
    (hp : s.session.paused s.now = false) (hn : s.now ≤ s'.now) : s'.Stands u (h ++ e) := by
  rcases hs with hc | ho | ⟨v, hv, huv⟩
  · exact .inl (hc.append e)
  · exact .inr (.inl (Int.le_trans ho hn))
  · simp only [Session.paused, hv, decide_eq_false_iff_not] at hp
    exact .inr (.inl (by omega))

/-- A record behind those of `s`: each older rejection still stands, and a new one
does. -/
theorem PausesStand.snoc (hh : s'.hist = s.hist ++ [e])
    (hold : ∀ h₁ n u h₂, s.hist = h₁ ++ .rejected n u :: h₂ → s'.Stands u (h₂ ++ [e]))
    (hnew : ∀ n u, e = .rejected n u → s'.Stands u []) : PausesStand s' := by
  intro h₁ n u h₂ heq
  rw [hh] at heq
  rcases snoc_split heq with ⟨rfl, he, -⟩ | ⟨h2', rfl, heq'⟩
  · exact hnew n u he
  · exact hold h₁ n u h2' heq'

theorem pausesStand_step (h : PausesStand s) (hstep : guarded inTurn step s a = some s') :
    PausesStand s' := by
  obtain ⟨hturn, hstep⟩ := guarded_eq_some.mp hstep
  cases a with
  | tick =>
    cases hstep
    intro h₁ n u h₂ heq
    rw [← append_nil h₂]
    exact (h h₁ n u h₂ heq).later rfl (by simp only; omega)
  | start =>
    cases hstep
    refine .snoc rfl ?_ (by simp)
    intro h₁ n u h₂ heq
    exact (h h₁ n u h₂ heq).later rfl (Int.le_refl _)
  | answer n a =>
    obtain ⟨-, ⟨⟩⟩ := Option.ite_none_right_eq_some.mp hstep
    cases answered s.session s.now n a with
    | passed ha hs he =>
      intro h₁ m u h₂ heq
      rw [he, append_nil] at heq
      rw [← append_nil h₂]
      exact (h h₁ m u h₂ heq).later (by simp only [hs]) (Int.le_refl _)
    | accepted resp ha hok hs he =>
      refine .snoc (by rw [he]) ?_ (by simp)
      intro h₁ m u h₂ heq
      simp only [inTurn, ha, hok, if_true, or_eq_true, not_eq_true'] at hturn
      rcases hturn with hp | hsince
      · exact (h h₁ m u h₂ heq).of_not_paused hp (Int.le_refl _)
      · -- the accepted request was started behind every rejection
        rw [heq] at hsince
        obtain ⟨t, ht⟩ := started_behind hsince
        exact .inl ⟨n, ⟨t, mem_append_left _ ht⟩, by simp⟩
    | rejected resp ha hok hr hs he =>
      have huntil : (settle s.session s.now a).until =
          some (s.now + s.session.pauseFor (rejection resp)) := by rw [hs]; rfl
      refine .snoc (by rw [he]) ?_ ?_
      · intro h₁ m u h₂ heq
        simp only [inTurn, ha, hok, hr, if_true, or_eq_true, not_eq_true',
          false_eq_true, if_false] at hturn
        rcases hturn with hp | hlater
        · exact (h h₁ m u h₂ heq).of_not_paused hp (Int.le_refl _)
        · rcases h h₁ m u h₂ heq with hc | ho | ⟨v, hv, huv⟩
          · exact .inl (hc.append _)
          · exact .inr (.inl ho)
          · rw [hv, Option.all_some, decide_eq_true_eq] at hlater
            exact .inr (.inr ⟨_, huntil, Int.le_trans huv hlater⟩)
      · intro m u hmu
        cases hmu
        exact .inr (.inr ⟨_, huntil, Int.le_refl _⟩)

/-- What follows a rejection lifts it only if a request started behind it is
accepted: the record of an answer to another request does not. -/
theorem not_cleared_snoc (hacc : ∀ k, Ev.accepted k ∉ h) (hst : ∀ k t, e ≠ .started k t)
    (he : ∀ k, e = .accepted k → ∀ t, Ev.started k t ∉ h) : ¬ Cleared (h ++ [e]) := by
  rintro ⟨k, ⟨t, ht⟩, hk⟩
  have ht' : Ev.started k t ∈ h :=
    (mem_snoc.mp ht).resolve_right fun h => hst k t h.symm
  exact (mem_snoc.mp hk).elim (hacc k) fun hk => he k hk.symm t ht'

/-- A pause in force is that of the last rejection. -/
theorem LastRejection.of_paused (h : LastRejection s) (hp : s.session.paused s.now = true) :
    ∃ h₁ m v h₂, s.session.until = some v ∧ s.now < v ∧ s.hist = h₁ ++ .rejected m v :: h₂ ∧
      (∀ k, Ev.accepted k ∉ h₂) ∧ ∀ k u, Ev.rejected k u ∉ h₂ := by
  unfold Session.paused at hp
  split at hp
  · cases hp
  · next v hv =>
    obtain ⟨h₁, m, h₂, heq, hacc, hrej⟩ := h v hv
    exact ⟨h₁, m, v, h₂, hv, of_decide_eq_true hp, heq, hacc, hrej⟩

/-- An answer that is not in turn ends a pause before its time. -/
theorem inTurn_of_pausesStand (hlast : LastRejection s) (hstep : step s a = some s')
    (h' : PausesStand s') : inTurn s a = true := by
  cases a with
  | tick => rfl
  | start => rfl
  | answer n a =>
    obtain ⟨-, ⟨⟩⟩ := Option.ite_none_right_eq_some.mp hstep
    cases answered s.session s.now n a with
    | passed ha =>
      cases a with
      | noRequest => rfl
      | network => rfl
      | answered resp =>
        obtain ⟨hok, hr⟩ := ha resp rfl
        simp [inTurn, hok, hr]
    | accepted resp ha hok hs he =>
      cases hp : s.session.paused s.now with
      | false => simp [inTurn, ha, hp]
      | true =>
        obtain ⟨h₁, m, v, h₂, hv, hnow, heq, hacc, hrej⟩ := hlast.of_paused hp
        suffices hst : ∃ t, Ev.started n t ∈ h₂ by
          obtain ⟨t, ht⟩ := hst
          simp only [inTurn, ha, hok, if_true, heq, startedSince_of_last hrej ht, Bool.or_true]
        by_contra hno
        have hstands := h' h₁ m v (h₂ ++ [.accepted n]) (by simp only [he, heq]; simp)
        rcases hstands with hc | ho | ⟨w, hw, -⟩
        · refine not_cleared_snoc hacc (by simp) ?_ hc
          intro k hk t ht
          cases hk
          exact hno ⟨t, ht⟩
        · simp only at ho
          omega
        · rw [hs] at hw
          cases hw
    | rejected resp ha hok hr hs he =>
      cases hp : s.session.paused s.now with
      | false => simp [inTurn, ha, hp]
      | true =>
        obtain ⟨h₁, m, v, h₂, hv, hnow, heq, hacc, hrej⟩ := hlast.of_paused hp
        suffices hle : v ≤ s.now + s.session.pauseFor (rejection resp) by
          simp [inTurn, ha, hok, hr, hv, hle]
        have hstands := h' h₁ m v
          (h₂ ++ [.rejected n (s.now + s.session.pauseFor (rejection resp))])
          (by simp only [he, heq]; simp)
        rcases hstands with hc | ho | ⟨w, hw, hle⟩
        · exact absurd hc (not_cleared_snoc hacc (by simp) (by simp))
        · simp only at ho
          omega
        · rw [hs] at hw
          cases hw
          exact hle

/-! ## Runs -/

/-- A run keeps every pause, in each of its states, exactly when each of its answers
meets no pause or is in turn. -/
theorem pauses_stand_iff (now : Int) (as : List Move) (s : Traffic)
    (h : run step (init now) as = some s) :
    (∀ as₁ as₂ m, as = as₁ ++ as₂ → run step (init now) as₁ = some m → PausesStand m) ↔
      run (guarded inTurn step) (init now) as = some s := by
  refine run_guarded_iff (I := LastRejection) ?_ ?_ ?_ as (init now) s nofun ?_ h
  · intro s a s' hI hstep
    exact lastRejection_step hI hstep
  · intro s a s' _ hP hstep
    exact pausesStand_step hP hstep
  · intro s a s' hI hstep hP
    exact inTurn_of_pausesStand hI hstep hP
  · intro h₁ n u h₂ heq
    cases h₁ <;> cases heq

def afterMinute : List Move :=
  [.start, .start, .answer 0 (.answered ⟨403, [], "60".toList, [], []⟩), .tick 60000000000,
    .answer 1 (.answered ⟨204, [], [], [], []⟩)]

/-- Two requests are under way when the first is rejected for a minute; the second
comes back after the pause and is accepted. -/
theorem minute_stands : ∃ s, run step (init 0) afterMinute = some s ∧ PausesStand s :=
  ⟨_, rfl, (pauses_stand_iff 0 afterMinute _ rfl).mpr rfl _ [] _ (append_nil _).symm rfl⟩

/-- A request in flight when another is rejected for a minute ends the pause at once:
by being accepted, or by being rejected for a second. -/
theorem late_answer_ends_pause :
    (∃ s, run step (init 0)
      [.start, .start, .answer 0 (.answered ⟨403, [], "60".toList, [], []⟩),
        .answer 1 (.answered ⟨204, [], [], [], []⟩)] = some s ∧ ¬ PausesStand s) ∧
    ∃ s, run step (init 0)
      [.start, .start, .answer 0 (.answered ⟨403, [], "60".toList, [], []⟩),
        .answer 1 (.answered ⟨403, [], "1".toList, [], []⟩)] = some s ∧ ¬ PausesStand s := by
  refine ⟨⟨_, rfl, ?_⟩, ⟨_, rfl, ?_⟩⟩
  · intro h
    rcases h [.started 0 0, .started 1 0] 0 60000000000 [.accepted 1] rfl with hc | ho | ⟨v, hv, -⟩
    · exact not_cleared_snoc (h := []) (by simp) (by simp) (by simp) hc
    · exact absurd ho (by decide)
    · cases hv
  · intro h
    rcases h [.started 0 0, .started 1 0] 0 60000000000 [.rejected 1 1000000000] rfl with
      hc | ho | ⟨v, hv, hle⟩
    · exact not_cleared_snoc (h := []) (by simp) (by simp) (by simp) hc
    · exact absurd ho (by decide)
    · cases hv
      exact absurd hle (by decide)

end Traffic

/-! ## The three transports -/

/-- The requests of the transports as traffic of their session: those in flight are
the pending ones, each of one client. -/
structure Refines (s : State) (t : Traffic) : Prop where
  session : t.session = s.session
  now : t.now = s.now
  next : t.next = s.next
  hist : t.hist = s.hist
  pending : ∀ n, n ∈ t.pending ↔ ∃ c l, s.phase c = .inflight l n
  below : ∀ c l n, s.phase c = .inflight l n → n < s.next
  one : ∀ c c' l l' n, s.phase c = .inflight l n → s.phase c' = .inflight l' n → c = c'

theorem nextBatch_ne_inflight (left l n : Nat) : nextBatch left ≠ .inflight l n := by
  cases left <;> exact nofun

theorem after_ne_inflight (c : Client) (left : Nat) (s : Session) (now : Int) (a : Attempt)
    (l n : Nat) : (after c left s now a).2 ≠ .inflight l n := by
  cases c with
  | metrics =>
    simp only [after]
    split <;> simp
  | events =>
    simp only [after]
    split
    · exact nextBatch_ne_inflight left l n
    · exact nextBatch_ne_inflight left l n
    · simp
    · simp
  | logs => simp [after]

variable {p : Phase}

theorem phase_set {s : State} {c c' : Client} :
    (s.set c p).phase c' = if c' = c then p else s.phase c' := rfl

variable {s s' : State} {t : Traffic} {c : Client}

/-- A client that has no request in flight, before or after, changes nothing. -/
theorem Refines.set (h : Refines s t) (hold : ∀ l n, s.phase c ≠ .inflight l n)
    (hnew : ∀ l n, p ≠ .inflight l n) : Refines (s.set c p) t := by
  have hphase : ∀ c' l n, (s.set c p).phase c' = .inflight l n ↔ s.phase c' = .inflight l n := by
    intro c' l n
    rw [phase_set]
    split
    · next heq =>
      rw [heq]
      exact ⟨fun hp => absurd hp (hnew l n), fun hp => absurd hp (hold l n)⟩
    · exact Iff.rfl
  refine ⟨h.session, h.now, h.next, h.hist, ?_, ?_, ?_⟩
  · intro n
    simp only [hphase]
    exact h.pending n
  · intro c' l n hp
    exact h.below c' l n ((hphase c' l n).mp hp)
  · intro c' c'' l l' n hp hp'
    exact h.one c' c'' l l' n ((hphase c' l n).mp hp) ((hphase c'' l' n).mp hp')

theorem Refines.start (h : Refines s t) {left : Nat} (hold : ∀ l n, s.phase c ≠ .inflight l n) :
    ∃ t', t.step .start = some t' ∧
      Refines { s.set c (.inflight left s.next) with
        next := s.next + 1, hist := s.hist ++ [.started s.next s.now] } t' := by
  refine ⟨_, rfl, h.session, h.now, ?_, ?_, ?_, ?_, ?_⟩
  · simp only [h.next]
  · simp only [h.hist, h.next, h.now]
  · intro n
    simp only [Finset.mem_insert, h.next, h.pending, phase_set]
    constructor
    · rintro (rfl | ⟨c', l, hp⟩)
      · exact ⟨c, left, if_pos rfl⟩
      · refine ⟨c', l, ?_⟩
        rw [if_neg]
        · exact hp
        · rintro rfl
          exact hold l n hp
    · rintro ⟨c', l, hp⟩
      split at hp
      · cases hp
        exact .inl rfl
      · exact .inr ⟨c', l, hp⟩
  · intro c' l n hp
    simp only [phase_set] at hp
    split at hp
    · cases hp
      exact Nat.lt_succ_self _
    · exact Nat.lt_succ_of_lt (h.below c' l n hp)
  · intro c' c'' l l' n hp hp'
    simp only [phase_set] at hp hp'
    split at hp
    · next heq =>
      cases hp
      split at hp'
      · next heq' => rw [heq, heq']
      · exact absurd (h.below c'' l' _ hp') (Nat.lt_irrefl _)
    · split at hp'
      · cases hp'
        exact absurd (h.below c' l _ hp) (Nat.lt_irrefl _)
      · exact h.one c' c'' l l' n hp hp'

theorem Refines.answer (h : Refines s t) {left : Nat} {a : Attempt}
    (hp : s.phase c = .inflight left n) :
    ∃ t', t.step (.answer n a) = some t' ∧
      Refines { s.set c (after c left s.session s.now a).2 with
        session := (after c left s.session s.now a).1
        hist := s.hist ++ events s.session s.now n a } t' := by
  have hidle := after_ne_inflight c left s.session s.now a
  have hphase : ∀ c' l m, (s.set c (after c left s.session s.now a).2).phase c' = .inflight l m ↔
      c' ≠ c ∧ s.phase c' = .inflight l m := by
    intro c' l m
    rw [phase_set]
    split
    · next heq => exact ⟨fun hp => absurd hp (hidle l m), fun hp => absurd heq hp.1⟩
    · next hne => exact ⟨fun hp => ⟨hne, hp⟩, fun hp => hp.2⟩
  have hmem : n ∈ t.pending := (h.pending n).mpr ⟨c, left, hp⟩
  refine ⟨_, if_pos hmem, ?_, h.now, h.next, ?_, ?_, ?_, ?_⟩
  · simp only [after_fst, h.session, h.now]
  · simp only [h.hist, h.session, h.now]
  · intro m
    simp only [Finset.mem_erase, h.pending, hphase]
    constructor
    · rintro ⟨hne, c', l, hp'⟩
      refine ⟨c', l, ?_, hp'⟩
      rintro rfl
      rw [hp] at hp'
      cases hp'
      exact hne rfl
    · rintro ⟨c', l, hne, hp'⟩
      refine ⟨?_, c', l, hp'⟩
      rintro rfl
      exact hne (h.one c' c l left m hp' hp)
  · intro c' l m hp'
    exact h.below c' l m ((hphase c' l m).mp hp').2
  · intro c' c'' l l' m hp' hp''
    exact h.one c' c'' l l' m ((hphase c' l m).mp hp').2 ((hphase c'' l' m).mp hp'').2

/-- A step of the transports is none, or one, of the traffic. -/
theorem Refines.step (h : Refines s t) {a : Label} (hstep : step s a = some s') :
    ∃ ms t', run Traffic.step t ms = some t' ∧ Refines s' t' := by
  have hone : ∀ {m : Move} {s'' : State}, (∃ t', t.step m = some t' ∧ Refines s'' t') →
      ∃ ms t', run Traffic.step t ms = some t' ∧ Refines s'' t' := by
    rintro m s'' ⟨t', ht, hr⟩
    exact ⟨[m], t', run_cons.mpr ⟨t', ht, rfl⟩, hr⟩
  cases a with
  | tick d =>
    cases hstep
    refine hone (m := .tick d) ⟨_, rfl, h.session, ?_, h.next, h.hist, h.pending, h.below, h.one⟩
    simp only [h.now]
  | check =>
    simp only [Transport.step] at hstep
    split at hstep
    · next hp =>
      split at hstep
      · cases hstep
        exact ⟨[], t, rfl, h⟩
      · cases hstep
        refine ⟨[], t, rfl, h.set (by simp [hp]) ?_⟩
        intro l n
        unfold begin
        split <;> simp
    · cases hstep
  | start =>
    simp only [Transport.step] at hstep
    split at hstep
    iterate 2
      · next hp =>
        cases hstep
        exact hone (h.start (by simp [hp]))
    · cases hstep
  | noRequest c =>
    simp only [Transport.step] at hstep
    split at hstep
    iterate 2
      · next hp =>
        cases hstep
        exact ⟨[], t, rfl, h.set (by simp [hp]) (after_ne_inflight c _ _ _ _)⟩
    · cases hstep
  | answer =>
    simp only [Transport.step] at hstep
    split at hstep
    · next hp =>
      cases hstep
      exact hone (h.answer hp)
    · cases hstep
  | giveUp =>
    simp only [Transport.step] at hstep
    split at hstep
    · next hp =>
      cases hstep
      exact ⟨[], t, rfl, h.set (by simp [hp]) (by simp)⟩
    · cases hstep

/-- Every run of the three transports is a run of the traffic on their session. -/
theorem run_traffic (now : Int) (as : List Label) (s : State)
    (h : run step (init now) as = some s) :
    ∃ ms t, run Traffic.step (Traffic.init now) ms = some t ∧ Refines s t := by
  refine run_inv (I := fun s => ∃ ms t, run Traffic.step (Traffic.init now) ms = some t ∧
    Refines s t) ?_ as (init now) s ?_ h
  · rintro s a s' ⟨ms, t, hrun, hr⟩ hstep
    obtain ⟨ms', t', hrun', hr'⟩ := hr.step hstep
    exact ⟨ms ++ ms', t', by rw [run_append, hrun]; exact hrun', hr'⟩
  · refine ⟨[], _, rfl, rfl, rfl, rfl, rfl, ?_, nofun, nofun⟩
    intro n
    constructor
    · intro hn
      exact absurd hn (Finset.notMem_empty n)
    · rintro ⟨c, l, hp⟩
      cases hp

/-- A post of logs and one of metrics are under way together; the logs are rejected for a minute,
and the metrics are accepted within it. -/
def postsOverlap : List Label :=
  [.check .logs 1, .start .logs, .check .metrics 0, .start .metrics,
    .answer .logs (.answered ⟨403, [], "60".toList, [], []⟩), .tick 1000000000,
    .answer .metrics (.answered ⟨204, [], [], [], []⟩)]

theorem log_post_traffic : ∃ ms t s, run Traffic.step (Traffic.init 0) ms = some t ∧
    run step (init 0) postsOverlap = some s ∧ Refines s t ∧
    s.hist = [.started 0 0, .started 1 0, .rejected 0 60000000000, .accepted 1] := by
  obtain ⟨ms, t, ht, h⟩ := run_traffic 0 postsOverlap _ rfl
  exact ⟨ms, t, _, ht, rfl, h, rfl⟩

end YominsAgent.Transport
