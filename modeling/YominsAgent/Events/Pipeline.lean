import YominsAgent.Events.Passwd
import YominsAgent.Events.RingBuffer
import YominsAgent.Lib.Run

/- `events/pipeline.go`: the collectors send on one channel, which is closed once their
   `Run` has returned.

   The system collector's `Run` starts goroutines that send on the channel as well and
   returns without them. Closing the channel is safe, whatever comes after, exactly when
   they have ended by then (`no_send_after_close`); a poll of `/etc/passwd` that is in
   progress at the cancellation may still send afterwards (`passwd_send_after_close`).

   Correspondence (Go ↔ Lean):
     `Run` of a collector, and what it starts with `go`   ↔ `Role`
     `select` with `out <- ev` and `<-ctx.Done()`        ↔ `Pc.sending`
     `select` with a ticker or a line and `<-ctx.Done()` ↔ `Pc.selecting`
     `wg.Wait`, `close(p.fanIn)`                         ↔ `Label.close`
     the fan-in loop                                     ↔ `Label.receive`

   What a poll finds comes with its tick. The goroutines of the auth collector send on
   a channel of their own, which is never closed; here they are its ticks. The event
   counter and the log are left out. -/
namespace YominsAgent.Events
open Go Lib

/-- What a goroutine runs: `Run` of a collector, or a function the system collector starts. -/
inductive Role where
  | system (monitorConfigFiles : Bool)
  | auth
  | process
  | network
  | runOOMWatcher
  | pollPasswd
  | pollFileState
  deriving DecidableEq

/-- Whether `Pipeline.Run` waits for it. -/
def Role.isCollector : Role → Bool
  | .system _ | .auth | .process | .network => true
  | .runOOMWatcher | .pollPasswd | .pollFileState => false

inductive Pc where
  | starting
  /-- in front of its loop, or in a turn of it, with events still to send -/
  | working (evs : List Event)
  | selecting
  | sending (ev : Event) (evs : List Event)
  | ended

structure Goroutine where
  role : Role
  pc : Pc := .starting

inductive GoLabel where
  | begin (evs : List Event)
  | fail
  | next
  | tick (evs : List Event)
  | eof
  | stop
  | send

/-- The goroutines started when the loop is reached. -/
def Role.starts : Role → List Role
  | .system monitorConfigFiles =>
    [.runOOMWatcher, .pollPasswd] ++ if monitorConfigFiles then [.pollFileState] else []
  | _ => []

/-- The events sent before the loop: at most the reboot. -/
def Role.mayBegin : Role → List Event → Bool
  | .system _, evs => evs.length ≤ 1
  | _, evs => evs.isEmpty

/-- `/proc/net/tcp` or `/dev/kmsg` cannot be read. -/
def Role.mayFail : Role → Bool
  | .network | .runOOMWatcher => true
  | _ => false

/-- What one turn of the loop may find. The system collector waits for the context only. -/
def Role.mayFind : Role → List Event → Bool
  | .system _, _ => false
  | .auth, evs | .runOOMWatcher, evs => evs.length ≤ 1
  | .process, _ | .network, _ | .pollPasswd, _ | .pollFileState, _ => true

inductive Effect where
  | none
  | start (roles : List Role)
  | send (ev : Event)

def advance (cancelled : Bool) (role : Role) : Pc → GoLabel → Option (Pc × Effect)
  | .starting, .begin evs => if role.mayBegin evs then some (.working evs, .none) else none
  | .starting, .fail => if role.mayFail then some (.ended, .none) else none
  | .working [], .next => some (.selecting, .start role.starts)
  | .working (ev :: evs), .next => some (.sending ev evs, .none)
  | .selecting, .tick evs => if role.mayFind evs then some (.working evs, .none) else none
  -- the kernel log has ended
  | .selecting, .eof => if role = .runOOMWatcher then some (.ended, .none) else none
  | .selecting, .stop => if cancelled then some (.ended, .none) else none
  | .sending _ _, .stop => if cancelled then some (.ended, .none) else none
  | .sending ev evs, .send => some (.working evs, .send ev)
  | _, _ => none

structure Pipeline where
  goroutines : List Goroutine
  buf : RingBuffer Event
  fanIn : List Event := []
  cancelled : Bool := false
  closed : Bool := false
  /-- a send on the closed channel was chosen -/
  panicked : Bool := false

inductive Label where
  | go (g : Nat) (a : GoLabel)
  | cancel
  | close
  | receive

/-- `Run` has started a goroutine for each collector. -/
def Pipeline.init (collectors : List { r : Role // r.isCollector = true })
    (buf : RingBuffer Event) : Pipeline :=
  { goroutines := collectors.map fun r => ⟨r.val, .starting⟩, buf }

def Goroutine.hasEnded (r : Goroutine) : Bool :=
  match r.pc with
  | .ended => true
  | _ => false

/-- `wg.Wait()` returns. -/
def Pipeline.collectorsDone (s : Pipeline) : Bool :=
  s.goroutines.all fun r => !r.role.isCollector || r.hasEnded

section
variable (depth : Nat)

def Pipeline.apply (s : Pipeline) : Effect → Option Pipeline
  | .none => some s
  | .start roles => some { s with goroutines := s.goroutines ++ roles.map fun r => ⟨r, .starting⟩ }
  | .send ev =>
    if s.closed then some { s with panicked := true }
    else if s.fanIn.length < depth then some { s with fanIn := s.fanIn ++ [ev] }
    else none

def Pipeline.step (s : Pipeline) : Label → Option Pipeline
  | .go g a =>
    match s.goroutines[g]? with
    | none => none
    | some r =>
      (advance s.cancelled r.role r.pc a).bind fun (pc, e) =>
        Pipeline.apply depth { s with goroutines := s.goroutines.set g ⟨r.role, pc⟩ } e
  | .cancel => some { s with cancelled := true }
  | .close => if !s.closed && s.collectorsDone then some { s with closed := true } else none
  | .receive =>
    match s.fanIn with
    | [] => none
    | ev :: fanIn => some { s with fanIn, buf := s.buf.push ev }

end

variable {depth : Nat} {s s' : Pipeline} {a : Label}

/-! ## While the channel is open, and once all have ended -/

theorem apply_closed {e : Effect} (h : s.apply depth e = some s') :
    s'.closed = s.closed ∧ (s.closed = false → s'.panicked = s.panicked) := by
  cases e with
  | none | start => cases h; exact ⟨rfl, fun _ => rfl⟩
  | send =>
    simp only [Pipeline.apply] at h
    split at h
    · next hc => cases h; exact ⟨rfl, fun ho => absurd (hc.symm.trans ho) nofun⟩
    · split at h
      · cases h; exact ⟨rfl, fun _ => rfl⟩
      · cases h

/-- Nothing has been sent on the closed channel. -/
def Quiet (s : Pipeline) : Prop := s.closed = false → s.panicked = false

theorem quiet_step (h : Quiet s) (hs : s.step depth a = some s') : Quiet s' := by
  intro hopen
  cases a with
  | go =>
    simp only [Pipeline.step] at hs
    split at hs
    · cases hs
    · obtain ⟨⟨pc, e⟩, -, he⟩ := Option.bind_eq_some_iff.mp hs
      obtain ⟨hclosed, hpanic⟩ := apply_closed he
      have ho : s.closed = false := hclosed.symm.trans hopen
      exact (hpanic ho).trans (h ho)
  | cancel =>
    cases hs
    exact h hopen
  | close =>
    obtain ⟨-, ⟨⟩⟩ := Option.ite_none_right_eq_some.mp hs
    cases hopen
  | receive =>
    simp only [Pipeline.step] at hs
    split at hs
    · cases hs
    · cases hs
      exact h hopen

/-- Every goroutine has ended, and none has sent on the closed channel. -/
structure Over (s : Pipeline) : Prop where
  ended : ∀ r ∈ s.goroutines, r.pc = .ended
  quiet : s.panicked = false

theorem Over.step (h : Over s) (hs : s.step depth a = some s') : Over s' := by
  cases a with
  | go =>
    simp only [Pipeline.step] at hs
    split at hs
    · cases hs
    · next r hr =>
      rw [h.ended r (List.mem_of_getElem? hr)] at hs
      cases hs
  | cancel =>
    cases hs
    exact ⟨h.ended, h.quiet⟩
  | close =>
    obtain ⟨-, ⟨⟩⟩ := Option.ite_none_right_eq_some.mp hs
    exact ⟨h.ended, h.quiet⟩
  | receive =>
    simp only [Pipeline.step] at hs
    split at hs
    · cases hs
    · cases hs
      exact ⟨h.ended, h.quiet⟩

/-! ## A goroutine that outlives its collector -/

/-- A send on the closed channel may follow. -/
def Panics (depth : Nat) (s : Pipeline) : Prop :=
  ∃ as s', run (Pipeline.step depth) s as = some s' ∧ s'.panicked = true

theorem Panics.of_step (hs : s.step depth a = some s') (h : Panics depth s') : Panics depth s := by
  obtain ⟨as, t, hrun, ht⟩ := h
  exact ⟨a :: as, t, run_cons.mpr ⟨s', hs, hrun⟩, ht⟩

variable {g : Nat} {role : Role} {ev : Event} {evs : List Event}

/-- A step of one goroutine that sends nothing and starts nothing. -/
theorem Panics.of_advance {pc pc' : Pc} {a : GoLabel}
    (hg : s.goroutines[g]? = some ⟨role, pc⟩) (hroles : role.starts = [])
    (ha : advance s.cancelled role pc a = some (pc', .none) ∨
      advance s.cancelled role pc a = some (pc', .start role.starts))
    (h : ∀ t : Pipeline, t.closed = s.closed → t.goroutines[g]? = some ⟨role, pc'⟩ → Panics depth t) :
    Panics depth s := by
  have hlt := (List.getElem?_eq_some_iff.mp hg).1
  have hs : s.step depth (.go g a) =
      some { s with goroutines := s.goroutines.set g ⟨role, pc'⟩ } := by
    rcases ha with ha | ha
    · simp [Pipeline.step, hg, ha, Pipeline.apply]
    · simp [Pipeline.step, hg, ha, Pipeline.apply, hroles]
  exact Panics.of_step hs (h _ rfl (List.getElem?_set_self hlt))

theorem panics_sending (hclosed : s.closed = true)
    (hg : s.goroutines[g]? = some ⟨role, .sending ev evs⟩) : Panics depth s := by
  have hsend : s.step depth (.go g .send) = some { s with
      goroutines := s.goroutines.set g ⟨role, .working evs⟩, panicked := true } := by
    simp [Pipeline.step, hg, advance, Pipeline.apply, hclosed]
  exact Panics.of_step hsend ⟨[], _, rfl, rfl⟩

theorem panics_working (hclosed : s.closed = true) (hroles : role.starts = [])
    (hg : s.goroutines[g]? = some ⟨role, .working (ev :: evs)⟩) : Panics depth s :=
  Panics.of_advance (a := .next) hg hroles (.inl rfl) fun _ ht hg' =>
    panics_sending (ht.trans hclosed) hg'

theorem panics_selecting (ev : Event) (hclosed : s.closed = true) (hroles : role.starts = [])
    (hfind : role.mayFind [ev] = true) (hg : s.goroutines[g]? = some ⟨role, .selecting⟩) :
    Panics depth s := by
  have hadv : advance s.cancelled role .selecting (.tick [ev]) = some (.working [ev], .none) :=
    if_pos hfind
  exact Panics.of_advance hg hroles (.inl hadv) fun _ ht hg' =>
    panics_working (ht.trans hclosed) hroles hg'

/-- A goroutine of the system collector that has not ended when the channel is closed may
still send. -/
theorem panics_of_live (ev : Event) (hclosed : s.closed = true) {r : Goroutine}
    (hg : s.goroutines[g]? = some r) (hsub : r.role.isCollector = false) (hlive : r.pc ≠ .ended) :
    Panics depth s := by
  obtain ⟨role, pc⟩ := r
  have hroles : role.starts = [] := by
    cases role <;> first | rfl | cases hsub
  have hfind : role.mayFind [ev] = true := by
    cases role <;> first | rfl | cases hsub
  have hbegin : role.mayBegin [] = true := by
    cases role <;> rfl
  have hidle : ∀ t : Pipeline, t.closed = s.closed →
      t.goroutines[g]? = some ⟨role, .working []⟩ → Panics depth t := by
    intro t ht hg'
    refine Panics.of_advance (a := .next) hg' hroles (.inr rfl) fun u hu hg'' => ?_
    exact panics_selecting ev (hu.trans (ht.trans hclosed)) hroles hfind hg''
  cases pc with
  | starting =>
    exact Panics.of_advance (a := .begin []) hg hroles (.inl (by simp [advance, hbegin])) hidle
  | working evs =>
    cases evs with
    | nil => exact hidle s rfl hg
    | cons => exact panics_working hclosed hroles hg
  | selecting => exact panics_selecting ev hclosed hroles hfind hg
  | sending => exact panics_sending hclosed hg
  | ended => exact absurd rfl hlive

theorem hasEnded_iff (r : Goroutine) : r.hasEnded = true ↔ r.pc = .ended := by
  cases h : r.pc <;> simp [Goroutine.hasEnded, h]

/-- For any collectors, any interleaving and any time of the cancellation: nothing is sent
on the closed channel before it is closed, and nothing is ever after exactly if, when it
is closed, every goroutine the collectors have started has ended. -/
theorem no_send_after_close (collectors : List { r : Role // r.isCollector = true })
    (buf : RingBuffer Event) (as : List Label)
    (h : run (Pipeline.step depth) (Pipeline.init collectors buf) as = some s)
    (hopen : s.closed = false) :
    s.panicked = false ∧ ∀ s', s.step depth .close = some s' →
      ((∀ bs t, run (Pipeline.step depth) s' bs = some t → t.panicked = false) ↔
        ∀ r ∈ s.goroutines, r.pc = .ended) := by
  have hquiet : Quiet s :=
    run_inv (fun _ _ _ hs hstep => quiet_step hs hstep) as _ s (fun _ => rfl) h
  refine ⟨hquiet hopen, fun s' hs => ?_⟩
  obtain ⟨hdone, ⟨⟩⟩ := Option.ite_none_right_eq_some.mp hs
  constructor
  · intro hsafe r hr
    -- otherwise it may still send
    by_contra hlive
    obtain ⟨g, hg⟩ := List.mem_iff_getElem?.mp hr
    have hsub : r.role.isCollector = false := by
      have hall := List.all_eq_true.mp (Bool.and_eq_true_iff.mp hdone).2 r hr
      cases hc : r.role.isCollector with
      | false => rfl
      | true =>
        rw [hc, Bool.not_true, Bool.false_or, hasEnded_iff] at hall
        exact absurd hall hlive
    have hpanics : Panics depth { s with closed := true } :=
      panics_of_live (userDeletedEvent ⟨⟨[], []⟩, ⟨[], []⟩⟩ [] 0 [] 0) rfl hg hsub hlive
    obtain ⟨bs, t, hrun, ht⟩ := hpanics
    rw [hsafe bs t hrun] at ht
    cases ht
  · intro hended bs t hrun
    have hover : Over { s with closed := true } := ⟨hended, hquiet hopen⟩
    exact (run_inv (I := Over) (fun _ _ _ hs hstep => hs.step hstep) bs _ t hover hrun).quiet

def systemOnly : List { r : Role // r.isCollector = true } := [⟨.system false, rfl⟩]

def userDeleted : Event := userDeletedEvent ⟨⟨[], []⟩, ⟨[], []⟩⟩ [] 0 "ops".toList 1000

def eventBuffer : RingBuffer Event where
  buf := [userDeleted]
  head := 0
  tail := 0
  size := 0
  cap := 1
  dropped := 0
  cap_pos := Nat.le_refl 1
  buf_length := rfl
  head_lt := Nat.zero_lt_one
  size_le := Nat.zero_le 1
  tail_eq := rfl

/-- The system collector, its goroutines, and a poll of `/etc/passwd` that has begun when
the context is cancelled and `Run` returns. -/
def pollInProgress : List Label :=
  [.go 0 (.begin []), .go 0 .next, .go 1 .fail, .go 2 (.begin []), .go 2 .next,
   .go 2 (.tick [userDeleted]), .cancel, .go 0 .stop]

/-- The poll finds a deleted user, and sends on the channel that has been closed. -/
theorem passwd_send_after_close : ∃ s t,
    run (Pipeline.step 256) (Pipeline.init systemOnly eventBuffer) pollInProgress = some s ∧
    s.closed = false ∧ s.panicked = false ∧
    run (Pipeline.step 256) s [.close, .go 2 .next, .go 2 .send] = some t ∧
    t.closed = true ∧ t.panicked = true :=
  ⟨_, _, rfl, rfl, rfl, rfl, rfl, rfl⟩

/-- When the poll ends before the channel is closed, nothing is sent on it afterwards. -/
theorem passwd_poll_ended : ∃ s s',
    run (Pipeline.step 256) (Pipeline.init systemOnly eventBuffer)
      (pollInProgress ++ [.go 2 .next, .go 2 .stop]) = some s ∧
    s.step 256 .close = some s' ∧
    ∀ bs t, run (Pipeline.step 256) s' bs = some t → t.panicked = false := by
  refine ⟨_, _, rfl, rfl, ?_⟩
  refine ((no_send_after_close systemOnly eventBuffer (pollInProgress ++ [.go 2 .next, .go 2 .stop])
    rfl rfl).2 _ rfl).mpr fun r hr => (hasEnded_iff r).mp (List.all_eq_true.mp rfl r hr)

end YominsAgent.Events
