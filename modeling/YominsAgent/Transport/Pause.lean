import YominsAgent.Lib.Run
import YominsAgent.Transport.Http

/- The three transports over one session: the metrics push (`HTTPTransport.Push`), the event flush
   (`EventHTTPTransport.flush`, batch after batch) and the log poster (`Poster.Post`), interleaved
   with each other and with the clock. Each looks at the pause once, at the start of its operation;
   the attempts of the operation follow without another look:

     Push   — `Paused`, then attempts until one is not retried
     flush  — `Paused`, then for every batch attempts until one is not retried
     Post   — `Paused`, then one attempt

   `PauseKept` says of a history that a rejection with pause end `u` is followed by no attempt
   before `u`, unless an attempt started after it was accepted. A rejection that falls into another
   transport's operation breaks it (`retry_ignores_pause`); a run in which every rejection is
   recorded while no other operation is in progress keeps it (`pause_kept_of_alone`). -/
namespace YominsAgent.Transport
open Lib List Bool

inductive Client where
  | metrics
  | events
  | logs
  deriving DecidableEq, Repr

/-- Where a client's operation stands. `left` counts the batches of a flush
behind the current one; it is 0 for the other clients. -/
inductive Phase where
  | idle
  /-- The pause was checked, or a batch ended: an attempt comes next. -/
  | ready (left : Nat)
  /-- `backoff` waits before the next attempt. -/
  | waiting (left : Nat)
  /-- Attempt number `n` has no answer yet. -/
  | inflight (left n : Nat)
  deriving DecidableEq, Repr

inductive Ev where
  | started (n : Nat) (at' : Int)
  | accepted (n : Nat)
  | rejected (n : Nat) (pauseEnd : Int)
  deriving DecidableEq, Repr

structure State where
  session : Session
  now : Int
  phase : Client → Phase
  /-- the number of the next attempt -/
  next : Nat
  hist : List Ev

inductive Label where
  | tick (d : Nat)
  /-- An operation begins; a flush drains `batches` batches. -/
  | check (c : Client) (batches : Nat)
  /-- `client.Do` is called. -/
  | start (c : Client)
  /-- The request cannot be built. -/
  | noRequest (c : Client)
  /-- The attempt comes back. -/
  | answer (c : Client) (a : Attempt)
  /-- The retry budget or the context ends. -/
  | giveUp (c : Client)
  deriving DecidableEq, Repr

def init (now : Int) : State := ⟨newSession, now, fun _ => .idle, 0, []⟩

def State.set (s : State) (c : Client) (p : Phase) : State :=
  { s with phase := fun c' => if c' = c then p else s.phase c' }

/-- The phase after the check of a client that is not paused. -/
def begin : Client → Nat → Phase
  | .events, 0 => .idle
  | .events, n + 1 => .ready n
  | _, _ => .ready 0

/-- The next batch of a flush, or the end of the operation. -/
def nextBatch : Nat → Phase
  | 0 => .idle
  | n + 1 => .ready n

/-- The session and the phase after an attempt ended so: `Push` and `flush`
leave on every permanent error but a flush's refused batch, and retry the
rest; `Post` leaves in every case. -/
def after (c : Client) (left : Nat) (s : Session) (now : Int) (a : Attempt) : Session × Phase :=
  match c with
  | .metrics =>
    match do' s now a with
    | (s', .done) => (s', .idle)
    | (s', .permanent _) => (s', .idle)
    | (s', .retry _) => (s', .waiting left)
  | .events =>
    match doPost s now a with
    | (s', .done) => (s', nextBatch left)
    | (s', .permanent (.badBatch _)) => (s', nextBatch left)
    | (s', .permanent _) => (s', .idle)
    | (s', .retry _) => (s', .waiting left)
  | .logs => ((post s now a).1, .idle)

/-- What the answer to attempt `n` adds to the history. -/
def events (s : Session) (now : Int) (n : Nat) : Attempt → List Ev
  | .answered resp =>
    if ok2xx resp.status then [.accepted n]
    else if refusesAgent resp.status then [.rejected n (now + s.pauseFor (rejection resp))]
    else []
  | _ => []

def step (s : State) : Label → Option State
  | .tick d => some { s with now := s.now + d }
  | .check c batches =>
    match s.phase c with
    | .idle => if s.session.paused s.now then some s else some (s.set c (begin c batches))
    | _ => none
  | .start c =>
    match s.phase c with
    | .ready left | .waiting left =>
      some { s.set c (.inflight left s.next) with
        next := s.next + 1, hist := s.hist ++ [.started s.next s.now] }
    | _ => none
  | .noRequest c =>
    match s.phase c with
    | .ready left | .waiting left => some (s.set c (after c left s.session s.now .noRequest).2)
    | _ => none
  | .answer c a =>
    match s.phase c with
    | .inflight left n =>
      some { s.set c (after c left s.session s.now a).2 with
        session := (after c left s.session s.now a).1
        hist := s.hist ++ events s.session s.now n a }
    | _ => none
  | .giveUp c =>
    match s.phase c with
    | .waiting _ => some (s.set c .idle)
    | _ => none

/-- Some attempt started in `h` was accepted in `h`. -/
def Cleared (h : List Ev) : Prop := ∃ n, (∃ t, Ev.started n t ∈ h) ∧ Ev.accepted n ∈ h

/-- After a rejection with pause end `u` no attempt starts before `u` unless an
attempt started after the rejection has been accepted. -/
def PauseKept (h : List Ev) : Prop :=
  ∀ h₁ n u h₂ m t h₃, h = h₁ ++ .rejected n u :: (h₂ ++ .started m t :: h₃) → t < u → Cleared h₂

/-- A 401/403 for `c`. -/
def rejects : Label → Option Client
  | .answer c (.answered resp) => if refusesAgent resp.status then some c else none
  | _ => none

def alone (s : State) (c : Client) : Bool :=
  [Client.metrics, .events, .logs].all fun c' => c' == c || s.phase c' == .idle

/-- A rejection is recorded only while no other operation is in progress. -/
def rejectsAlone (s : State) (a : Label) : Bool :=
  match rejects a with
  | some c => alone s c
  | none => true

/-! ## One attempt -/

variable {n : Nat}

theorem ok2xx_of_refusesAgent (h : refusesAgent n = true) : ok2xx n = false := by
  rcases refusesAgent_iff.mp h with rfl | rfl <;> rfl

theorem after_fst (c : Client) (left : Nat) (s : Session) (now : Int) (a : Attempt) :
    (after c left s now a).1 = settle s now a := by
  cases c with
  | metrics =>
    rw [← attempt_fst .status]
    simp only [after, do']
    split <;> simp [*]
  | events =>
    rw [← attempt_fst .badBatch]
    simp only [after, doPost]
    split <;> simp [*]
  | logs => exact post_fst s now a

variable {c : Client} {now : Int} {resp : Response}

theorem after_rejected {left : Nat} {s : Session} (h : refusesAgent resp.status = true) :
    (after c left s now (.answered resp)).2 = .idle := by
  have h2 := ok2xx_of_refusesAgent h
  cases c <;> simp [after, do', doPost, attempt, h, h2]

theorem settle_rejected {s : Session} (h : refusesAgent resp.status = true) :
    settle s now (.answered resp) = s.reject (rejection resp) now := by
  simp [settle, h, ok2xx_of_refusesAgent h]

/-- What an answer leaves in the history: nothing, an acceptance, or the
rejection the label stands for. -/
theorem events_cases (s : Session) (now : Int) (n : Nat) (c : Client) (a : Attempt) :
    events s now n a = [] ∨ events s now n a = [.accepted n] ∨
      ∃ resp, a = .answered resp ∧ refusesAgent resp.status = true ∧
        rejects (.answer c a) = some c ∧
        events s now n a = [.rejected n (now + s.pauseFor (rejection resp))] := by
  cases a with
  | noRequest => exact .inl rfl
  | network => exact .inl rfl
  | answered resp =>
    simp only [events]
    split
    · exact .inr (.inl rfl)
    · split
      · next h => exact .inr (.inr ⟨resp, rfl, h, by simp [rejects, h], rfl⟩)
      · exact .inl rfl

variable {s : State}

theorem alone_iff : alone s c = true ↔ ∀ c', c' ≠ c → s.phase c' = .idle := by
  simp only [alone, List.all_cons, List.all_nil, Bool.and_true, Bool.and_eq_true, Bool.or_eq_true,
    beq_iff_eq]
  constructor
  · rintro ⟨hm, he, hl⟩ c' hc
    cases c' with
    | metrics => exact hm.resolve_left hc
    | events => exact he.resolve_left hc
    | logs => exact hl.resolve_left hc
  · intro h
    exact ⟨Classical.or_iff_not_imp_left.mpr (h _), Classical.or_iff_not_imp_left.mpr (h _),
      Classical.or_iff_not_imp_left.mpr (h _)⟩

/-! ## Histories -/

variable {h : List Ev}

theorem Cleared.append (hc : Cleared h) (e : List Ev) : Cleared (h ++ e) := by
  obtain ⟨n, ⟨t, hs⟩, ha⟩ := hc
  exact ⟨n, ⟨t, mem_append_left _ hs⟩, mem_append_left _ ha⟩

variable {h₂ : List Ev} {e : Ev}

/-- A split of a history that grew by one record: at the new record, or before
it. -/
theorem snoc_split {h₁ : List Ev} {r : Ev} (hs : h ++ [e] = h₁ ++ r :: h₂) :
    (h₂ = [] ∧ e = r ∧ h = h₁) ∨ ∃ h2', h₂ = h2' ++ [e] ∧ h = h₁ ++ r :: h2' := by
  rcases eq_nil_or_concat h₂ with rfl | ⟨h2', e', rfl⟩
  · obtain ⟨h1, h2⟩ := append_inj' hs rfl
    cases h2
    exact .inl ⟨rfl, rfl, h1⟩
  · rw [concat_eq_append, ← cons_append, ← append_assoc] at hs
    obtain ⟨h1, h2⟩ := append_inj' hs rfl
    cases h2
    exact .inr ⟨h2', by simp, h1⟩

theorem PauseKept.snoc (hk : PauseKept h)
    (he : ∀ h₁ n u h₂ m t, h = h₁ ++ .rejected n u :: h₂ → e = .started m t → t < u → Cleared h₂) :
    PauseKept (h ++ [e]) := by
  intro h₁ n u h₂ m t h₃ hs ht
  rw [← cons_append, ← append_assoc] at hs
  rcases snoc_split hs with ⟨rfl, rfl, rfl⟩ | ⟨h3', rfl, hs'⟩
  · exact he h₁ n u h₂ m t rfl rfl ht
  · exact hk h₁ n u h₂ m t h3' (by rw [hs']; simp) ht

/-! ## The invariant -/

/-- What stands behind a rejection with pause end `u` once `h₂` has followed it:
the pause was lifted by a later attempt, or is over, or holds with every client
idle. -/
def Held (s : State) (u : Int) (h₂ : List Ev) : Prop :=
  Cleared h₂ ∨ u ≤ s.now ∨ ((∃ v, s.session.until = some v ∧ u ≤ v) ∧ ∀ c, s.phase c = .idle)

structure Inv (s : State) : Prop where
  kept : PauseKept s.hist
  held : ∀ h₁ n u h₂, s.hist = h₁ ++ .rejected n u :: h₂ → Held s u h₂

variable {u : Int}

theorem Held.of_busy (h : Held s u h₂) (hc : s.phase c ≠ .idle) : Cleared h₂ ∨ u ≤ s.now := by
  rcases h with h | h | ⟨_, h⟩
  · exact .inl h
  · exact .inr h
  · exact absurd (h c) hc

/-- A step of a busy client that leaves the clock and the history alone. -/
theorem Inv.set_of_busy (hI : Inv s) (hc : s.phase c ≠ .idle) (p : Phase) : Inv (s.set c p) := by
  refine ⟨hI.kept, ?_⟩
  intro h₁ n u h₂ hs
  rcases (hI.held h₁ n u h₂ hs).of_busy hc with h | h
  · exact .inl h
  · exact .inr (.inl h)

variable {s' : State}

/-- The records of a busy client: a start keeps the pause because none is in
force, and what comes back lifts none. -/
theorem Inv.record (hI : Inv s) (hc : s.phase c ≠ .idle) (hn : s'.now = s.now)
    (hh : s'.hist = s.hist ++ [e]) (hst : ∀ m t, e = .started m t → t = s.now)
    (hrej : ∀ n u, e = .rejected n u → Held s' u []) : Inv s' := by
  refine ⟨?_, ?_⟩
  · rw [hh]
    refine hI.kept.snoc ?_
    intro h₁ n u h₂ m t hs he ht
    rcases (hI.held h₁ n u h₂ hs).of_busy hc with h | h
    · exact h
    · rw [hst m t he] at ht; omega
  · intro h₁ n u h₂ hs
    rw [hh] at hs
    rcases snoc_split hs with ⟨rfl, he, rfl⟩ | ⟨h2', rfl, hs'⟩
    · exact hrej n u he
    · rcases (hI.held h₁ n u h2' hs').of_busy hc with h | h
      · exact .inl (h.append _)
      · exact .inr (.inl (by rw [hn]; exact h))

theorem inv_init (now : Int) : Inv (init now) := by
  refine ⟨?_, ?_⟩
  · intro h₁ n u h₂ m t h₃ hs
    simp [init] at hs
  · intro h₁ n u h₂ hs
    simp [init] at hs

theorem inv_answer {a : Attempt} {left : Nat} (hI : Inv s) (hp : s.phase c = .inflight left n)
    (hg : rejectsAlone s (.answer c a) = true) :
    Inv { s.set c (after c left s.session s.now a).2 with
      session := (after c left s.session s.now a).1
      hist := s.hist ++ events s.session s.now n a } := by
  have hc : s.phase c ≠ .idle := by rw [hp]; simp
  rcases events_cases s.session s.now n c a with he | he | ⟨resp, rfl, hr, hl, he⟩
  · have h := hI.set_of_busy hc (after c left s.session s.now a).2
    refine ⟨?_, ?_⟩
    · rw [he, append_nil]; exact h.kept
    · intro h₁ m u h₂ hs
      rw [he, append_nil] at hs
      rcases (hI.held h₁ m u h₂ hs).of_busy hc with h | h
      · exact .inl h
      · exact .inr (.inl h)
  · exact hI.record hc rfl (by rw [he]) (by simp) (by simp)
  · refine hI.record hc rfl (by rw [he]) (by simp) ?_
    intro m u hmu
    cases hmu
    -- the pause begins: nobody else is in an operation, and this one ends
    refine .inr (.inr ⟨⟨_, ?_, Int.le_refl _⟩, ?_⟩)
    · simp only [after_fst, settle_rejected hr]
      rfl
    · have ha : alone s c = true := by simpa [rejectsAlone, hl] using hg
      intro c'
      simp only [State.set]
      split
      · exact after_rejected hr
      · next hne => exact alone_iff.mp ha c' hne

theorem inv_step (s : State) (a : Label) (s' : State) (hI : Inv s)
    (h : guarded rejectsAlone step s a = some s') : Inv s' := by
  obtain ⟨hg, h⟩ := guarded_eq_some.mp h
  cases a with
  | tick =>
    cases h
    refine ⟨hI.kept, ?_⟩
    intro h₁ n u h₂ hs
    rcases hI.held h₁ n u h₂ hs with h | h | h
    · exact .inl h
    · exact .inr (.inl (by simp only; omega))
    · exact .inr (.inr h)
  | check =>
    simp only [step] at h
    split at h
    · split at h
      · cases h; exact hI
      · next hp =>
        cases h
        refine ⟨hI.kept, ?_⟩
        intro h₁ n u h₂ hs
        rcases hI.held h₁ n u h₂ hs with h | h | ⟨⟨v, hv, huv⟩, _⟩
        · exact .inl h
        · exact .inr (.inl h)
        · -- the check let the operation through, so the pause is over
          simp only [Session.paused, hv, decide_eq_true_eq] at hp
          exact .inr (.inl (by simp only [State.set]; omega))
    · cases h
  | start c =>
    simp only [step] at h
    split at h
    iterate 2
      · next hp =>
        cases h
        exact hI.record (c := c) (by rw [hp]; simp) rfl rfl (by simp) (by simp)
    · cases h
  | noRequest =>
    simp only [step] at h
    split at h
    iterate 2 · next hp => cases h; exact hI.set_of_busy (by rw [hp]; simp) _
    · cases h
  | answer =>
    simp only [step] at h
    split at h
    · next hp => cases h; exact inv_answer hI hp hg
    · cases h
  | giveUp =>
    simp only [step] at h
    split at h
    · next hp => cases h; exact hI.set_of_busy (by rw [hp]; simp) _
    · cases h

/-! ## Results -/

/-- In every run in which a 401/403 is recorded only while no other transport
has an operation in progress, the pause is kept. -/
theorem pause_kept_of_alone (now : Int) (as : List Label) (s : State)
    (h : run (guarded rejectsAlone step) (init now) as = some s) : PauseKept s.hist :=
  (run_inv inv_step as (init now) s (inv_init now) h).kept

/-- A poster is rejected for five seconds; the metrics push waits them out. -/
theorem pause_kept_after_five_seconds :
    PauseKept [.started 0 0, .rejected 0 5000000000, .started 1 5000000000] := by
  obtain ⟨s, hs, hh⟩ : ∃ s, run (guarded rejectsAlone step) (init 0)
      [.check .logs 0, .start .logs, .answer .logs (.answered ⟨403, [], "5".toList, [], []⟩),
        .check .metrics 0, .tick 5000000000, .check .metrics 0, .start .metrics] = some s ∧
      s.hist = [.started 0 0, .rejected 0 5000000000, .started 1 5000000000] := ⟨_, rfl, rfl⟩
  rw [← hh]
  exact pause_kept_of_alone 0 _ s hs

/-- The retry loops do not look at the pause: a push that is between two
attempts when the log poster is rejected goes on inside the pause. -/
theorem retry_ignores_pause :
    ¬ ∀ (now : Int) (as : List Label) (s : State), run step (init now) as = some s →
      PauseKept s.hist := by
  intro h
  have hk := h 0
    [.check .metrics 0, .start .metrics, .check .logs 0, .start .logs,
      .answer .metrics (.answered ⟨503, [], [], [], []⟩),
      .answer .logs (.answered ⟨403, [], [], [], []⟩), .start .metrics] _ rfl
  obtain ⟨_, ⟨_, hs⟩, _⟩ := hk [.started 0 0, .started 1 0] 1 60000000000 [] 2 0 [] rfl (by decide)
  cases hs

end YominsAgent.Transport
