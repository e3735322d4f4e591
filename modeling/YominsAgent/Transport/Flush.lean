import YominsAgent.Events.RingBuffer
import YominsAgent.Lib.Run
import YominsAgent.Transport.Http

/- `EventHTTPTransport.flush` (`events.go`) beside the pipeline that pushes into the same buffer. A
   flush drains the buffer, posts the drained events batch by batch, and on a failure pushes what is
   left back, one event at a time; the pipeline may push between any two of these steps. Every event
   carries the number of its arrival.

   The buffer gives up its oldest slot (`Events.RingBuffer`), which is the event that arrived first
   only as long as the buffer is in arrival order. Events put back behind newer ones end that
   (`putBack_loses_newer`). In a run in which no event arrives between a failing flush's drain and
   the end of its put-back every lost event is the earliest (`loses_oldest_of_quiet`). -/
namespace YominsAgent.Transport
open Lib Events List

structure Arrival (ε : Type) where
  seq : Nat
  event : ε
  deriving DecidableEq, Repr

instance {ε : Type} [Inhabited ε] : Inhabited (Arrival ε) := ⟨⟨0, default⟩⟩

variable {ε : Type} {l rest : List (Arrival ε)} {x e : Arrival ε} {i : Nat}
  {buf : RingBuffer (Arrival ε)}

/-- Where `flush` stands. -/
inductive FlushPhase (ε : Type) where
  | idle
  /-- `postBatch` runs for the batch that starts at `i` of the drained events. -/
  | posting (all : List (Arrival ε)) (i : Nat)
  /-- The events of a failed flush that are still to be pushed back. -/
  | putBack (rest : List (Arrival ε))

structure FlushState (ε : Type) where
  buf : RingBuffer (Arrival ε)
  phase : FlushPhase ε
  arrived : Nat

inductive FlushLabel (ε : Type) where
  /-- The pipeline's fan-in loop pushes a new event. -/
  | push (e : ε)
  /-- The ticker fires; `paused` is what `Session.Paused` says then. -/
  | flush (paused : Bool)
  /-- `postBatch` returns. -/
  | posted (err : Option Failure)
  /-- One round of the put-back loop. -/
  | reenqueue

/-- Whether the batch was refused for good: it is dropped, the rest is sent. -/
def isBadBatch : Failure → Bool
  | .badBatch _ => true
  | _ => false

/-- The next batch of the drained events, or the end of the flush. -/
def nextBatchOf (size : Nat) (all : List (Arrival ε)) (i : Nat) : FlushPhase ε :=
  if i + size < all.length then .posting all (i + size) else .idle

/-- The put-back loop with `rest` still to go. -/
def putBackOf : List (Arrival ε) → FlushPhase ε
  | [] => .idle
  | rest => .putBack rest

variable [Inhabited ε]

/-- One step with batches of `size` events. -/
def flushStep (size : Nat) (s : FlushState ε) : FlushLabel ε → Option (FlushState ε)
  | .push e => some { s with buf := s.buf.push ⟨s.arrived, e⟩, arrived := s.arrived + 1 }
  | .flush paused =>
    match s.phase with
    | .idle =>
      if paused then some s
      else match s.buf.drain with
        | ([], buf) => some { s with buf := buf }
        | (all, buf) => some { s with buf := buf, phase := .posting all 0 }
    | _ => none
  | .posted err =>
    match s.phase with
    | .posting all i =>
      match err with
      | none => some { s with phase := nextBatchOf size all i }
      | some e =>
        if isBadBatch e then some { s with phase := nextBatchOf size all i }
        else some { s with phase := putBackOf (all.drop i) }
    | _ => none
  | .reenqueue =>
    match s.phase with
    | .putBack (e :: rest) => some { s with buf := s.buf.push e, phase := putBackOf rest }
    | _ => none

def loses (s : FlushState ε) : FlushLabel ε → Option (Arrival ε)
  | .push _ => evicted s.buf.cap s.buf.contents
  | .reenqueue =>
    match s.phase with
    | .putBack _ => evicted s.buf.cap s.buf.contents
    | _ => none
  | _ => none

/-- The events being put back. -/
def FlushPhase.returning : FlushPhase ε → List (Arrival ε)
  | .putBack rest => rest
  | _ => []

/-- The events the buffer holds and those being put back, in the order in which
the buffer has them or will have them. -/
def FlushState.held (s : FlushState ε) : List (Arrival ε) := s.buf.contents ++ s.phase.returning

/-- What the step loses arrived before everything else that is held. -/
def LosesOldest (s : FlushState ε) (a : FlushLabel ε) : Prop :=
  ∀ e, loses s a = some e → ∀ x ∈ s.held, e.seq ≤ x.seq

/-- No event has arrived since the drain when a flush fails, and none arrives
while its events are put back. -/
def quiet (s : FlushState ε) : FlushLabel ε → Bool
  | .push _ =>
    match s.phase with
    | .putBack _ => false
    | _ => true
  | .posted (some e) => isBadBatch e || s.buf.size == 0
  | _ => true

def flushInit (buf : RingBuffer (Arrival ε)) : FlushState ε := ⟨buf, .idle, 0⟩

/-! ## Arrival order -/

def InOrder (l : List (Arrival ε)) : Prop := l.Pairwise fun x y => x.seq < y.seq

omit [Inhabited ε] in
theorem InOrder.snoc (hl : InOrder l) (hx : ∀ y ∈ l, y.seq < x.seq) : InOrder (l ++ [x]) := by
  refine pairwise_append.mpr ⟨hl, pairwise_singleton _ _, ?_⟩
  intro y hy z hz
  rw [mem_singleton.mp hz]
  exact hx y hy

omit [Inhabited ε] in
theorem InOrder.pushBounded (cap : Nat) (hl : InOrder l) (hx : ∀ y ∈ l, y.seq < x.seq) :
    InOrder (Lib.pushBounded cap l x) :=
  (hl.snoc hx).sublist (pushBounded_suffix cap l x).sublist

omit [Inhabited ε] in
/-- In a buffer in arrival order the next push gives up the earliest event. -/
theorem InOrder.evicted {cap : Nat} (hl : InOrder l) (he : Lib.evicted cap l = some e) :
    ∀ x ∈ l, e.seq ≤ x.seq := by
  unfold Lib.evicted at he
  split at he
  · cases l with
    | nil => cases he
    | cons =>
      cases he
      intro x hx
      rcases mem_cons.mp hx with rfl | hx
      · exact Nat.le_refl _
      · exact Nat.le_of_lt (rel_of_pairwise_cons hl hx)
  · cases he

omit [Inhabited ε] in
@[simp] theorem returning_putBackOf (rest : List (Arrival ε)) :
    (putBackOf rest).returning = rest := by
  cases rest <;> rfl

/-! ## Quiet runs keep the arrival order -/

/-- The events of a flush whose batches are being posted. -/
def FlushPhase.drained : FlushPhase ε → List (Arrival ε)
  | .posting all _ => all
  | _ => []

/-- There is a batch to post, or an event to put back. -/
def FlushPhase.Live : FlushPhase ε → Prop
  | .idle => True
  | .posting all i => i < all.length
  | .putBack rest => rest ≠ []

structure Ordered (s : FlushState ε) : Prop where
  held : InOrder s.held
  drained : InOrder s.phase.drained
  newer : ∀ x ∈ s.phase.drained, ∀ y ∈ s.buf.contents, x.seq < y.seq
  fits : s.phase.drained.length ≤ s.buf.cap
  room : s.phase.returning ≠ [] → s.held.length ≤ s.buf.cap
  seen : ∀ x, x ∈ s.held ∨ x ∈ s.phase.drained → x.seq < s.arrived
  live : s.phase.Live

variable {s : FlushState ε}

theorem held_eq_contents (h : s.phase.returning = []) : s.held = s.buf.contents := by
  rw [FlushState.held, h, append_nil]

omit [Inhabited ε] in
theorem nextBatchOf_cases (size : Nat) (all : List (Arrival ε)) (i : Nat) :
    (nextBatchOf size all i = .posting all (i + size) ∧ i + size < all.length) ∨
      nextBatchOf size all i = .idle := by
  unfold nextBatchOf
  split
  · next h => exact .inl ⟨rfl, h⟩
  · exact .inr rfl

omit [Inhabited ε] in
@[simp] theorem drained_putBackOf (rest : List (Arrival ε)) : (putBackOf rest).drained = [] := by
  cases rest <;> rfl

omit [Inhabited ε] in
theorem live_putBackOf (rest : List (Arrival ε)) : (putBackOf rest).Live := by
  cases rest with
  | nil => trivial
  | cons e rest => exact cons_ne_nil e rest

section
variable (hI : Ordered s)
include hI

/-- With nothing drained and nothing going back, only the buffer matters. -/
theorem Ordered.idle (hr : s.phase.returning = []) : Ordered { s with phase := .idle } := by
  have hs := held_eq_contents hr
  have hheld : FlushState.held { s with phase := .idle } = s.held := by
    rw [hs, held_eq_contents rfl]
  refine ⟨by rw [hheld]; exact hI.held, List.Pairwise.nil, (fun _ hx => nomatch hx),
    Nat.zero_le _, fun h => absurd rfl h, ?_, trivial⟩
  rintro x (hx | hx)
  · exact hI.seen x (.inl (hheld ▸ hx))
  · cases hx

/-- A batch that is settled: the flush goes on with the same events, or ends. -/
theorem Ordered.nextBatch {all : List (Arrival ε)} (hp : s.phase = .posting all i) (size : Nat) :
    Ordered { s with phase := nextBatchOf size all i } := by
  rcases nextBatchOf_cases size all i with ⟨hn, hlt⟩ | hn <;> rw [hn]
  · obtain ⟨buf, phase, arrived⟩ := s
    simp only at hp
    subst hp
    exact ⟨hI.held, hI.drained, hI.newer, hI.fits, hI.room, hI.seen, hlt⟩
  · exact hI.idle (by rw [hp]; rfl)

/-- A flush that fails while the buffer is empty puts its events back in their
order, with room for all. -/
theorem Ordered.fail {all : List (Arrival ε)} (hp : s.phase = .posting all i)
    (hempty : s.buf.size = 0) : Ordered { s with phase := putBackOf (all.drop i) } := by
  have hc : s.buf.contents = [] := eq_nil_of_length_eq_zero (by simp [hempty])
  have hheld : FlushState.held { s with phase := putBackOf (all.drop i) } = all.drop i := by
    simp [FlushState.held, hc]
  have hall : s.phase.drained = all := by rw [hp]; rfl
  have hord := hI.drained
  have hfits := hI.fits
  rw [hall] at hord hfits
  refine ⟨?_, ?_, ?_, ?_, ?_, ?_, live_putBackOf _⟩
  · rw [hheld]
    exact hord.sublist (drop_sublist i all)
  · simp only [drained_putBackOf]
    exact List.Pairwise.nil
  · simp
  · simp
  · intro _
    rw [hheld]
    exact Nat.le_trans (drop_sublist i all).length_le hfits
  · intro x hx
    simp only [hheld, drained_putBackOf, not_mem_nil, or_false] at hx
    exact hI.seen x (.inr (by rw [hall]; exact mem_of_mem_drop hx))

theorem Ordered.push (hr : s.phase.returning = []) (e : ε) :
    Ordered { s with buf := s.buf.push ⟨s.arrived, e⟩, arrived := s.arrived + 1 } := by
  have hs := held_eq_contents hr
  have hheld : FlushState.held
      { s with buf := s.buf.push ⟨s.arrived, e⟩, arrived := s.arrived + 1 } =
      pushBounded s.buf.cap s.buf.contents ⟨s.arrived, e⟩ := by
    simp only [FlushState.held, hr, RingBuffer.contents_push, append_nil]
  have hmem : ∀ x ∈ pushBounded s.buf.cap s.buf.contents ⟨s.arrived, e⟩,
      x ∈ s.buf.contents ∨ x = ⟨s.arrived, e⟩ := by
    intro x hx
    simpa using (pushBounded_suffix _ _ _).sublist.subset hx
  refine ⟨?_, hI.drained, ?_, by simpa using hI.fits, fun h => absurd hr h, ?_, hI.live⟩
  · rw [hheld]
    exact (hs ▸ hI.held).pushBounded _ fun y hy => hI.seen y (.inl (hs ▸ hy))
  · intro x hx y hy
    rw [RingBuffer.contents_push] at hy
    rcases hmem y hy with hy | rfl
    · exact hI.newer x hx y hy
    · exact hI.seen x (.inr hx)
  · rintro x (hx | hx)
    · rw [hheld] at hx
      rcases hmem x hx with hx | rfl
      · exact Nat.lt_succ_of_lt (hI.seen x (.inl (hs ▸ hx)))
      · exact Nat.lt_succ_self _
    · exact Nat.lt_succ_of_lt (hI.seen x (.inr hx))

/-- The buffer is drained: it is left empty, and its events are in their order. -/
theorem Ordered.drain (hr : s.phase.returning = []) (ph : FlushPhase ε)
    (hph : ph.drained = s.buf.contents) (hpr : ph.returning = []) (hl : ph.Live) :
    Ordered { s with buf := s.buf.drain.2, phase := ph } := by
  have hs := held_eq_contents hr
  have hheld : FlushState.held { s with buf := s.buf.drain.2, phase := ph } = [] := by
    simp only [FlushState.held, RingBuffer.drain_contents, hpr, append_nil]
  refine ⟨by rw [hheld]; exact List.Pairwise.nil, ?_, ?_, ?_, fun h => absurd hpr h, ?_, hl⟩
  · rw [hph, ← hs]
    exact hI.held
  · intro x _ y hy
    rw [RingBuffer.drain_contents] at hy
    cases hy
  · simp only [hph, RingBuffer.contents_length, RingBuffer.drain_cap]
    exact s.buf.size_le
  · rintro x (hx | hx)
    · rw [hheld] at hx
      cases hx
    · rw [hph, ← hs] at hx
      exact hI.seen x (.inl hx)

/-- One event put back into a buffer that has room for it. -/
theorem Ordered.reenqueue (hp : s.phase = .putBack (e :: rest)) :
    Ordered { s with buf := s.buf.push e, phase := putBackOf rest } := by
  have hold : s.held = s.buf.contents ++ e :: rest := by rw [FlushState.held, hp]; rfl
  have hlen := hI.room (by rw [hp]; exact cons_ne_nil _ _)
  rw [hold, length_append, length_cons] at hlen
  have hheld : FlushState.held { s with buf := s.buf.push e, phase := putBackOf rest } =
      s.held := by
    simp only [FlushState.held, RingBuffer.contents_push, returning_putBackOf]
    rw [pushBounded_of_lt (by omega), append_assoc]
    exact hold.symm
  refine ⟨by rw [hheld]; exact hI.held, ?_, by simp, by simp, ?_, ?_, live_putBackOf _⟩
  · simp only [drained_putBackOf]
    exact List.Pairwise.nil
  · intro _
    rw [hheld, hold, length_append, length_cons]
    simpa using hlen
  · intro x hx
    simp only [hheld, drained_putBackOf, not_mem_nil, or_false] at hx
    exact hI.seen x (.inl hx)

end

omit [Inhabited ε] in
theorem returning_of_quiet_push {e : ε} (hq : quiet s (.push e) = true) :
    s.phase.returning = [] := by
  cases hp : s.phase with
  | idle => rfl
  | posting => rfl
  | putBack => simp [quiet, hp] at hq

theorem ordered_step (size : Nat) (s : FlushState ε) (a : FlushLabel ε) (s' : FlushState ε)
    (hI : Ordered s) (h : guarded quiet (flushStep size) s a = some s') : Ordered s' := by
  obtain ⟨hq, h⟩ := guarded_eq_some.mp h
  cases a with
  | push e =>
    cases h
    exact hI.push (returning_of_quiet_push hq) e
  | flush =>
    simp only [flushStep] at h
    split at h
    · next hp =>
      have hr : s.phase.returning = [] := by rw [hp]; rfl
      have hfst := s.buf.drain_fst
      split at h
      · cases h; exact hI
      · split at h
        · next buf hd =>
          cases h
          rw [hd] at hfst
          have := hI.drain hr .idle hfst rfl trivial
          rwa [hd, ← hp] at this
        · next all buf hne hd =>
          cases h
          rw [hd] at hfst
          have hpos : 0 < all.length := length_pos_iff.mpr hne
          have := hI.drain hr (.posting all 0) hfst rfl hpos
          rwa [hd] at this
    · cases h
  | posted err =>
    simp only [flushStep] at h
    split at h
    · next all i hp =>
      cases err with
      | none => cases h; exact hI.nextBatch hp size
      | some =>
        simp only at h
        split at h
        · cases h; exact hI.nextBatch hp size
        · next hb =>
          cases h
          refine hI.fail hp ?_
          simpa [quiet, hb] using hq
    · cases h
  | reenqueue =>
    simp only [flushStep] at h
    split at h
    · next e rest hp => cases h; exact hI.reenqueue hp
    · cases h

theorem ordered_init (h : buf.contents = []) : Ordered (flushInit buf) := by
  have hheld : (flushInit buf).held = [] := by
    rw [held_eq_contents rfl]; exact h
  refine ⟨by rw [hheld]; exact List.Pairwise.nil, List.Pairwise.nil, (fun _ hx => nomatch hx),
    Nat.zero_le _, fun h => absurd rfl h, ?_, trivial⟩
  intro x hx
  rw [hheld] at hx
  rcases hx with hx | hx <;> cases hx

variable {a : FlushLabel ε}

/-- With its events in order and room for those put back, a state loses only
the earliest. -/
theorem Ordered.losesOldest (hI : Ordered s) (hq : quiet s a = true) : LosesOldest s a := by
  intro e he
  cases a with
  | push =>
    have hs := held_eq_contents (returning_of_quiet_push hq)
    rw [hs]
    exact (hs ▸ hI.held).evicted he
  | flush => cases he
  | posted => cases he
  | reenqueue =>
    simp only [loses] at he
    split at he
    · next rest hp =>
      have hne : rest ≠ [] := by simpa [hp, FlushPhase.Live] using hI.live
      have hlen := hI.room (by rw [hp]; exact hne)
      rw [FlushState.held, hp, FlushPhase.returning, length_append] at hlen
      have hpos := length_pos_iff.mpr hne
      rw [Lib.evicted, if_neg (by omega)] at he
      cases he
    · cases he

/-- In a run in which no event arrives between a failing flush's drain and the
end of its put-back, whatever a step loses is the earliest of the events held or
being put back. -/
theorem loses_oldest_of_quiet (size : Nat) {buf : RingBuffer (Arrival ε)}
    (hbuf : buf.contents = []) {as : List (FlushLabel ε)} {s : FlushState ε}
    (hrun : run (guarded quiet (flushStep size)) (flushInit buf) as = some s)
    {a : FlushLabel ε} (ha : quiet s a = true) : LosesOldest s a :=
  (run_inv (ordered_step size) as _ s (ordered_init hbuf) hrun).losesOldest ha

def putBackTwo : List (FlushLabel Unit) :=
  [.push (), .push (), .flush false, .posted (some (.status 503)), .reenqueue, .reenqueue]

/-- A buffer of two: a flush fails and its two events are put back, then a third
arrives and the first is given up. -/
theorem loses_oldest_after_failed_flush :
    ∃ (buf : RingBuffer (Arrival Unit)) (s : FlushState Unit), newRingBuffer 2 = some buf ∧
      run (guarded quiet (flushStep 200)) (flushInit buf) putBackTwo = some s ∧
      loses s (.push ()) = some ⟨0, ()⟩ ∧ LosesOldest s (.push ()) := by
  have hrun : run (guarded quiet (flushStep 200)) (flushInit ((newRingBuffer 2).get rfl)) putBackTwo =
      some _ := rfl
  exact ⟨_, _, rfl, hrun, rfl, loses_oldest_of_quiet 200 rfl hrun rfl⟩

/-- A buffer of two: the first two events are drained, two more arrive while
they are posted, the post fails with a 503. Putting the first event back gives
up the third, and the second, which is older, is still to be kept. -/
theorem putBack_loses_newer :
    ∃ (buf : RingBuffer (Arrival Unit)) (s s' : FlushState Unit), newRingBuffer 2 = some buf ∧
      run (flushStep 200) (flushInit buf)
        [.push (), .push (), .flush false, .push (), .push (),
          .posted (some (.status 503))] = some s ∧
      flushStep 200 s .reenqueue = some s' ∧ loses s .reenqueue = some ⟨2, ()⟩ ∧
      ¬ LosesOldest s .reenqueue := by
  refine ⟨_, _, _, rfl, rfl, rfl, rfl, fun hold => ?_⟩
  -- the second event is held, and older than the third
  have hle := hold ⟨2, ()⟩ rfl ⟨1, ()⟩ (.tail _ (.tail _ (.tail _ (.head _))))
  exact absurd hle (by decide)

end YominsAgent.Transport
