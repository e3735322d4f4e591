import Mathlib.Algebra.GroupWithZero.Nat
import Mathlib.Data.List.GetD
import Mathlib.Data.List.Rotate
import YominsAgent.Lib.BoundedQueue

/- The event buffer (`internal/events/buffer.go`): a circular array of fixed capacity with the index
   of the oldest element, the index of the next write and the number of elements held. The fields
   that state the layout make a buffer with indices out of range impossible to build.

   `contents` is what `Drain` would return. `contents_push` and `drain_contents` are the refinement:
   seen through `contents` the buffer is the bounded queue of `Lib.BoundedQueue`. Over a whole run
   that queue is the end of what was pushed since the last `Drain` (`ringBuffer_refines`).

   Correspondence (Go ↔ Lean):
     `NewRingBuffer` (panics below 1) ↔ `newRingBuffer` (`none`)
     `RingBuffer.Len`, `Dropped`      ↔ the fields `size`, `dropped`
   The mutex makes each call one step; the zero `Event` is `default`. -/
namespace YominsAgent.Events
open Lib List

/-- A bounded FIFO that drops the oldest event when full. -/
structure RingBuffer (ε : Type) where
  buf : List ε
  /-- index of the oldest element -/
  head : Nat
  /-- index of the next write position -/
  tail : Nat
  /-- number of elements currently stored -/
  size : Nat
  /-- maximum capacity -/
  cap : Nat
  /-- total events dropped due to overflow -/
  dropped : UInt64
  cap_pos : 1 ≤ cap
  buf_length : buf.length = cap
  head_lt : head < cap
  size_le : size ≤ cap
  tail_eq : tail = (head + size) % cap

variable {ε : Type} [Inhabited ε]

/-- An empty buffer; `none` where the code panics. -/
def newRingBuffer (capacity : Int) : Option (RingBuffer ε) :=
  if h : capacity < 1 then none
  else some
    { buf := List.replicate capacity.toNat default
      head := 0
      tail := 0
      size := 0
      cap := capacity.toNat
      dropped := 0
      cap_pos := by omega
      buf_length := List.length_replicate
      head_lt := by omega
      size_le := Nat.zero_le _
      tail_eq := (Nat.zero_mod _).symm }

namespace RingBuffer

omit [Inhabited ε] in
theorem tail_lt (r : RingBuffer ε) : r.tail < r.cap := by
  rw [r.tail_eq]
  exact Nat.mod_lt _ r.cap_pos

/-- Adds an event. If the buffer is full the oldest event is overwritten and
counted. -/
def push (r : RingBuffer ε) (e : ε) : RingBuffer ε :=
  if h : r.size = r.cap then
    { r with
      buf := r.buf.set r.tail e
      head := (r.head + 1) % r.cap
      tail := (r.tail + 1) % r.cap
      dropped := r.dropped + 1
      buf_length := by rw [List.length_set, r.buf_length]
      head_lt := Nat.mod_lt _ r.cap_pos
      tail_eq := by
        rw [r.tail_eq, h, Nat.mod_add_mod, Nat.mod_add_mod]
        congr 1
        omega }
  else
    { r with
      buf := r.buf.set r.tail e
      tail := (r.tail + 1) % r.cap
      size := r.size + 1
      buf_length := by rw [List.length_set, r.buf_length]
      size_le := by have := r.size_le; omega
      tail_eq := by rw [r.tail_eq, Nat.mod_add_mod, Nat.add_assoc] }

/-- The buffered events in FIFO order. -/
def contents (r : RingBuffer ε) : List ε :=
  (List.range r.size).map fun i => r.buf.getD ((r.head + i) % r.cap) default

/-- Returns all buffered events in FIFO order and resets the buffer to empty
(the backing array keeps its stale elements). -/
def drain (r : RingBuffer ε) : List ε × RingBuffer ε :=
  if r.size = 0 then ([], r)
  else (r.contents,
    { r with
      head := 0
      tail := 0
      size := 0
      head_lt := r.cap_pos
      size_le := Nat.zero_le _
      tail_eq := (Nat.zero_mod _).symm })

@[simp] theorem contents_length (r : RingBuffer ε) : r.contents.length = r.size := by
  simp [contents]

omit [Inhabited ε] in
@[simp] theorem push_cap (r : RingBuffer ε) (e : ε) : (r.push e).cap = r.cap := by
  unfold push; split <;> rfl

omit [Inhabited ε] in
theorem push_size (r : RingBuffer ε) (e : ε) :
    (r.push e).size = if r.size = r.cap then r.size else r.size + 1 := by
  unfold push
  split <;> rfl

@[simp] theorem drain_cap (r : RingBuffer ε) : r.drain.2.cap = r.cap := by
  unfold drain; split <;> rfl

/-- Two offsets less than one revolution apart denote different slots. -/
theorem slot_ne {head cap i j : Nat} (hij : i < j) (hj : j < i + cap) :
    (head + i) % cap ≠ (head + j) % cap := by
  intro h
  have hd : ((head + j) - (head + i)) % cap = 0 := Nat.sub_mod_eq_zero_of_mod_eq h.symm
  have := Nat.le_of_dvd (by omega) (Nat.dvd_of_mod_eq_zero hd)
  omega

section
variable (r : RingBuffer ε)
include r

/-- Writing at `tail` leaves the slots of the other live offsets alone. -/
theorem getD_set_tail (e : ε) {i : Nat} (hi : i < r.size) (hs : r.size < i + r.cap) :
    (r.buf.set r.tail e).getD ((r.head + i) % r.cap) default =
      r.buf.getD ((r.head + i) % r.cap) default := by
  have hne : r.tail ≠ (r.head + i) % r.cap := by
    rw [r.tail_eq]
    exact (slot_ne hi hs).symm
  rw [getD_eq_getElem?_getD, getElem?_set_ne hne, ← getD_eq_getElem?_getD]

theorem getD_set_size (e : ε) :
    (r.buf.set r.tail e).getD ((r.head + r.size) % r.cap) default = e := by
  have ht : r.tail < r.buf.length := by rw [r.buf_length]; exact r.tail_lt
  rw [← r.tail_eq, getD_eq_getElem?_getD, getElem?_set_self ht]
  rfl

/-- Seen through `contents`, `push` is the bounded queue's push. -/
theorem contents_push (e : ε) :
    (r.push e).contents = pushBounded r.cap r.contents e := by
  unfold push pushBounded
  rw [contents_length]
  split
  · next h =>
    have hpos := r.cap_pos
    -- the write lands on the oldest element's slot, one revolution ahead
    have hshift : ∀ i, ((r.head + 1) % r.cap + i) % r.cap = (r.head + (i + 1)) % r.cap := by
      intro i
      rw [Nat.mod_add_mod]
      congr 1
      omega
    obtain ⟨n, hn⟩ : ∃ n, r.size = n + 1 := ⟨r.size - 1, by omega⟩
    have hold : r.contents.tail =
        (range n).map fun i => r.buf.getD ((r.head + (i + 1)) % r.cap) default := by
      rw [contents, hn, range_succ_eq_map, map_cons, map_map]
      rfl
    rw [hold]
    simp only [contents, hshift, hn]
    rw [range_succ, map_append, map_singleton, ← hn, getD_set_size]
    congr 1
    apply map_congr_left
    intro i hi
    have hi := mem_range.mp hi
    exact getD_set_tail r e (by omega) (by omega)
  · next h =>
    have hlt : r.size < r.cap := by have := r.size_le; omega
    simp only [contents]
    rw [range_succ, map_append, map_singleton, getD_set_size]
    congr 1
    apply map_congr_left
    intro i hi
    exact getD_set_tail r e (mem_range.mp hi) (by omega)

theorem drain_fst : r.drain.1 = r.contents := by
  unfold drain
  split
  · next h => simp [contents, h]
  · rfl

theorem drain_contents : r.drain.2.contents = [] := by
  unfold drain
  split
  · next h => simp [contents, h]
  · simp [contents]

/-- As long as nothing was overwritten the elements are in front, and afterwards they are
everywhere: read from the beginning of the array, it is what is buffered, in some order. -/
theorem take_size_perm (h : r.size < r.cap → r.head = 0) :
    (r.buf.take r.size).Perm r.contents := by
  by_cases hfull : r.size < r.cap
  · apply List.Perm.of_eq
    apply ext_getElem
    · simp [r.buf_length, r.size_le]
    · intro i hi _
      have hi : i < r.size := by simp at hi; omega
      have hb : i < r.buf.length := by rw [r.buf_length]; omega
      simp [contents, h hfull, Nat.mod_eq_of_lt (Nat.lt_trans hi hfull), hb]
  · have hsize : r.size = r.buf.length := by have := r.size_le; rw [r.buf_length]; omega
    have hrotate : r.contents = r.buf.rotate r.head := by
      apply ext_getElem
      · simp [hsize]
      · intro i hi _
        have hlt : (r.head + i) % r.cap < r.buf.length := by
          rw [r.buf_length]
          exact Nat.mod_lt _ r.cap_pos
        simp only [contents, getElem_map, getElem_range, getElem_rotate, getD_eq_getElem _ _ hlt]
        congr 1
        rw [r.buf_length, Nat.add_comm]
    rw [hsize, take_length, hrotate]
    exact (rotate_perm r.buf r.head).symm

end

end RingBuffer

theorem newRingBuffer_contents {capacity : Int} {r : RingBuffer ε}
    (h : newRingBuffer capacity = some r) : r.contents = [] ∧ r.cap = capacity.toNat := by
  unfold newRingBuffer at h
  split at h
  · cases h
  · cases h
    simp [RingBuffer.contents]

/-! ## Runs -/

inductive BufferOp (ε : Type) where
  | push (e : ε)
  | drain

def RingBuffer.apply (r : RingBuffer ε) : BufferOp ε → RingBuffer ε
  | .push e => r.push e
  | .drain => r.drain.2

/-- The buffer after a sequence of calls. -/
def RingBuffer.after (r : RingBuffer ε) (ops : List (BufferOp ε)) : RingBuffer ε :=
  ops.foldl RingBuffer.apply r

/-- The events pushed before each `Drain`, and those pushed since the last one. -/
structure Batches (ε : Type) where
  drained : List (List ε) := []
  recent : List ε := []

def Batches.apply (b : Batches ε) : BufferOp ε → Batches ε
  | .push e => { b with recent := b.recent ++ [e] }
  | .drain => { drained := b.drained ++ [b.recent] }

def batches (ops : List (BufferOp ε)) : Batches ε := ops.foldl Batches.apply {}

/-- The number of events that found no room: of each batch those in front of the last `cap`. -/
def Batches.overwritten (cap : Nat) (b : Batches ε) : Nat :=
  ((b.drained ++ [b.recent]).map fun batch => batch.length - cap).sum

/-- What the calls made so far say of the buffer. -/
structure RingBuffer.Holds (r : RingBuffer ε) (capacity : Nat) (b : Batches ε) : Prop where
  cap_eq : r.cap = capacity
  contents_eq : r.contents = b.recent.rtake capacity
  dropped_eq : r.dropped = UInt64.ofNat (b.overwritten capacity)

omit [Inhabited ε] in
theorem Batches.overwritten_eq (cap : Nat) (b : Batches ε) : b.overwritten cap =
      (b.drained.map fun batch => batch.length - cap).sum + (b.recent.length - cap) := by
  simp [overwritten]

namespace RingBuffer.Holds

variable {r : RingBuffer ε} {capacity : Nat} {b : Batches ε}

section
variable (h : r.Holds capacity b)
include h

theorem size_eq : r.size = min capacity b.recent.length := by
  rw [← contents_length, h.contents_eq, length_rtake]

theorem push (e : ε) :
    (r.push e).Holds capacity (b.apply (.push e)) := by
  have hc : 1 ≤ capacity := h.cap_eq ▸ r.cap_pos
  refine ⟨(push_cap r e).trans h.cap_eq, ?_, ?_⟩
  · rw [contents_push, h.cap_eq, h.contents_eq]
    exact pushBounded_rtake hc b.recent e
  · have hsize := h.size_eq
    have hcap := h.cap_eq
    have hdropped := h.dropped_eq
    rw [Batches.overwritten_eq] at hdropped ⊢
    simp only [Batches.apply, length_append, length_singleton]
    unfold RingBuffer.push
    split
    · next hfull =>
      rw [hdropped, show b.recent.length + 1 - capacity = b.recent.length - capacity + 1 by omega]
      exact (UInt64.ofNat_add _ 1).symm
    · next hroom =>
      rw [hdropped, show b.recent.length + 1 - capacity = b.recent.length - capacity by omega]

theorem drain : r.drain.2.Holds capacity (b.apply .drain) := by
  refine ⟨(drain_cap r).trans h.cap_eq, ?_, ?_⟩
  · rw [drain_contents]
    exact (rtake_nil _).symm
  · have hdropped : r.drain.2.dropped = r.dropped := by
      unfold RingBuffer.drain
      split <;> rfl
    rw [hdropped, h.dropped_eq, Batches.overwritten_eq, Batches.overwritten_eq]
    simp [Batches.apply]

theorem apply (op : BufferOp ε) :
    (r.apply op).Holds capacity (b.apply op) := by
  cases op with
  | push e => exact h.push e
  | drain => exact h.drain

theorem after (ops : List (BufferOp ε)) :
    (r.after ops).Holds capacity (ops.foldl Batches.apply b) := by
  induction ops generalizing r b with
  | nil => exact h
  | cons op ops ih => exact ih (h.apply op)

end

end RingBuffer.Holds

/-- A buffer of any capacity of at least one, after any calls: `Drain` returns the last
events pushed since the one before, as many as fit, `Len` is their number, `Dropped` counts
the others, and the indices are in range. -/
theorem ringBuffer_refines (capacity : Int) (hcapacity : 1 ≤ capacity) :
    ∃ r₀ : RingBuffer ε, newRingBuffer capacity = some r₀ ∧
      ∀ (ops : List (BufferOp ε)) (r : RingBuffer ε), r₀.after ops = r →
        r.drain.1 = (batches ops).recent.rtake capacity.toNat ∧
        r.size = min capacity.toNat (batches ops).recent.length ∧
        r.dropped.toNat = (batches ops).overwritten capacity.toNat % 2 ^ 64 ∧
        r.cap = capacity.toNat ∧ r.head < r.cap ∧ r.tail < r.cap ∧ r.size ≤ r.cap ∧
        r.tail = (r.head + r.size) % r.cap := by
  obtain ⟨r₀, hnew⟩ : ∃ r₀ : RingBuffer ε, newRingBuffer capacity = some r₀ :=
    ⟨_, dif_neg (by omega)⟩
  obtain ⟨hcontents, hcap⟩ := newRingBuffer_contents hnew
  have hstart : r₀.Holds capacity.toNat {} := by
    refine ⟨hcap, hcontents.trans (rtake_nil _).symm, ?_⟩
    unfold newRingBuffer at hnew
    split at hnew
    · cases hnew
    · cases hnew
      simp [Batches.overwritten]
  refine ⟨r₀, hnew, ?_⟩
  rintro ops r rfl
  have h := hstart.after ops
  refine ⟨?_, h.size_eq, ?_, h.cap_eq, (r₀.after ops).head_lt, (r₀.after ops).tail_lt,
    (r₀.after ops).size_le, (r₀.after ops).tail_eq⟩
  · rw [RingBuffer.drain_fst]
    exact h.contents_eq
  · rw [h.dropped_eq]
    exact UInt64.toNat_ofNat

/-- Three events through a buffer of two, a `Drain`, and one more event. -/
theorem two_slots_refine :
    ∃ r₀ : RingBuffer Nat, newRingBuffer 2 = some r₀ ∧
      (r₀.after [.push 1, .push 2, .push 3]).drain.1 = [2, 3] ∧
      (r₀.after [.push 1, .push 2, .push 3, .drain, .push 4]).dropped.toNat = 1 := by
  obtain ⟨r₀, hnew, h⟩ := ringBuffer_refines (ε := Nat) 2 (by decide)
  refine ⟨r₀, hnew, ?_, ?_⟩
  · exact (h [.push 1, .push 2, .push 3] _ rfl).1
  · exact (h [.push 1, .push 2, .push 3, .drain, .push 4] _ rfl).2.2.1

end YominsAgent.Events
