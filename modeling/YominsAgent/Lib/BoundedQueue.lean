import Mathlib.Data.List.DropRight

/- The bounded queue: a list, oldest first, that never holds more than `cap`
   elements; a push into a full queue gives up the oldest. This is what a
   circular buffer is for, and what one is compared with. -/
namespace YominsAgent.Lib

open List

variable {α : Type}

/-- `x` joins the queue at its end; a full queue gives up its oldest element. -/
def pushBounded (cap : Nat) (q : List α) (x : α) : List α :=
  if q.length = cap then q.tail ++ [x] else q ++ [x]

/-- What the next push gives up. -/
def evicted (cap : Nat) (q : List α) : Option α :=
  if q.length = cap then q.head? else none

theorem pushBounded_of_lt {cap : Nat} {q : List α} {x : α} (h : q.length < cap) :
    pushBounded cap q x = q ++ [x] := by
  rw [pushBounded, if_neg (by omega)]

/-- A push leaves a queue that continues a suffix of what it was. -/
theorem pushBounded_suffix (cap : Nat) (q : List α) (x : α) :
    pushBounded cap q x <:+ q ++ [x] := by
  unfold pushBounded
  split
  · exact suffix_append_self_iff.mpr (tail_suffix q)
  · exact suffix_refl _

/-- What is given up and what is kept is all there was, and the new element. -/
theorem evicted_append_pushBounded {cap : Nat} (hc : 1 ≤ cap) (q : List α) (x : α) :
    (evicted cap q).toList ++ pushBounded cap q x = q ++ [x] := by
  unfold evicted pushBounded
  split
  · next h =>
    cases q with
    | nil => simp only [length_nil] at h; omega
    | cons => simp
  · simp

theorem length_evicted {cap : Nat} (hc : 1 ≤ cap) (q : List α) :
    (evicted cap q).toList.length = if q.length = cap then 1 else 0 := by
  unfold evicted
  split
  · next h =>
    cases q with
    | nil => simp only [length_nil] at h; omega
    | cons => rfl
  · rfl

theorem pushBounded_rtake {cap : Nat} (hc : 1 ≤ cap) (l : List α) (x : α) :
    pushBounded cap (l.rtake cap) x = (l ++ [x]).rtake cap := by
  obtain ⟨n, rfl⟩ : ∃ n, cap = n + 1 := ⟨cap - 1, by omega⟩
  rw [rtake_concat_succ]
  unfold pushBounded
  split
  · next h =>
    have hlen : n + 1 ≤ l.length := by
      rw [rtake, length_drop] at h
      omega
    rw [rtake, rtake, tail_drop, show l.length - (n + 1) + 1 = l.length - n by omega]
  · next h =>
    have hlen : l.length ≤ n := by
      rw [rtake, length_drop] at h
      omega
    rw [rtake, rtake, Nat.sub_eq_zero_of_le hlen, Nat.sub_eq_zero_of_le (Nat.le_succ_of_le hlen)]

theorem length_rtake (n : Nat) (l : List α) : (l.rtake n).length = min n l.length := by
  rw [rtake, length_drop]
  omega

end YominsAgent.Lib
