import Mathlib.Algebra.BigOperators.Group.Finset.Basic
import Mathlib.Data.Finmap

/- Go's maps: a finite map, and the order in which one `range` loop meets its keys,
   which the language leaves open. -/
namespace YominsAgent.Go

open List Option

abbrev Map (κ ν : Type) := Finmap fun _ : κ => ν

variable {κ ν : Type}

/-- `len`. -/
def Map.len (m : Map κ ν) : Nat := m.keys.card

/-- The order in which a `range` loop goes through a map: each key once. -/
structure Range (κ ν : Type) where
  order : Map κ ν → List κ
  nodup : ∀ m, (order m).Nodup
  mem_order : ∀ m k, k ∈ order m ↔ k ∈ m

noncomputable def someRange : Range κ ν where
  order m := m.keys.toList
  nodup m := m.keys.nodup_toList
  mem_order m k := by rw [Finset.mem_toList, Finmap.mem_keys]

/-- A loop that inserts an element for each key of a list without repetitions. -/
theorem lookup_foldl_insert [DecidableEq κ] {α : Type} (key : α → κ) (val : α → ν) (l : List α)
    (h : (l.map key).Nodup) (m : Map κ ν) (k : κ) :
    (l.foldl (fun m a => m.insert (key a) (val a)) m).lookup k =
      ((l.find? fun a => key a = k).map val).or (m.lookup k) := by
  induction l generalizing m with
  | nil => simp
  | cons a l ih =>
    rw [map_cons, nodup_cons] at h
    rw [foldl_cons, ih h.2]
    by_cases hk : key a = k
    · subst hk
      have hnone : l.find? (fun b => key b = key a) = none := by
        rw [find?_eq_none]
        intro b hb hkey
        exact h.1 (mem_map.mpr ⟨b, hb, of_decide_eq_true hkey⟩)
      simp [hnone]
    · simp [hk, Finmap.lookup_insert_of_ne _ (Ne.symm hk)]

section Counters
variable [DecidableEq κ]

/-- `m[k]++` -/
def Map.inc (m : Map κ Nat) (k : κ) : Map κ Nat := m.insert k ((m.lookup k).getD 0 + 1)

def Map.total (m : Map κ Nat) : Nat := ∑ k ∈ m.keys, (m.lookup k).getD 0

theorem Map.keys_insert (m : Map κ ν) (k : κ) (v : ν) : (m.insert k v).keys = insert k m.keys := by
  ext j
  simp [Finmap.mem_keys]

theorem Map.total_inc (m : Map κ Nat) (k : κ) : (m.inc k).total = m.total + 1 := by
  have hrest : ∑ j ∈ m.keys.erase k, ((m.inc k).lookup j).getD 0 =
      ∑ j ∈ m.keys.erase k, (m.lookup j).getD 0 := by
    refine Finset.sum_congr rfl fun j hj => ?_
    rw [Map.inc, Finmap.lookup_insert_of_ne _ (Finset.ne_of_mem_erase hj)]
  have hself : ((m.inc k).lookup k).getD 0 = (m.lookup k).getD 0 + 1 := by
    rw [Map.inc, Finmap.lookup_insert]
    rfl
  have hkeys : (m.inc k).keys = insert k (m.keys.erase k) := by
    ext j
    by_cases hj : j = k <;> simp [Map.inc, Map.keys_insert, hj]
  have hsplit : m.total = (m.lookup k).getD 0 + ∑ j ∈ m.keys.erase k, (m.lookup j).getD 0 := by
    by_cases hk : k ∈ m.keys
    · exact (Finset.add_sum_erase _ _ hk).symm
    · rw [Map.total, Finset.erase_eq_of_notMem hk,
        Finmap.lookup_eq_none.mpr (mt Finmap.mem_keys.mpr hk)]
      simp
  rw [Map.total, hkeys, Finset.sum_insert (Finset.notMem_erase k _), hself, hrest, hsplit]
  omega

end Counters

section Collect
variable {ι : Type} [DecidableEq κ] {f : ι → Option (κ × ν)} {n : κ}

/-- A loop that sets at most one element of a map at each of its steps. -/
def collect (f : ι → Option (κ × ν)) (l : List ι) : Map κ ν :=
  l.foldl (fun m i => match f i with
    | some (k, v) => m.insert k v
    | none => m) ∅

theorem collect_concat (l : List ι) (i : ι) :
    collect f (l ++ [i]) = match f i with
      | some (k, v) => (collect f l).insert k v
      | none => collect f l := by
  simp only [collect, foldl_append, foldl_cons, foldl_nil]

/-- What stands in the map at the end was set in some step. -/
theorem exists_of_lookup_collect {l : List ι} {v : ν} (h : (collect f l).lookup n = some v) :
    ∃ i ∈ l, f i = some (n, v) := by
  induction l using reverseRecOn with
  | nil => cases h
  | append_singleton l i ih =>
    have hearlier : (collect f l).lookup n = some v → ∃ j ∈ l ++ [i], f j = some (n, v) := by
      intro h
      obtain ⟨j, hj, hf⟩ := ih h
      exact ⟨j, mem_append_left _ hj, hf⟩
    rw [collect_concat] at h
    cases hi : f i with
    | none =>
      rw [hi] at h
      exact hearlier h
    | some kv =>
      obtain ⟨k, w⟩ := kv
      rw [hi] at h
      by_cases hk : n = k
      · subst hk
        rw [Finmap.lookup_insert] at h
        cases h
        exact ⟨i, by simp, hi⟩
      · rw [Finmap.lookup_insert_of_ne _ hk] at h
        exact hearlier h

theorem isSome_lookup_collect {l : List ι} {i : ι} {v : ν} (hi : i ∈ l) (hf : f i = some (n, v)) :
    ((collect f l).lookup n).isSome = true := by
  induction l using reverseRecOn with
  | nil => cases hi
  | append_singleton l j ih =>
    rw [collect_concat]
    rcases mem_append.mp hi with hi | hi
    · cases f j with
      | none => exact ih hi
      | some kv =>
        obtain ⟨k, w⟩ := kv
        by_cases hk : n = k
        · subst hk
          simp
        · simp only [Finmap.lookup_insert_of_ne _ hk]
          exact ih hi
    · obtain rfl := mem_singleton.mp hi
      simp [hf]

/-- Where each step sets the element of its own key, the map has at a key what its step
sets. -/
theorem lookup_collect_self {f : κ → Option ν} {l : List κ} {k : κ} (hk : k ∈ l) :
    (collect (fun k => (f k).map (k, ·)) l).lookup k = f k := by
  cases hf : f k with
  | none =>
    cases hl : (collect (fun k => (f k).map (k, ·)) l).lookup k with
    | none => rfl
    | some =>
      obtain ⟨j, -, hj⟩ := exists_of_lookup_collect hl
      obtain ⟨w, hw, he⟩ := map_eq_some_iff.mp hj
      cases he
      rw [hf] at hw
      cases hw
  | some v =>
    have hset : (f k).map (k, ·) = some (k, v) := by rw [hf]; rfl
    obtain ⟨w, hw⟩ := isSome_iff_exists.mp
      (isSome_lookup_collect (f := fun k => (f k).map (k, ·)) hk hset)
    obtain ⟨j, -, hj⟩ := exists_of_lookup_collect hw
    obtain ⟨x, hx, he⟩ := map_eq_some_iff.mp hj
    cases he
    rw [hw, ← hx, hf]

theorem lookup_collect_order {β : Type} (r : Range κ β) (m : Map κ β) {f : κ → Option ν}
    (hf : ∀ k, k ∉ m → f k = none) (k : κ) :
    (collect (fun k => (f k).map (k, ·)) (r.order m)).lookup k = f k := by
  by_cases hk : k ∈ m
  · exact lookup_collect_self ((r.mem_order m k).mpr hk)
  · rw [hf k hk]
    cases hl : (collect (fun k => (f k).map (k, ·)) (r.order m)).lookup k with
    | none => rfl
    | some =>
      obtain ⟨j, hj, hset⟩ := exists_of_lookup_collect hl
      obtain ⟨w, -, he⟩ := map_eq_some_iff.mp hset
      cases he
      exact absurd ((r.mem_order m k).mp hj) hk

end Collect

namespace Range
variable [DecidableEq κ]

/-- Some order of the keys, with one of them last. -/
noncomputable def endingWith (k : κ) : Range κ ν where
  order m := if k ∈ m then m.keys.toList.erase k ++ [k] else m.keys.toList
  nodup m := by
    split
    · rw [List.nodup_append]
      refine ⟨m.keys.nodup_toList.erase k, List.nodup_singleton k, ?_⟩
      intro a ha b hb hab
      rw [List.mem_singleton.mp hb] at hab
      exact (List.Nodup.mem_erase_iff m.keys.nodup_toList).mp ha |>.1 hab
    · exact m.keys.nodup_toList
  mem_order m j := by
    split
    · next hk =>
      rw [List.mem_append, List.Nodup.mem_erase_iff m.keys.nodup_toList, List.mem_singleton,
        Finset.mem_toList, Finmap.mem_keys]
      constructor
      · rintro (⟨-, hj⟩ | rfl)
        · exact hj
        · exact hk
      · intro hj
        by_cases hjk : j = k
        · exact Or.inr hjk
        · exact Or.inl ⟨hjk, hj⟩
    · rw [Finset.mem_toList, Finmap.mem_keys]

theorem order_endingWith {k : κ} {m : Map κ ν} (h : k ∈ m) :
    ∃ l, (endingWith k : Range κ ν).order m = l ++ [k] := ⟨_, if_pos h⟩

theorem count_order (r : Range κ ν) (m : Map κ ν) (k : κ) :
    (r.order m).count k = if k ∈ m then 1 else 0 := by
  by_cases h : k ∈ m
  · rw [if_pos h, count_eq_one_of_mem (r.nodup m) ((r.mem_order m k).mpr h)]
  · rw [if_neg h, count_eq_zero_of_not_mem fun hk => h ((r.mem_order m k).mp hk)]

/-- A loop that does something at one key at most does it there once. -/
theorem countP_filterMap {β : Type} (r : Range κ ν) (m : Map κ ν) (f : κ → Option β)
    (P : β → Bool) (k : κ) (hf : ∀ j ∈ m, (f j).any P = true → j = k) :
    ((r.order m).filterMap f).countP P = if k ∈ m ∧ (f k).any P = true then 1 else 0 := by
  have hany : ∀ o : Option β, (o.map P).getD false = o.any P := by
    intro o
    cases o <;> rfl
  simp only [List.countP_filterMap, hany]
  have hpred : (r.order m).countP (fun j => (f j).any P) =
      (r.order m).countP fun j => j == k && (f k).any P := by
    refine List.countP_congr fun j hj => ?_
    rw [Bool.and_eq_true, beq_iff_eq]
    constructor
    · intro h
      have hjk := hf j ((r.mem_order m j).mp hj) h
      exact ⟨hjk, hjk ▸ h⟩
    · rintro ⟨rfl, h⟩
      exact h
  rw [hpred]
  cases hk : (f k).any P with
  | true =>
    simp only [Bool.and_true, and_true]
    exact r.count_order m k
  | false => simp

end Range

end YominsAgent.Go
