import Mathlib.Data.List.Induction
import Mathlib.Data.List.Nodup

/- Grouping by key in the order in which the keys first occur. The groups are an association list
   that keeps its insertion order; `upsert` changes the entry of a key, or adds one at the end. A
   group is made from the first element of its key (`mk`) and takes every element of its key in turn
   (`add`), so it is determined by the elements of that key alone (`lookup_group`). -/
namespace YominsAgent.Lib

open List

variable {κ γ α : Type} [DecidableEq κ]

/-- The entry of `k` is changed by `f`; when there is none, `new` is added. -/
def upsert (k : κ) (new : γ) (f : γ → γ) : List (κ × γ) → List (κ × γ)
  | [] => [(k, new)]
  | (k', g) :: gs => if k' = k then (k', f g) :: gs else (k', g) :: upsert k new f gs

theorem lookup_upsert (k : κ) (new : γ) (f : γ → γ) (j : κ) (gs : List (κ × γ)) :
    (upsert k new f gs).lookup j =
      if j = k then some (((gs.lookup k).map f).getD new) else gs.lookup j := by
  induction gs with
  | nil =>
    by_cases h : j = k
    · simp [upsert, h]
    · simp [upsert, lookup_cons, h, beq_eq_false_iff_ne.mpr h]
  | cons p gs ih =>
    obtain ⟨k', g⟩ := p
    by_cases hk : k' = k
    · subst hk
      by_cases hj : j = k'
      · simp [upsert, hj]
      · simp [upsert, lookup_cons, hj, beq_eq_false_iff_ne.mpr hj]
    · by_cases hj : j = k'
      · subst hj
        simp [upsert, hk]
      · simp only [upsert, if_neg hk, lookup_cons, beq_eq_false_iff_ne.mpr hj, ih,
          beq_eq_false_iff_ne.mpr (Ne.symm hk)]

theorem map_fst_upsert (k : κ) (new : γ) (f : γ → γ) (gs : List (κ × γ)) :
    (upsert k new f gs).map Prod.fst =
      if k ∈ gs.map Prod.fst then gs.map Prod.fst else gs.map Prod.fst ++ [k] := by
  induction gs with
  | nil => simp [upsert]
  | cons p gs ih =>
    obtain ⟨k', g⟩ := p
    by_cases hk : k' = k
    · simp [upsert, hk]
    · simp only [upsert, if_neg hk, map_cons, ih, mem_cons, Ne.symm hk, false_or]
      split <;> rfl

theorem nodup_upsert {k : κ} {new : γ} {f : γ → γ} {gs : List (κ × γ)}
    (h : (gs.map Prod.fst).Nodup) : ((upsert k new f gs).map Prod.fst).Nodup := by
  rw [map_fst_upsert]
  split
  · exact h
  · next hk => exact nodup_append.mpr ⟨h, nodup_singleton k, by
      intro a ha b hb hab
      rw [mem_singleton.mp hb] at hab
      exact hk (hab ▸ ha)⟩

theorem lookup_eq_some_of_mem {k : κ} {g : γ} {gs : List (κ × γ)}
    (h : (gs.map Prod.fst).Nodup) (hm : (k, g) ∈ gs) : gs.lookup k = some g := by
  induction gs with
  | nil => cases hm
  | cons p gs ih =>
    obtain ⟨k', g'⟩ := p
    simp only [map_cons, nodup_cons] at h
    rcases mem_cons.mp hm with he | hm
    · cases he
      simp
    · have hne : k ≠ k' := fun he => h.1 (he ▸ mem_map_of_mem hm)
      rw [lookup_cons, beq_eq_false_iff_ne.mpr hne]
      exact ih h.2 hm

variable (key : α → κ) (mk : α → γ) (add : γ → α → γ)

/-- The elements of `l` grouped by `key`. -/
def group (l : List α) : List (κ × γ) :=
  l.foldl (fun gs a => upsert (key a) (add (mk a) a) (add · a) gs) []

/-- The group of a key that has the elements `l`. -/
def groupOf : List α → Option γ
  | [] => none
  | a :: l => some ((a :: l).foldl add (mk a))

theorem groupOf_snoc (l : List α) (a : α) :
    groupOf mk add (l ++ [a]) = some (((groupOf mk add l).map (add · a)).getD (add (mk a) a)) := by
  cases l with
  | nil => rfl
  | cons => simp [groupOf]

theorem nodup_group (l : List α) : ((group key mk add l).map Prod.fst).Nodup := by
  induction l using reverseRecOn with
  | nil => exact nodup_nil
  | append_singleton l a ih =>
    rw [group, foldl_append]
    exact nodup_upsert ih

theorem lookup_group (l : List α) (k : κ) :
    (group key mk add l).lookup k = groupOf mk add (l.filter fun a => key a = k) := by
  induction l using reverseRecOn with
  | nil => rfl
  | append_singleton l a ih =>
    rw [group, foldl_append, ← group]
    simp only [foldl_cons, foldl_nil, lookup_upsert, filter_append]
    by_cases hk : k = key a
    · subst hk
      have := groupOf_snoc mk add (l.filter fun b => key b = key a) a
      simp only [if_true, decide_true, filter_cons, filter_nil, this, ← ih]
    · simp only [if_neg hk, filter_cons, decide_eq_false (Ne.symm hk)]
      simpa using ih

theorem mem_group {l : List α} {k : κ} {g : γ} :
    (k, g) ∈ group key mk add l ↔ groupOf mk add (l.filter fun a => key a = k) = some g := by
  rw [← lookup_group]
  constructor
  · exact lookup_eq_some_of_mem (nodup_group key mk add l)
  · intro h
    obtain ⟨l1, l2, heq, -⟩ := lookup_eq_some_iff.mp h
    rw [heq]
    simp

end YominsAgent.Lib
