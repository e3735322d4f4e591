import YominsAgent.Lib.Rewriting
import YominsAgent.Lib.Search

/- The matches of a scan.

   A replacement goes through the matches an expression finds one after the other, each behind the
   end of the one before (`Found`). A place where the expression takes something, and which no
   earlier match can reach, is where one of them begins (`Found.of_accepts`). -/
namespace YominsAgent.Lib

open List

variable {α : Type} {r : Regex α}

theorem IsFirst.unique {b pre pre' : List α} {m m' : Match α} (h : IsFirst r b pre m)
    (h' : IsFirst r b pre' m') (hx : pre ++ (m.text ++ m.after) = pre' ++ (m'.text ++ m'.after)) :
    m = m' ∧ pre = pre' := by
  have hsame : pre = pre' ∧ m.text ++ m.after = m'.text ++ m'.after := by
    rcases append_eq_append_iff.mp hx with ⟨v, hv, hrest⟩ | ⟨v, hv, hrest⟩
    · by_cases hne : v = []
      · subst hne
        exact ⟨by simpa using hv.symm, hrest⟩
      · exact absurd (h.before ▸ h.accepts) (h'.leftmost pre v m.text m.after hv hne hrest.symm)
    · by_cases hne : v = []
      · subst hne
        exact ⟨by simpa using hv, hrest.symm⟩
      · exact absurd (h'.before ▸ h'.accepts) (h.leftmost pre' v m'.text m'.after hv hne hrest.symm)
  obtain ⟨rfl, htext⟩ := hsame
  have hbefore : m.before = m'.before := h.before.trans h'.before.symm
  have hhead := h.head
  rw [hbefore, htext, h'.head] at hhead
  obtain ⟨hplace, hgroups⟩ := Prod.mk.inj (Option.some.inj hhead)
  have hafter : m'.after = m.after := (Place.mk.inj hplace).2
  refine ⟨?_, rfl⟩
  cases m
  cases m'
  simp only [Match.mk.injEq]
  refine ⟨hbefore, ?_, hafter.symm, hgroups.symm⟩
  rw [hafter] at htext
  exact append_cancel_right htext

/-- `m` is one of the matches found in `x` behind `b`. -/
inductive Found (r : Regex α) : List α → List α → Match α → Prop where
  | first {b pre : List α} {m : Match α} (h : IsFirst r b pre m) :
      Found r b (pre ++ (m.text ++ m.after)) m
  | later {b pre : List α} {m m' : Match α} (h : IsFirst r b pre m)
      (h' : Found r (m.text.reverse ++ m.before) m.after m') :
      Found r b (pre ++ (m.text ++ m.after)) m'

/-- `m` and the text `w` behind `b` share a symbol. -/
def Match.Meets (m : Match α) (b w : List α) : Prop :=
  b.length < m.before.length + m.text.length ∧ m.before.length < b.length + w.length

/-- A text that does not meet a match lies before it or behind it. -/
theorem Match.around {m : Match α} {b y z u w a : List α} (hm : m.before = y.reverse ++ b)
    (hmeets : ¬ m.Meets (u.reverse ++ b) w) (h : y ++ (m.text ++ z) = u ++ (w ++ a)) :
    (∃ t, y = u ++ (w ++ t) ∧ a = t ++ (m.text ++ z)) ∨
      ∃ t, u = y ++ (m.text ++ t) ∧ z = t ++ (w ++ a) := by
  simp only [Match.Meets, hm, length_append, length_reverse, not_and_or, Nat.not_lt] at hmeets
  -- the one that ends first is a start of the other
  rcases hmeets with hle | hle
  · right
    have hpre : y ++ m.text <+: u := prefix_of_prefix_length_le ⟨z, by rw [append_assoc, h]⟩
      (prefix_append u _) (by rw [length_append]; omega)
    obtain ⟨t, rfl⟩ := hpre
    exact ⟨t, append_assoc .., by simpa using h⟩
  · left
    have hpre : u ++ w <+: y := prefix_of_prefix_length_le ⟨a, by rw [append_assoc, h]⟩
      (prefix_append y _) (by rw [length_append]; omega)
    obtain ⟨t, rfl⟩ := hpre
    exact ⟨t, append_assoc .., by simpa using h.symm⟩

section Found
variable {b x : List α} {m : Match α}

theorem Found.isFirst (h : Found r b x m) : ∃ b' pre, IsFirst r b' pre m := by
  induction h with
  | first h => exact ⟨_, _, h⟩
  | later _ _ ih => exact ih

theorem Found.before_le (h : Found r b x m) : b.length ≤ m.before.length := by
  induction h with
  | first h =>
    rw [h.before, length_append]
    omega
  | later h _ ih =>
    rw [h.before, length_append, length_append] at ih
    omega

theorem Found.cases_next {pre : List α} {m' : Match α} (hm : IsFirst r b pre m)
    (h : Found r b (pre ++ (m.text ++ m.after)) m') :
    m' = m ∨ Found r (m.text.reverse ++ m.before) m.after m' := by
  generalize hx : pre ++ (m.text ++ m.after) = x at h
  cases h with
  | first h => exact .inl (h.unique hm hx.symm).1
  | later h h' =>
    obtain ⟨rfl, -⟩ := h.unique hm hx.symm
    exact .inr h'

theorem Found.not_of_no_match {m' : Match α} (h : Found r b x m')
    (hno : ∀ u w a, x = u ++ (w ++ a) → ¬ Accepts r (u.reverse ++ b) w a) : False := by
  cases h with
  | first h | later h => exact hno _ _ _ rfl (h.before ▸ h.accepts)

/-- Where the expression takes something that no match from further left can reach into, a
match begins. -/
theorem Found.of_accepts {repl : Match α → List α} {out u w a : List α}
    (hsub : Subst r repl b x out) (hx : x = u ++ (w ++ a)) (hacc : Accepts r (u.reverse ++ b) w a)
    (hreach : ∀ u' v w' a', u = u' ++ v → v ++ (w ++ a) = w' ++ a' →
      Accepts r (u'.reverse ++ b) w' a' → v ≠ [] → w'.length ≤ v.length) :
    ∃ m, Found r b x m ∧ m.before = u.reverse ++ b ∧ m.text ++ m.after = w ++ a := by
  induction hsub generalizing u with
  | done h => exact absurd hacc (h u w a hx)
  | @next b pre out m hfirst _ ih =>
    rcases append_eq_append_iff.mp hx with ⟨v, rfl, hrest⟩ | ⟨v, rfl, hrest⟩
    · by_cases hne : v = []
      · subst hne
        exact ⟨m, .first hfirst, by rw [hfirst.before, append_nil], hrest⟩
      · -- the first match begins before the place, and ends before it
        have hlen := hreach pre v m.text m.after rfl hrest.symm (hfirst.before ▸ hfirst.accepts) hne
        obtain ⟨v', rfl, hafter⟩ : ∃ v', v = m.text ++ v' ∧ m.after = v' ++ (w ++ a) := by
          rcases append_eq_append_iff.mp hrest with ⟨t, ht, h⟩ | ⟨t, ht, h⟩
          · exact ⟨t, ht, h⟩
          · have hlen' := congrArg length ht
            rw [length_append] at hlen'
            obtain rfl : t = [] := length_eq_zero_iff.mp (by omega)
            exact ⟨[], by simpa using ht.symm, by simpa using h.symm⟩
        have hctx : (pre ++ (m.text ++ v')).reverse ++ b =
            v'.reverse ++ (m.text.reverse ++ m.before) := by
          rw [hfirst.before]
          simp only [reverse_append, append_assoc]
        obtain ⟨m', hfound, hbefore, htext⟩ := ih hafter (hctx ▸ hacc) (by
          intro u' v'' w' a' hv' hw' hacc' hne'
          refine hreach (pre ++ (m.text ++ u')) v'' w' a' ?_ hw' ?_ hne'
          · rw [hv']
            simp only [append_assoc]
          · rw [hfirst.before] at hacc'
            simpa only [reverse_append, append_assoc] using hacc')
        exact ⟨m', .later hfirst hfound, hbefore.trans hctx.symm, htext⟩
    · by_cases hne : v = []
      · subst hne
        exact ⟨m, .first hfirst, by rw [hfirst.before, append_nil], hrest.symm⟩
      · exact absurd hacc (hfirst.leftmost u v w a rfl hne hrest.symm)

end Found

end YominsAgent.Lib
