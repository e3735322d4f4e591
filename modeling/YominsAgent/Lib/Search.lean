import YominsAgent.Lib.Regexp

/- What a search by a regular expression finds.

   A search that finds nothing accepts at no place (`find_eq_none_iff`), and one that is
   not successful before a place and is there stops there (`find_of_accepts`). An
   expression without conditions on the symbols next to a place (`Regex.blind`) takes
   the same texts wherever they stand. A lazy repetition is left at the first place from
   which the rest can go on (`head?_run_lazy`). -/
namespace YominsAgent.Lib

open List Bool

variable {α : Type} {y : Place α × Groups α} {f : α → Bool}

def Regex.lit [DecidableEq α] : List α → Regex α
  | [] => .empty
  | x :: w => .seq (.set (· == x)) (lit w)

/-- No condition on the symbols next to a place. -/
def Regex.blind : Regex α → Bool
  | .look _ => false
  | .empty | .set _ => true
  | .seq r s | .alt r s => r.blind && s.blind
  | .star _ r | .group _ r => r.blind

section Literals
variable [DecidableEq α] {s b w a : List α}

@[simp] theorem accepts_lit : Accepts (.lit s) b w a ↔ w = s := by
  induction s generalizing b w with
  | nil => rw [Regex.lit, accepts_empty]
  | cons x s ih =>
    rw [Regex.lit, accepts_seq]
    constructor
    · rintro ⟨u, v, rfl, hu, hv⟩
      obtain ⟨c, rfl, hc⟩ := accepts_set.mp hu
      rw [eq_of_beq hc, ih.mp hv]
      rfl
    · rintro rfl
      exact ⟨[x], s, rfl, .set BEq.rfl, ih.mpr rfl⟩

theorem lit_groups (s : List α) : (Regex.lit s).groups = [] := by
  induction s with
  | nil => rfl
  | cons x s ih => simpa [Regex.lit, Regex.groups] using ih

end Literals

/-- What is taken without a look around is taken anywhere. -/
theorem Accepts.anywhere {r : Regex α} (hr : r.blind = true) {b w a : List α}
    (h : Accepts r b w a) (b' a' : List α) : Accepts r b' w a' := by
  induction h generalizing b' a' with
  | empty => exact .empty
  | set hc => exact .set hc
  | look => cases hr
  | seq _ _ ihr ihs =>
    obtain ⟨h1, h2⟩ := and_eq_true_iff.mp hr
    exact .seq (ihr h1 _ _) (ihs h2 _ _)
  | left _ ih => exact .left (ih (and_eq_true_iff.mp hr).1 _ _)
  | right _ ih => exact .right (ih (and_eq_true_iff.mp hr).2 _ _)
  | stop => exact .stop
  | more _ _ ihr ihs => exact .more (ihr hr _ _) (ihs hr _ _)
  | group _ ih => exact .group (ih hr _ _)

/-! ## Searching -/

section Find
variable {r : Regex α} {b x : List α}

theorem find_eq_none_iff : r.find b x = none ↔
    ∀ u w a, x = u ++ (w ++ a) → ¬ Accepts r (u.reverse ++ b) w a := by
  refine ⟨find_eq_none, fun h => ?_⟩
  cases hf : r.find b x with
  | none => rfl
  | some m =>
    obtain ⟨pre, hx, hfirst⟩ := find_eq_some hf
    exact absurd (hfirst.before ▸ hfirst.accepts) (h pre m.text m.after hx)

/-- The search stops at the first place where it can. -/
theorem find_of_accepts {pre w a : List α}
    (hno : ∀ u v w' a', pre = u ++ v → v ≠ [] → v ++ (w ++ a) = w' ++ a' →
      ¬ Accepts r (u.reverse ++ b) w' a')
    (hacc : Accepts r (pre.reverse ++ b) w a) :
    ∃ m, r.find b (pre ++ (w ++ a)) = some m ∧ m.before = pre.reverse ++ b ∧
      m.text ++ m.after = w ++ a ∧ IsFirst r b pre m := by
  cases hf : r.find b (pre ++ (w ++ a)) with
  | none => exact absurd hacc (find_eq_none hf pre w a rfl)
  | some m =>
    obtain ⟨pre', hx, hfirst⟩ := find_eq_some hf
    have hsame : pre = pre' ∧ w ++ a = m.text ++ m.after := by
      rcases append_eq_append_iff.mp hx with ⟨v, hv, hrest⟩ | ⟨v, hv, hrest⟩
      · -- the match would begin behind a place where there is one
        cases v with
        | nil => exact ⟨by simpa using hv.symm, hrest⟩
        | cons c v =>
          exact absurd hacc (hfirst.leftmost pre (c :: v) w a hv (cons_ne_nil c v) hrest.symm)
      · cases v with
        | nil => exact ⟨by simpa using hv, hrest.symm⟩
        | cons c v =>
          have hacc' := hfirst.accepts
          rw [hfirst.before] at hacc'
          exact absurd hacc' (hno pre' (c :: v) _ _ hv (cons_ne_nil c v) hrest.symm)
    obtain ⟨rfl, htext⟩ := hsame
    exact ⟨m, rfl, hfirst.before, htext.symm, hfirst⟩

/-- A search without a look around finds something when one of the texts is there. -/
theorem find_ne_none_iff (hr : r.blind = true) :
    r.find [] x ≠ none ↔ ∃ w, w <:+: x ∧ Accepts r [] w [] := by
  constructor
  · intro h
    obtain ⟨m, hm⟩ := Option.ne_none_iff_exists'.mp h
    obtain ⟨pre, hx, hfirst⟩ := find_eq_some hm
    exact ⟨m.text, ⟨pre, m.after, by rw [hx, append_assoc]⟩, hfirst.accepts.anywhere hr _ _⟩
  · rintro ⟨w, ⟨u, a, hx⟩, hacc⟩ hnone
    exact find_eq_none hnone u w a (by rw [← hx, append_assoc]) (hacc.anywhere hr _ _)

end Find

/-! ## The ways of a sequence -/

section Ways
variable {r s : Regex α} {p q : Place α} {g h : Groups α}

theorem mem_run_seq (hm : (q, h) ∈ (Regex.seq r s).run p g) :
    ∃ u m j, p.Ahead u m ∧ Accepts r p.before u m.after ∧ (q, h) ∈ s.run m j := by
  obtain ⟨⟨m, j⟩, hr, hs⟩ := mem_flatMap.mp hm
  obtain ⟨u, hu, hacc⟩ := mem_run hr
  exact ⟨u, m, j, hu, hacc, hs⟩

theorem mem_run_seq_group {n : Nat} (hn : n ∉ s.groups)
    (hm : (q, h) ∈ (Regex.seq (.group n r) s).run p g) :
    ∃ u m j, p.Ahead u m ∧ Accepts r p.before u m.after ∧ (q, h) ∈ s.run m j ∧
      h.lookup n = some u := by
  obtain ⟨⟨m, j⟩, hr, hs⟩ := mem_flatMap.mp hm
  obtain ⟨⟨m', k⟩, hr', he⟩ := mem_map.mp hr
  obtain ⟨rfl, rfl⟩ := Prod.mk.inj he
  obtain ⟨u, hu, hacc⟩ := mem_run hr'
  refine ⟨u, m', _, hu, hacc, hs, ?_⟩
  rw [lookup_run hn hs, hu.upTo_eq]
  simp

/-- The preferred way of a sequence goes some way of the front, and from there on the
preferred one. -/
theorem head?_run_seq (h : ((Regex.seq r s).run p g).head? = some y) :
    ∃ q j, (q, j) ∈ r.run p g ∧ (s.run q j).head? = some y := by
  rw [Regex.run, head?_flatMap] at h
  obtain ⟨⟨q, j⟩, hq, hy⟩ := exists_of_findSome?_eq_some h
  exact ⟨q, j, hq, hy⟩

theorem head?_flatMap_alike {β γ δ : Type} {f : β → List γ} {k : β → List δ} {y : γ} {l : List β}
    (hsame : ∀ x ∈ l, f x = [] ↔ k x = []) (h : (l.flatMap f).head? = some y) :
    ∃ x ∈ l, (f x).head? = some y ∧ (l.flatMap k).head? = (k x).head? := by
  induction l with
  | nil => cases h
  | cons x l ih =>
    obtain ⟨hx, hl⟩ := forall_mem_cons.mp hsame
    rw [flatMap_cons] at h ⊢
    cases hf : f x with
    | nil =>
      rw [hf, nil_append] at h
      rw [hx.mp hf, nil_append]
      obtain ⟨x', hmem, hfirst⟩ := ih hl h
      exact ⟨x', mem_cons_of_mem x hmem, hfirst⟩
    | cons z t =>
      obtain ⟨z', t', hk⟩ := exists_cons_of_ne_nil (mt hx.mpr (hf ▸ cons_ne_nil z t))
      refine ⟨x, mem_cons_self, ?_, by rw [hk]; rfl⟩
      rw [hf] at h ⊢
      exact h

/-- Two rests that can go on from the same places are reached by the same way of the
front. -/
theorem head?_run_seq_alike {t : Regex α}
    (hsame : ∀ q j, (q, j) ∈ r.run p g → (s.run q j = [] ↔ t.run q j = []))
    (h : ((Regex.seq r s).run p g).head? = some y) :
    ∃ q j, (q, j) ∈ r.run p g ∧ (s.run q j).head? = some y ∧
      ((Regex.seq r t).run p g).head? = (t.run q j).head? := by
  obtain ⟨⟨q, j⟩, hq, hs, ht⟩ := head?_flatMap_alike (fun x hx => hsame x.1 x.2 hx) h
  exact ⟨q, j, hq, hs, ht⟩

end Ways

/-! ## Where a lazy repetition is left -/

theorem head?_iterate_lazy {s : Regex α} {g : Groups α} (x : List α) : ∀ b : List α,
    ((iterate (Regex.set f).run false x.length ⟨b, x⟩ g).flatMap fun z => s.run z.1 z.2).head? =
      some y →
    ∃ u v, x = u ++ v ∧ (∀ c ∈ u, f c = true) ∧ (s.run ⟨u.reverse ++ b, v⟩ g).head? = some y ∧
      ∀ u' v', x = u' ++ v' → u'.length < u.length → s.run ⟨u'.reverse ++ b, v'⟩ g = [] := by
  induction x with
  | nil =>
    intro b h
    refine ⟨[], [], rfl, nofun, ?_, fun u' v' _ hlt => absurd hlt (Nat.not_lt_zero _)⟩
    simpa [iterate] using h
  | cons c x ih =>
    intro b h
    simp only [length_cons, iterate, false_eq_true, if_false, flatMap_cons] at h
    cases hhere : s.run ⟨b, c :: x⟩ g with
    | cons =>
      refine ⟨[], c :: x, rfl, nofun, ?_, fun u' v' _ hlt => absurd hlt (Nat.not_lt_zero _)⟩
      show (s.run ⟨b, c :: x⟩ g).head? = some y
      rw [hhere] at h ⊢
      exact h
    | nil =>
      rw [hhere, nil_append] at h
      by_cases hc : f c = true
      · simp only [Regex.run, hc, if_true, flatMap_cons, flatMap_nil, append_nil,
          Nat.lt_succ_self] at h
        obtain ⟨u, v, rfl, hu, hv, hfirst⟩ := ih (c :: b) h
        refine ⟨c :: u, v, rfl, forall_mem_cons.mpr ⟨hc, hu⟩, by simpa using hv, ?_⟩
        intro u' v' hx hlt
        cases u' with
        | nil =>
          obtain rfl : c :: (u ++ v) = v' := hx
          exact hhere
        | cons d u' =>
          obtain ⟨rfl, htail⟩ := cons.inj hx
          simpa using hfirst u' v' htail (Nat.lt_of_succ_lt_succ hlt)
      · simp [Regex.run, hc] at h

/-- The preferred way leaves a lazy repetition of a set as early as the rest allows. -/
theorem head?_run_lazy {s : Regex α} {b x : List α} {g : Groups α}
    (h : ((Regex.seq (.star false (.set f)) s).run ⟨b, x⟩ g).head? = some y) :
    ∃ u v, x = u ++ v ∧ (∀ c ∈ u, f c = true) ∧ (s.run ⟨u.reverse ++ b, v⟩ g).head? = some y ∧
      ∀ u' v', x = u' ++ v' → u'.length < u.length → s.run ⟨u'.reverse ++ b, v'⟩ g = [] :=
  head?_iterate_lazy x b h

end YominsAgent.Lib
