import YominsAgent.Lib.Regexp

/- Reasoning about replacements by regular expressions.

   `uses` over-approximates the symbols of what an expression takes; `inner` holds of one that does
   not look around itself, so that what it takes does not depend on where it stands
   (`Accepts.elsewhere`) and a match is found in itself (`find_self`).

   A replacement is followed along a cut of its text: either no match crosses the cut and both sides
   are replaced on their own, or one match does (`Subst.split`). -/
namespace YominsAgent.Lib

open List Bool

variable {α : Type}

/-! ## The symbols of an expression -/

/-- Whether the expression can take the symbol. -/
def Regex.uses : Regex α → α → Bool
  | .empty, _ => false
  | .look _, _ => false
  | .set f, c => f c
  | .seq r s, c => r.uses c || s.uses c
  | .alt r s, c => r.uses c || s.uses c
  | .star _ r, c => r.uses c
  | .group _ r, c => r.uses c

theorem Accepts.uses {r : Regex α} {b w a : List α} (h : Accepts r b w a) {c : α} (hc : c ∈ w) :
    r.uses c = true := by
  induction h with
  | empty | look | stop => cases hc
  | set h =>
    rw [List.mem_singleton.mp hc]
    exact h
  | seq _ _ ihr ihs =>
    rw [Regex.uses, Bool.or_eq_true]
    exact (List.mem_append.mp hc).imp ihr ihs
  | left _ ih => rw [Regex.uses, ih hc, Bool.true_or]
  | right _ ih => rw [Regex.uses, ih hc, Bool.or_true]
  | more _ _ ihr ihs => exact (List.mem_append.mp hc).elim ihr ihs
  | group _ ih => exact ih hc

theorem Accepts.ne_of_mem {r : Regex α} {b w a : List α} (h : Accepts r b w a) {c d : α}
    (hc : c ∈ w) (hd : r.uses d = false) : c ≠ d := by
  rintro rfl
  rw [h.uses hc] at hd
  cases hd

/-- Whether the expression takes at least one symbol in each of its ways. -/
def Regex.takes : Regex α → Bool
  | .set _ => true
  | .seq r s => r.takes || s.takes
  | .alt r s => r.takes && s.takes
  | .group _ r => r.takes
  | .empty => false
  | .look _ => false
  | .star _ _ => false

theorem solid_of_takes {r : Regex α} (h : r.takes = true) : Solid r := by
  intro b w a hacc
  induction hacc with
  | empty | look | stop | more => cases h
  | set => exact cons_ne_nil _ _
  | seq _ _ ihr ihs =>
    rw [Regex.takes, or_eq_true] at h
    rw [ne_eq, append_eq_nil_iff, not_and_or]
    exact h.imp ihr ihs
  | left _ ih =>
    rw [Regex.takes, and_eq_true] at h
    exact ih h.1
  | right _ ih =>
    rw [Regex.takes, and_eq_true] at h
    exact ih h.2
  | group _ ih => exact ih h

/-! ## Expressions that do not look around -/

/-- No condition on the neighbours, and repetitions of sets only. -/
def Regex.inner : Regex α → Bool
  | .empty => true
  | .set _ => true
  | .look _ => false
  | .seq r s => r.inner && s.inner
  | .alt r s => r.inner && s.inner
  | .star _ (.set _) => true
  | .star _ _ => false
  | .group _ r => r.inner

theorem Regex.inner_star {greedy : Bool} {r : Regex α} (h : (Regex.star greedy r).inner = true) :
    ∃ f, r = .set f := by
  cases r with
  | set f => exact ⟨f, rfl⟩
  | _ => cases h

theorem Accepts.elsewhere {r : Regex α} (hr : r.inner = true) {b w a : List α}
    (h : Accepts r b w a) (b' a' : List α) : Accepts r b' w a' := by
  induction r generalizing b w a b' a' with
  | empty => exact accepts_empty.mpr (accepts_empty.mp h)
  | set => exact accepts_set.mpr (accepts_set.mp h)
  | look => cases hr
  | seq r s ihr ihs =>
    rw [Regex.inner, and_eq_true] at hr
    obtain ⟨u, v, rfl, hu, hv⟩ := accepts_seq.mp h
    exact .seq (ihr hr.1 hu _ _) (ihs hr.2 hv _ _)
  | alt r s ihr ihs =>
    rw [Regex.inner, and_eq_true] at hr
    exact accepts_alt.mpr ((accepts_alt.mp h).imp (ihr hr.1 · _ _) (ihs hr.2 · _ _))
  | star =>
    obtain ⟨f, rfl⟩ := Regex.inner_star hr
    exact accepts_star_set.mpr (accepts_star_set.mp h)
  | group n r ih => exact .group (ih hr (accepts_group.mp h) _ _)

/-- The ways `L` from a place before `v ++ a`, and the ways `L'` from the same place
when the text ends behind `v`: those that leave `v` are missing. -/
inductive Trims (b a b' : List α) :
    List (Place α × Groups α) → List (Place α × Groups α) → Prop where
  | nil : Trims b a b' [] []
  | keep {u v : List α} {g : Groups α} {L L' : List (Place α × Groups α)} (h : Trims b a b' L L') :
      Trims b a b' ((⟨u ++ b, v ++ a⟩, g) :: L) ((⟨u ++ b', v⟩, g) :: L')
  | drop {x : Place α × Groups α} {L L' : List (Place α × Groups α)}
      (hx : x.1.after.length < a.length) (h : Trims b a b' L L') : Trims b a b' (x :: L) L'

section Trims

variable {b a b' : List α} {L L' M M' : List (Place α × Groups α)}

theorem Trims.append (h : Trims b a b' L L') (hm : Trims b a b' M M') :
    Trims b a b' (L ++ M) (L' ++ M') := by
  induction h with
  | nil => exact hm
  | keep _ ih => exact .keep ih
  | drop hx _ ih => exact .drop hx ih

theorem trims_nil (h : ∀ x ∈ L, x.1.after.length < a.length) : Trims b a b' L [] := by
  induction L with
  | nil => exact .nil
  | cons x L ih =>
    rw [forall_mem_cons] at h
    exact .drop h.1 (ih h.2)

theorem Trims.flatMap {F F' : Place α × Groups α → List (Place α × Groups α)}
    (h : Trims b a b' L L')
    (hin : ∀ u v g, Trims b a b' (F (⟨u ++ b, v ++ a⟩, g)) (F' (⟨u ++ b', v⟩, g)))
    (hout : ∀ x, x.1.after.length < a.length → ∀ y ∈ F x, y.1.after.length ≤ x.1.after.length) :
    Trims b a b' (L.flatMap F) (L'.flatMap F') := by
  induction h with
  | nil => exact .nil
  | keep _ ih => exact (hin _ _ _).append ih
  | @drop x _ _ hx _ ih =>
    exact (trims_nil fun y hy => Nat.lt_of_le_of_lt (hout x hx y hy) hx).append ih

theorem length_after_le {r : Regex α} {p : Place α} {g : Groups α} {y : Place α × Groups α}
    (h : y ∈ r.run p g) : y.1.after.length ≤ p.after.length := by
  obtain ⟨w, ⟨hafter, -⟩, -⟩ := mem_run h
  rw [hafter, length_append]
  omega

theorem trims_iterate_set {f : α → Bool} {greedy : Bool} (v : List α) :
    ∀ (u : List α) (g : Groups α) (n n' : Nat), v.length ≤ n' → n' ≤ n →
      Trims b a b' (iterate (Regex.set f).run greedy n ⟨u ++ b, v ++ a⟩ g)
        (iterate (Regex.set f).run greedy n' ⟨u ++ b', v⟩ g) := by
  have hlater : ∀ n p g x, x ∈ iterate (Regex.set f).run greedy n p g →
      x.1.after.length ≤ p.after.length := by
    intro n p g x hx
    obtain ⟨w, ⟨hafter, -⟩, -⟩ :=
      mem_iterate (r := .set f) (fun _ _ _ _ h => mem_run h) n p g x.1 x.2 hx
    rw [hafter, length_append]
    omega
  induction v with
  | nil =>
    intro u g n n' _ _
    have hright : iterate (Regex.set f).run greedy n' ⟨u ++ b', []⟩ g = [(⟨u ++ b', []⟩, g)] := by
      cases n' with
      | zero => rfl
      | succ => cases greedy <;> rfl
    rw [hright, nil_append]
    have hstop : Trims b a b' [(⟨u ++ b, a⟩, g)] [(⟨u ++ b', []⟩, g)] := .keep (v := []) .nil
    cases n with
    | zero => exact hstop
    | succ n =>
      have hmore : Trims b a b' (((Regex.set f).run ⟨u ++ b, a⟩ g).flatMap fun x =>
          if x.1.after.length < a.length then iterate (Regex.set f).run greedy n x.1 x.2
          else [x]) [] := by
        refine trims_nil fun x hx => ?_
        obtain ⟨⟨q, h⟩, hq, hx⟩ := mem_flatMap.mp hx
        obtain ⟨w, ⟨hafter, -⟩, hacc⟩ := mem_run hq
        obtain ⟨c, rfl, -⟩ := accepts_set.mp hacc
        have hlt : q.after.length < a.length := by
          have : a = c :: q.after := hafter
          rw [this]
          exact Nat.lt_succ_self _
        simp only [if_pos hlt] at hx
        exact Nat.lt_of_le_of_lt (hlater n q h x hx) hlt
      simp only [iterate_succ]
      split
      · exact hmore.append hstop
      · exact hstop.append hmore
  | cons c v ih =>
    intro u g n n' hn' hn
    obtain ⟨n', rfl⟩ : ∃ k, n' = k + 1 := ⟨n' - 1, by simp at hn'; omega⟩
    obtain ⟨n, rfl⟩ : ∃ k, n = k + 1 := ⟨n - 1, by omega⟩
    have hstop : Trims b a b' [(⟨u ++ b, c :: v ++ a⟩, g)] [(⟨u ++ b', c :: v⟩, g)] := .keep .nil
    have hmore : Trims b a b'
        (((Regex.set f).run ⟨u ++ b, c :: v ++ a⟩ g).flatMap fun x =>
          if x.1.after.length < (c :: v ++ a).length then iterate (Regex.set f).run greedy n x.1 x.2
          else [x])
        (((Regex.set f).run ⟨u ++ b', c :: v⟩ g).flatMap fun x =>
          if x.1.after.length < (c :: v).length then iterate (Regex.set f).run greedy n' x.1 x.2
          else [x]) := by
      by_cases hc : f c = true
      · have hrec := ih (c :: u) g n n' (by simpa using hn') (by omega)
        simpa [Regex.run, hc] using hrec
      · simpa [Regex.run, hc] using Trims.nil
    simp only [iterate_succ]
    split
    · exact hmore.append hstop
    · exact hstop.append hmore

/-- An expression that does not look around goes the same ways when the text ends
earlier, as far as they stay inside. -/
theorem trims_run {r : Regex α} (hr : r.inner = true) :
    ∀ (u v : List α) (g : Groups α),
      Trims b a b' (r.run ⟨u ++ b, v ++ a⟩ g) (r.run ⟨u ++ b', v⟩ g) := by
  induction r with
  | empty => exact fun u v g => .keep .nil
  | set f =>
    intro u v g
    cases v with
    | nil =>
      refine trims_nil fun x hx => ?_
      obtain ⟨w, ⟨hafter, -⟩, hacc⟩ := mem_run hx
      obtain ⟨c, rfl, -⟩ := accepts_set.mp hacc
      have : a = c :: x.1.after := hafter
      rw [this]
      exact Nat.lt_succ_self _
    | cons c =>
      by_cases hc : f c = true
      · simpa [Regex.run, hc] using Trims.keep (u := c :: u) Trims.nil
      · simpa [Regex.run, hc] using Trims.nil
  | look => cases hr
  | seq r s ihr ihs =>
    rw [Regex.inner, and_eq_true] at hr
    intro u v g
    exact (ihr hr.1 u v g).flatMap (ihs hr.2) fun x _ y hy => length_after_le hy
  | alt r s ihr ihs =>
    rw [Regex.inner, and_eq_true] at hr
    intro u v g
    exact (ihr hr.1 u v g).append (ihs hr.2 u v g)
  | star =>
    obtain ⟨f, rfl⟩ := Regex.inner_star hr
    intro u v g
    exact trims_iterate_set v u g _ _ (Nat.le_refl _) (by simp)
  | group n r ih =>
    intro u v g
    have hways := ih hr u v g
    simp only [Regex.run]
    -- a group takes the same text from both places
    generalize r.run ⟨u ++ b, v ++ a⟩ g = L at hways
    generalize r.run ⟨u ++ b', v⟩ g = L' at hways
    induction hways with
    | nil => exact .nil
    | @keep u2 v2 h L L' _ ihL =>
      have htext : Place.upTo ⟨u ++ b, v ++ a⟩ ⟨u2 ++ b, v2 ++ a⟩ =
          Place.upTo ⟨u ++ b', v⟩ ⟨u2 ++ b', v2⟩ := by
        have hlen : (v ++ a).length - (v2 ++ a).length = v.length - v2.length := by
          simp only [length_append]
          omega
        simp only [Place.upTo, hlen]
        exact take_append_of_le_length (Nat.sub_le _ _)
      simp only [map_cons, htext]
      exact .keep ihL
    | drop hx _ ihL => exact .drop hx ihL

end Trims

/-- A match of an expression that does not look around is found in its own text. -/
theorem find_self {r : Regex α} (hr : r.inner = true) {b x : List α} {m : Match α}
    (h : r.find b x = some m) : r.find [] m.text = some ⟨[], m.text, [], m.groups⟩ := by
  obtain ⟨pre, -, hfirst⟩ := find_eq_some h
  have htrims : Trims m.before m.after [] (r.run ⟨m.before, m.text ++ m.after⟩ [])
      (r.run ⟨[], m.text⟩ []) := trims_run hr [] m.text []
  obtain ⟨rest, hways⟩ := head?_eq_some_iff.mp hfirst.head
  rw [hways] at htrims
  have hhead : ∃ rest, r.run ⟨[], m.text⟩ [] = (⟨m.text.reverse, []⟩, m.groups) :: rest := by
    generalize hx : ((⟨m.text.reverse ++ m.before, m.after⟩ : Place α), m.groups) = x at htrims
    generalize r.run ⟨[], m.text⟩ [] = M at htrims
    cases htrims with
    | @keep u v g _ L' =>
      obtain ⟨hplace, rfl⟩ := Prod.mk.inj hx
      obtain ⟨hu, hv⟩ := Place.mk.inj hplace
      obtain rfl := append_cancel_right hu
      obtain rfl : v = [] := append_left_eq_self.mp hv.symm
      exact ⟨L', by rw [append_nil]⟩
    | drop hlt =>
      subst hx
      exact absurd hlt (Nat.lt_irrefl _)
  obtain ⟨rest', hways'⟩ := hhead
  unfold Regex.find
  simp only [hways', Place.upTo]
  rw [length_nil, Nat.sub_zero, take_length]

/-! ## Following a replacement -/

section Subst

variable {r : Regex α} {repl : Match α → List α} {b x y out : List α}

theorem Subst.eq_self (h : Subst r repl b x out)
    (hno : ∀ u w a, x = u ++ (w ++ a) → ¬ Accepts r (u.reverse ++ b) w a) : out = x := by
  cases h with
  | done => rfl
  | @next _ pre _ m hfirst =>
    exact absurd (hfirst.before ▸ hfirst.accepts) (hno pre m.text m.after rfl)

/-- A relation of texts that goes through pieces and holds of every match and what
replaces it. -/
structure Pieces (r : Regex α) (repl : Match α → List α) (P : List α → List α → Prop) : Prop where
  refl : ∀ u, P u u
  append : ∀ {u u' v v'}, P u u' → P v v' → P (u ++ v) (u' ++ v')
  first : ∀ {b pre m}, IsFirst r b pre m → P m.text (repl m)

theorem Subst.rel {P : List α → List α → Prop} (hP : Pieces r repl P)
    (h : Subst r repl b x out) : P x out := by
  induction h with
  | done => exact hP.refl _
  | next hfirst _ ih => exact hP.append (hP.refl _) (hP.append (hP.first hfirst) ih)

/-- A replacement that keeps the first symbol of every match keeps the first symbol
of the text. -/
theorem Subst.head?_eq (h : Subst r repl b x out)
    (hkeep : ∀ b pre m, IsFirst r b pre m → m.text ≠ [] ∧ (repl m).head? = m.text.head?) :
    out.head? = x.head? := by
  cases h with
  | done => rfl
  | @next _ pre out m hfirst =>
    cases pre with
    | cons => rfl
    | nil =>
      obtain ⟨hne, hhead⟩ := hkeep _ _ m hfirst
      obtain ⟨c, t, ht⟩ := exists_cons_of_ne_nil hne
      rw [nil_append, nil_append, head?_append, head?_append, hhead, ht]
      rfl

end Subst

end YominsAgent.Lib
