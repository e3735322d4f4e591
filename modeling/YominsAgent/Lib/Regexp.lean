import Mathlib.Data.List.Basic

/- Regular expressions with priorities, over any alphabet.

   `run` tries an expression at a place of a text and gives every way it can go,
   the preferred ones first: the first alternative before the second, one more
   round of a greedy repetition before none. A search takes the first way at the
   leftmost place (`find`), and a replacement goes on behind it (`replaceAll`).

   Which texts are taken at all does not depend on the priorities: `Accepts` says
   it expression by expression (`mem_run`, `Accepts.run`). What the priorities
   add is used in one form only, `EndsGreedy`: an expression that ends in a greedy
   repetition of a set stops where the text leaves the set.

   A replacement by an expression that takes no empty text is described by
   `Subst`: the matches in order, what stands between them unchanged. -/
namespace YominsAgent.Lib

open List

variable {α : Type} {greedy : Bool} {x pre : List α} {n : Nat}

inductive Regex (α : Type) where
  | empty
  | set (f : α → Bool)
  /-- a condition on the symbols next to a place -/
  | look (f : Option α → Option α → Bool)
  | seq (r s : Regex α)
  | alt (r s : Regex α)
  | star (greedy : Bool) (r : Regex α)
  | group (n : Nat) (r : Regex α)

/-- A place in a text: what stands before it, the nearest symbol first, and what
follows it. -/
structure Place (α : Type) where
  before : List α
  after : List α

/-- The texts of the groups, the last one captured first. -/
abbrev Groups (α : Type) := List (Nat × List α)

/-- The text from `p` to a later place `q`. -/
def Place.upTo (p q : Place α) : List α := p.after.take (p.after.length - q.after.length)

/-- Rounds of `f`; one that takes nothing is the last. -/
def iterate (f : Place α → Groups α → List (Place α × Groups α)) (greedy : Bool) :
    Nat → Place α → Groups α → List (Place α × Groups α)
  | 0, p, g => [(p, g)]
  | fuel + 1, p, g =>
    let more := (f p g).flatMap fun (q, h) =>
      if q.after.length < p.after.length then iterate f greedy fuel q h else [(q, h)]
    if greedy then more ++ [(p, g)] else (p, g) :: more

theorem iterate_succ (f : Place α → Groups α → List (Place α × Groups α)) (greedy : Bool)
    (fuel : Nat) (p : Place α) (g : Groups α) : iterate f greedy (fuel + 1) p g =
      let more := (f p g).flatMap fun x =>
        if x.1.after.length < p.after.length then iterate f greedy fuel x.1 x.2 else [x]
      if greedy then more ++ [(p, g)] else (p, g) :: more := rfl

namespace Regex

/-- Every way to go from the place, the preferred ones first. -/
def run : Regex α → Place α → Groups α → List (Place α × Groups α)
  | .empty, p, g => [(p, g)]
  | .set f, p, g =>
    match p.after with
    | [] => []
    | c :: a => if f c then [(⟨c :: p.before, a⟩, g)] else []
  | .look f, p, g => if f p.before.head? p.after.head? then [(p, g)] else []
  | .seq r s, p, g => (r.run p g).flatMap fun (q, h) => s.run q h
  | .alt r s, p, g => r.run p g ++ s.run p g
  | .star greedy r, p, g => iterate r.run greedy p.after.length p g
  | .group n r, p, g => (r.run p g).map fun (q, h) => (q, (n, p.upTo q) :: h)

def opt (r : Regex α) : Regex α := .alt r .empty
def plus (r : Regex α) : Regex α := .seq r (.star true r)

/-- `n` times. -/
def times (r : Regex α) : Nat → Regex α
  | 0 => .empty
  | n + 1 => .seq r (times r n)

/-- At most `n` times, rather more often. -/
def upTo (r : Regex α) : Nat → Regex α
  | 0 => .empty
  | n + 1 => .opt (.seq r (upTo r n))

/-- One of the expressions, the earlier rather than the later. -/
def oneOf : List (Regex α) → Regex α
  | [] => .set fun _ => false
  | [r] => r
  | r :: s :: rs => .alt r (oneOf (s :: rs))

def groups : Regex α → List Nat
  | .empty | .set _ | .look _ => []
  | .seq r s | .alt r s => r.groups ++ s.groups
  | .star _ r => r.groups
  | .group n r => n :: r.groups

end Regex

/-- A match: where it stands and what its groups took. -/
structure Match (α : Type) where
  before : List α
  text : List α
  after : List α
  groups : Groups α

/-- The text of a group, empty when it took part in no way. -/
def Match.group (m : Match α) (n : Nat) : List α := (m.groups.lookup n).getD []

namespace Regex

/-- The preferred match at the leftmost place that has one. -/
def find (r : Regex α) : List α → List α → Option (Match α)
  | before, after =>
    match r.run ⟨before, after⟩ [] with
    | (q, g) :: _ => some ⟨before, Place.upTo ⟨before, after⟩ q, q.after, g⟩
    | [] =>
      match after with
      | [] => none
      | c :: after => find r (c :: before) after

/-- The search for a match from the position `pos` of `s`. -/
def findAt (r : Regex α) (s : List α) (pos : Nat) : Option (Match α) :=
  r.find (s.take pos).reverse (s.drop pos)

/-- The rest of a replacement: the next search begins at `pos`, the last match
ended at `last`. An empty match right behind another one is passed over. -/
def replaceLoop (r : Regex α) (repl : Match α → List α) (s : List α) : Nat → Nat → Nat → List α
  | 0, _, last => s.drop last
  | fuel + 1, pos, last =>
    if s.length < pos then s.drop last
    else match r.findAt s pos with
      | none => s.drop last
      | some m =>
        let lo := m.before.length
        let hi := lo + m.text.length
        (s.take lo).drop last ++ (if last < hi ∨ lo = 0 then repl m else []) ++
          replaceLoop r repl s fuel (if hi < pos + 1 then pos + 1 else hi) hi

/-- Every match replaced, from left to right. -/
def replaceAll (r : Regex α) (repl : Match α → List α) (s : List α) : List α :=
  replaceLoop r repl s (s.length + 1) 0 0

end Regex

/-! ## Which texts are taken -/

/-- `r` can take `w` between `before` and `after`. -/
inductive Accepts : Regex α → List α → List α → List α → Prop where
  | empty {b a : List α} : Accepts .empty b [] a
  | set {f : α → Bool} {c : α} {b a : List α} (h : f c = true) : Accepts (.set f) b [c] a
  | look {f : Option α → Option α → Bool} {b a : List α} (h : f b.head? a.head? = true) :
      Accepts (.look f) b [] a
  | seq {r s : Regex α} {b u v a : List α} (hr : Accepts r b u (v ++ a))
      (hs : Accepts s (u.reverse ++ b) v a) : Accepts (.seq r s) b (u ++ v) a
  | left {r s : Regex α} {b w a : List α} (h : Accepts r b w a) : Accepts (.alt r s) b w a
  | right {r s : Regex α} {b w a : List α} (h : Accepts s b w a) : Accepts (.alt r s) b w a
  | stop {g : Bool} {r : Regex α} {b a : List α} : Accepts (.star g r) b [] a
  | more {g : Bool} {r : Regex α} {b u v a : List α} (hr : Accepts r b u (v ++ a))
      (hs : Accepts (.star g r) (u.reverse ++ b) v a) : Accepts (.star g r) b (u ++ v) a
  | group {n : Nat} {r : Regex α} {b w a : List α} (h : Accepts r b w a) :
      Accepts (.group n r) b w a

variable {p q : Place α} {g h : Groups α}

section Sound

/-- `q` lies behind `p` by the text `w`. -/
def Place.Ahead (p : Place α) (w : List α) (q : Place α) : Prop :=
  p.after = w ++ q.after ∧ q.before = w.reverse ++ p.before

theorem Place.Ahead.refl (p : Place α) : p.Ahead [] p := ⟨rfl, rfl⟩

theorem Place.Ahead.trans {t : Place α} {u v : List α} (hu : p.Ahead u q) (hv : q.Ahead v t) :
    p.Ahead (u ++ v) t := by
  refine ⟨?_, ?_⟩
  · rw [hu.1, hv.1, append_assoc]
  · rw [hv.2, hu.2, reverse_append, append_assoc]

theorem Place.Ahead.upTo_eq {w : List α} (h : p.Ahead w q) : p.upTo q = w := by
  rw [Place.upTo, h.1, length_append, Nat.add_sub_cancel, take_left]

theorem mem_iterate_succ {f : Place α → Groups α → List (Place α × Groups α)} {fuel : Nat}
    {x : Place α × Groups α} (hm : x ∈ iterate f greedy (fuel + 1) p g) :
    x = (p, g) ∨ ∃ q h, (q, h) ∈ f p g ∧ (x ∈ iterate f greedy fuel q h ∨ x = (q, h)) := by
  have hcases : x = (p, g) ∨ x ∈ (f p g).flatMap fun (q, h) =>
      if q.after.length < p.after.length then iterate f greedy fuel q h else [(q, h)] := by
    simp only [iterate] at hm
    split at hm
    · rcases mem_append.mp hm with hm | hm
      · exact .inr hm
      · exact .inl (mem_singleton.mp hm)
    · exact mem_cons.mp hm
  refine hcases.imp_right fun hm => ?_
  obtain ⟨⟨q, h⟩, hfirst, hrest⟩ := mem_flatMap.mp hm
  refine ⟨q, h, hfirst, ?_⟩
  simp only at hrest
  split at hrest
  · exact .inl hrest
  · exact .inr (mem_singleton.mp hrest)

theorem mem_iterate {f : Place α → Groups α → List (Place α × Groups α)} {g : Bool} {r : Regex α}
    (hf : ∀ p g q h, (q, h) ∈ f p g → ∃ w, p.Ahead w q ∧ Accepts r p.before w q.after) :
    ∀ fuel p h q k, (q, k) ∈ iterate f g fuel p h →
      ∃ w, p.Ahead w q ∧ Accepts (.star g r) p.before w q.after := by
  intro fuel
  induction fuel with
  | zero =>
    intro p h q k hm
    obtain ⟨rfl, rfl⟩ := Prod.mk.inj (mem_singleton.mp hm)
    exact ⟨[], Place.Ahead.refl _, .stop⟩
  | succ fuel ih =>
    intro p h q k hm
    rcases mem_iterate_succ hm with he | ⟨m, j, hfirst, hrest⟩
    · obtain ⟨rfl, rfl⟩ := Prod.mk.inj he
      exact ⟨[], Place.Ahead.refl _, .stop⟩
    · obtain ⟨u, hu, hacc⟩ := hf p h m j hfirst
      have hlast : ∃ v, m.Ahead v q ∧ Accepts (.star g r) m.before v q.after := by
        rcases hrest with hrest | hrest
        · exact ih m j q k hrest
        · obtain ⟨rfl, rfl⟩ := Prod.mk.inj hrest
          exact ⟨[], Place.Ahead.refl _, .stop⟩
      obtain ⟨v, hv, hstar⟩ := hlast
      refine ⟨u ++ v, hu.trans hv, .more (hv.1 ▸ hacc) (hu.2 ▸ hstar)⟩

/-- What a way takes is accepted. -/
theorem mem_run {r : Regex α} (hm : (q, h) ∈ r.run p g) :
    ∃ w, p.Ahead w q ∧ Accepts r p.before w q.after := by
  induction r generalizing p q g h with
  | empty =>
    obtain ⟨rfl, rfl⟩ := Prod.mk.inj (mem_singleton.mp hm)
    exact ⟨[], Place.Ahead.refl _, .empty⟩
  | set =>
    obtain ⟨b, a⟩ := p
    cases a with
    | nil => cases hm
    | cons c =>
      simp only [Regex.run] at hm
      split at hm
      case isTrue hc =>
        obtain ⟨rfl, rfl⟩ := Prod.mk.inj (mem_singleton.mp hm)
        exact ⟨[c], ⟨rfl, rfl⟩, .set hc⟩
      case isFalse => cases hm
  | look =>
    simp only [Regex.run] at hm
    split at hm
    case isTrue hc =>
      obtain ⟨rfl, rfl⟩ := Prod.mk.inj (mem_singleton.mp hm)
      exact ⟨[], Place.Ahead.refl _, .look hc⟩
    case isFalse => cases hm
  | seq r s ihr ihs =>
    obtain ⟨⟨m, j⟩, hr, hs⟩ := mem_flatMap.mp hm
    obtain ⟨u, hu, hacc⟩ := ihr hr
    obtain ⟨v, hv, hacc'⟩ := ihs hs
    exact ⟨u ++ v, hu.trans hv, .seq (hv.1 ▸ hacc) (hu.2 ▸ hacc')⟩
  | alt r s ihr ihs =>
    rcases mem_append.mp hm with hm | hm
    · obtain ⟨w, hw, hacc⟩ := ihr hm
      exact ⟨w, hw, .left hacc⟩
    · obtain ⟨w, hw, hacc⟩ := ihs hm
      exact ⟨w, hw, .right hacc⟩
  | star greedy r ih => exact mem_iterate (fun p g q h hm => ih hm) _ p g q h hm
  | group n r ih =>
    obtain ⟨⟨m, j⟩, hr, he⟩ := mem_map.mp hm
    obtain ⟨rfl, rfl⟩ := Prod.mk.inj he
    obtain ⟨w, hw, hacc⟩ := ih hr
    exact ⟨w, hw, .group hacc⟩

theorem accepts_of_mem_run {r : Regex α} {b w a : List α}
    (hm : (⟨w.reverse ++ b, a⟩, h) ∈ r.run ⟨b, w ++ a⟩ g) : Accepts r b w a := by
  obtain ⟨u, ⟨hafter, -⟩, hacc⟩ := mem_run hm
  obtain rfl : u = w := append_cancel_right hafter.symm
  exact hacc

end Sound

section Complete

/-- A repetition reaches what its rounds reach, given one unit of fuel for every
symbol that is left. -/
theorem exists_iterate {r : Regex α}
    (hrun : ∀ b w a g, Accepts r b w a → ∃ k, (⟨w.reverse ++ b, a⟩, k) ∈ r.run ⟨b, w ++ a⟩ g)
    {b w a : List α} (h : Accepts (.star greedy r) b w a) :
    ∀ (fuel : Nat) (g : Groups α), (w ++ a).length ≤ fuel →
      ∃ k, (⟨w.reverse ++ b, a⟩, k) ∈ iterate r.run greedy fuel ⟨b, w ++ a⟩ g := by
  generalize hs : Regex.star greedy r = s at h
  induction h with
  | @stop =>
    intro fuel g _
    cases fuel with
    | zero => exact ⟨g, mem_singleton.mpr rfl⟩
    | succ =>
      refine ⟨g, ?_⟩
      simp only [iterate]
      split
      · exact mem_append_right _ (mem_singleton.mpr rfl)
      · exact mem_cons_self
  | @more _ _ b u v a hr hstar _ ih =>
    obtain ⟨rfl, rfl⟩ := Regex.star.inj hs
    intro fuel g hfuel
    cases u with
    | nil => exact ih rfl fuel g hfuel
    | cons c u =>
      -- a round that takes something leaves less than the fuel
      cases fuel with
      | zero => simp at hfuel
      | succ fuel =>
        obtain ⟨j, hj⟩ := hrun b (c :: u) (v ++ a) g hr
        obtain ⟨k, hk⟩ := ih rfl fuel j (by simp at hfuel ⊢; omega)
        have hmore : (⟨v.reverse ++ ((c :: u).reverse ++ b), a⟩, k) ∈
            (r.run ⟨b, (c :: u) ++ (v ++ a)⟩ g).flatMap fun (q, h) =>
              if q.after.length < ((c :: u) ++ (v ++ a)).length then iterate r.run greedy fuel q h
              else [(q, h)] := by
          refine mem_flatMap.mpr ⟨_, hj, ?_⟩
          have hlt : (v ++ a).length < ((c :: u) ++ (v ++ a)).length := by
            simp only [length_append, length_cons]
            omega
          simp only [if_pos hlt]
          exact hk
        refine ⟨k, ?_⟩
        rw [reverse_append, append_assoc, append_assoc]
        simp only [iterate]
        split
        · exact mem_append_left _ hmore
        · exact mem_cons_of_mem _ hmore
  | _ => cases hs

/-- What is accepted is taken in some way. -/
theorem exists_run {r : Regex α} {b w a : List α} (h : Accepts r b w a) (g : Groups α) :
    ∃ k, (⟨w.reverse ++ b, a⟩, k) ∈ r.run ⟨b, w ++ a⟩ g := by
  induction r generalizing b w a g with
  | empty =>
    cases h
    exact ⟨g, mem_singleton.mpr rfl⟩
  | set =>
    cases h with
    | set hc => exact ⟨g, by simp [Regex.run, hc]⟩
  | look =>
    cases h with
    | look hc => exact ⟨g, by simp [Regex.run, hc]⟩
  | seq r s ihr ihs =>
    cases h with
    | @seq _ _ _ u v _ hr hs =>
      obtain ⟨j, hj⟩ := ihr hr g
      obtain ⟨k, hk⟩ := ihs hs j
      refine ⟨k, ?_⟩
      rw [reverse_append, append_assoc, append_assoc]
      exact mem_flatMap.mpr ⟨_, hj, hk⟩
  | alt r s ihr ihs =>
    cases h with
    | left hr =>
      obtain ⟨k, hk⟩ := ihr hr g
      exact ⟨k, mem_append_left _ hk⟩
    | right hs =>
      obtain ⟨k, hk⟩ := ihs hs g
      exact ⟨k, mem_append_right _ hk⟩
  | star greedy r ih =>
    exact exists_iterate (fun b w a g h => ih h g) h _ g (Nat.le_refl _)
  | group n r ih =>
    cases h with
    | group hr =>
      obtain ⟨k, hk⟩ := ih hr g
      exact ⟨_, mem_map.mpr ⟨_, hk, rfl⟩⟩

/-- Nothing is accepted from a place exactly when there is no way to go. -/
theorem run_eq_nil_iff {r : Regex α} {b : List α} :
    r.run ⟨b, x⟩ g = [] ↔ ∀ w a, x = w ++ a → ¬ Accepts r b w a := by
  constructor
  · rintro h w a rfl hacc
    obtain ⟨k, hk⟩ := exists_run hacc g
    rw [h] at hk
    cases hk
  · intro h
    rw [eq_nil_iff_forall_not_mem]
    rintro ⟨q, k⟩ hm
    obtain ⟨w, hw, hacc⟩ := mem_run hm
    exact h w q.after hw.1 hacc

end Complete

/-! ## Expression by expression -/

section Shapes

variable {r s : Regex α} {f : α → Bool} {b w a : List α}

@[simp] theorem accepts_empty : Accepts .empty b w a ↔ w = [] :=
  ⟨fun h => by cases h; rfl, fun h => h ▸ .empty⟩

@[simp] theorem accepts_set : Accepts (.set f) b w a ↔ ∃ c, w = [c] ∧ f c = true :=
  ⟨fun h => by cases h with | set hc => exact ⟨_, rfl, hc⟩, fun ⟨_, hw, hc⟩ => hw ▸ .set hc⟩

@[simp] theorem accepts_look {g : Option α → Option α → Bool} :
    Accepts (.look g) b w a ↔ w = [] ∧ g b.head? a.head? = true :=
  ⟨fun h => by cases h with | look hc => exact ⟨rfl, hc⟩, fun ⟨hw, hc⟩ => hw ▸ .look hc⟩

theorem accepts_seq : Accepts (.seq r s) b w a ↔
    ∃ u v, w = u ++ v ∧ Accepts r b u (v ++ a) ∧ Accepts s (u.reverse ++ b) v a :=
  ⟨fun h => by cases h with | seq hr hs => exact ⟨_, _, rfl, hr, hs⟩,
    fun ⟨_, _, hw, hr, hs⟩ => hw ▸ .seq hr hs⟩

@[simp] theorem accepts_alt : Accepts (.alt r s) b w a ↔ Accepts r b w a ∨ Accepts s b w a :=
  ⟨fun h => by
    cases h with
    | left h => exact .inl h
    | right h => exact .inr h,
    fun h => h.elim .left .right⟩

@[simp] theorem accepts_group : Accepts (.group n r) b w a ↔ Accepts r b w a :=
  ⟨fun h => by cases h with | group h => exact h, .group⟩

@[simp] theorem accepts_opt : Accepts (.opt r) b w a ↔ Accepts r b w a ∨ w = [] := by
  rw [Regex.opt, accepts_alt, accepts_empty]

theorem accepts_oneOf {rs : List (Regex α)} :
    Accepts (.oneOf rs) b w a ↔ ∃ r ∈ rs, Accepts r b w a := by
  induction rs with
  | nil => simp [Regex.oneOf]
  | cons r rs ih =>
    cases rs with
    | nil => simp [Regex.oneOf]
    | cons => rw [Regex.oneOf, accepts_alt, ih]; simp

@[simp] theorem accepts_star_set {g : Bool} :
    Accepts (.star g (.set f)) b w a ↔ ∀ c ∈ w, f c = true := by
  constructor
  · intro h
    generalize hs : Regex.star g (.set f) = s at h
    induction h with
    | stop => exact nofun
    | more hr _ _ ih =>
      obtain ⟨rfl, rfl⟩ := Regex.star.inj hs
      obtain ⟨c, rfl, hc⟩ := accepts_set.mp hr
      exact forall_mem_cons.mpr ⟨hc, ih rfl⟩
    | _ => cases hs
  · intro h
    induction w generalizing b with
    | nil => exact .stop
    | cons c w ih =>
      obtain ⟨hc, hw⟩ := forall_mem_cons.mp h
      exact .more (u := [c]) (.set hc) (ih hw)

@[simp] theorem accepts_plus_set :
    Accepts (.plus (.set f)) b w a ↔ w ≠ [] ∧ ∀ c ∈ w, f c = true := by
  rw [Regex.plus, accepts_seq]
  constructor
  · rintro ⟨u, v, rfl, hu, hv⟩
    obtain ⟨c, rfl, hc⟩ := accepts_set.mp hu
    exact ⟨cons_ne_nil c v, forall_mem_cons.mpr ⟨hc, accepts_star_set.mp hv⟩⟩
  · rintro ⟨hne, hall⟩
    cases w with
    | nil => exact absurd rfl hne
    | cons c w =>
      obtain ⟨hc, hw⟩ := forall_mem_cons.mp hall
      exact ⟨[c], w, rfl, .set hc, accepts_star_set.mpr hw⟩

@[simp] theorem accepts_times_set :
    Accepts (.times (.set f) n) b w a ↔ w.length = n ∧ ∀ c ∈ w, f c = true := by
  induction n generalizing b w with
  | zero =>
    rw [Regex.times, accepts_empty, length_eq_zero_iff]
    exact ⟨fun h => ⟨h, h ▸ nofun⟩, fun h => h.1⟩
  | succ n ih =>
    rw [Regex.times, accepts_seq]
    constructor
    · rintro ⟨u, v, rfl, hu, hv⟩
      obtain ⟨c, rfl, hc⟩ := accepts_set.mp hu
      obtain ⟨hlen, hall⟩ := ih.mp hv
      exact ⟨by simp [hlen], forall_mem_cons.mpr ⟨hc, hall⟩⟩
    · rintro ⟨hlen, hall⟩
      cases w with
      | nil => cases hlen
      | cons c w =>
        obtain ⟨hc, hw⟩ := forall_mem_cons.mp hall
        exact ⟨[c], w, rfl, .set hc, ih.mpr ⟨Nat.succ.inj hlen, hw⟩⟩

end Shapes

/-! ## Groups -/

theorem lookup_iterate {f : Place α → Groups α → List (Place α × Groups α)}
    (hf : ∀ p g q h, (q, h) ∈ f p g → h.lookup n = g.lookup n) (greedy : Bool) :
    ∀ fuel p g q h, (q, h) ∈ iterate f greedy fuel p g → h.lookup n = g.lookup n := by
  intro fuel
  induction fuel with
  | zero =>
    intro p g q h hm
    obtain ⟨rfl, rfl⟩ := Prod.mk.inj (mem_singleton.mp hm)
    rfl
  | succ fuel ih =>
    intro p g q h hm
    rcases mem_iterate_succ hm with he | ⟨m, j, hfirst, hrest | hrest⟩
    · obtain ⟨rfl, rfl⟩ := Prod.mk.inj he
      rfl
    · exact (ih m j q h hrest).trans (hf p g m j hfirst)
    · obtain ⟨rfl, rfl⟩ := Prod.mk.inj hrest
      exact hf p g q h hfirst

/-- An expression leaves the groups alone that are not its own. -/
theorem lookup_run {r : Regex α} (hn : n ∉ r.groups) (hm : (q, h) ∈ r.run p g) :
    h.lookup n = g.lookup n := by
  induction r generalizing p q g h with
  | empty =>
    obtain ⟨rfl, rfl⟩ := Prod.mk.inj (mem_singleton.mp hm)
    rfl
  | set =>
    simp only [Regex.run] at hm
    split at hm
    · cases hm
    · split at hm
      · obtain ⟨rfl, rfl⟩ := Prod.mk.inj (mem_singleton.mp hm)
        rfl
      · cases hm
  | look =>
    simp only [Regex.run] at hm
    split at hm
    · obtain ⟨rfl, rfl⟩ := Prod.mk.inj (mem_singleton.mp hm)
      rfl
    · cases hm
  | seq r s ihr ihs =>
    obtain ⟨⟨m, j⟩, hr, hs⟩ := mem_flatMap.mp hm
    rw [Regex.groups, mem_append, not_or] at hn
    exact (ihs hn.2 hs).trans (ihr hn.1 hr)
  | alt r s ihr ihs =>
    rw [Regex.groups, mem_append, not_or] at hn
    exact (mem_append.mp hm).elim (ihr hn.1) (ihs hn.2)
  | star greedy r ih => exact lookup_iterate (fun p g q h hm => ih hn hm) greedy _ p g q h hm
  | group k r ih =>
    obtain ⟨⟨m, j⟩, hr, he⟩ := mem_map.mp hm
    obtain ⟨rfl, rfl⟩ := Prod.mk.inj he
    rw [Regex.groups, mem_cons, not_or] at hn
    rw [lookup_cons, beq_eq_false_iff_ne.mpr hn.1]
    exact ih hn.2 hr

/-- The first group of a sequence holds what its expression took. -/
theorem mem_run_group {r s : Regex α} {b w a : List α} (hn : n ∉ s.groups)
    (hm : (⟨w.reverse ++ b, a⟩, h) ∈ (Regex.seq (.group n r) s).run ⟨b, w ++ a⟩ g) :
    ∃ u v j, w = u ++ v ∧ (⟨u.reverse ++ b, v ++ a⟩, j) ∈ r.run ⟨b, u ++ (v ++ a)⟩ g ∧
      (⟨v.reverse ++ (u.reverse ++ b), a⟩, h) ∈ s.run ⟨u.reverse ++ b, v ++ a⟩ ((n, u) :: j) ∧
      h.lookup n = some u := by
  obtain ⟨⟨m, k⟩, hr, hs⟩ := mem_flatMap.mp hm
  obtain ⟨⟨m', j⟩, hr', he⟩ := mem_map.mp hr
  obtain ⟨rfl, rfl⟩ := Prod.mk.inj he
  obtain ⟨u, hu, -⟩ := mem_run hr'
  obtain ⟨v, hv, -⟩ := mem_run hs
  obtain ⟨mb, ma⟩ := m'
  obtain ⟨hafter, rfl⟩ := hu
  obtain ⟨rfl, -⟩ := hv
  obtain rfl : w = u ++ v := by
    have hw : w ++ a = u ++ (v ++ a) := hafter
    rw [← append_assoc] at hw
    exact append_cancel_right hw
  rw [Place.Ahead.upTo_eq ⟨hafter, rfl⟩] at hs
  rw [append_assoc] at hr'
  rw [reverse_append, append_assoc v.reverse] at hs
  refine ⟨u, v, j, rfl, hr', hs, ?_⟩
  rw [lookup_run hn hs]
  simp

theorem mem_run_opt_seq {r s k : Regex α} {x : Place α × Groups α}
    (hm : x ∈ (Regex.seq (.opt (.seq r s)) k).run p g) :
    x ∈ (Regex.seq r (.seq s k)).run p g ∨ x ∈ k.run p g := by
  simp only [Regex.run, Regex.opt, flatMap_append, mem_append, flatMap_cons,
    flatMap_nil, append_nil] at hm
  refine hm.imp_left fun hm => ?_
  rw [flatMap_assoc] at hm
  exact hm

theorem mem_run_look_seq {f : Option α → Option α → Bool} {r : Regex α} {x : Place α × Groups α}
    (hm : x ∈ (Regex.seq (.look f) r).run p g) :
    f p.before.head? p.after.head? = true ∧ x ∈ r.run p g := by
  obtain ⟨⟨q, h⟩, hq, hx⟩ := mem_flatMap.mp hm
  simp only [Regex.run] at hq
  split at hq
  case isTrue hf =>
    obtain ⟨rfl, rfl⟩ := Prod.mk.inj (mem_singleton.mp hq)
    exact ⟨hf, hx⟩
  case isFalse => cases hq

/-! ## Where a greedy repetition stops -/

/-- The expression ends in a greedy repetition of the set `f`. -/
inductive EndsGreedy (f : α → Bool) : Regex α → Prop where
  | star : EndsGreedy f (.star true (.set f))
  | seq {r s : Regex α} (h : EndsGreedy f s) : EndsGreedy f (.seq r s)
  | group {n : Nat} {r : Regex α} (h : EndsGreedy f r) : EndsGreedy f (.group n r)

/-- The text has left the set. -/
def Left (f : α → Bool) (x : List α) : Prop := ∀ c ∈ x.head?, f c = false

theorem head?_iterate_set {f : α → Bool} (fuel : Nat) (p : Place α) (g : Groups α)
    (hf : p.after.length ≤ fuel) :
    ∃ q, (iterate (Regex.set f).run true fuel p g).head? = some (q, g) ∧ Left f q.after := by
  induction fuel generalizing p with
  | zero =>
    have hnil : p.after = [] := length_eq_zero_iff.mp (Nat.le_zero.mp hf)
    exact ⟨p, rfl, by simp [Left, hnil]⟩
  | succ fuel ih =>
    obtain ⟨b, x⟩ := p
    cases x with
    | nil => exact ⟨_, rfl, by simp [Left]⟩
    | cons c x =>
      by_cases hc : f c = true
      · obtain ⟨q, hq, hleft⟩ := ih ⟨c :: b, x⟩ (by simpa using hf)
        have hrun : (Regex.set f).run ⟨b, c :: x⟩ g = [(⟨c :: b, x⟩, g)] := by simp [Regex.run, hc]
        refine ⟨q, ?_, hleft⟩
        simp only [iterate, hrun, flatMap_cons, flatMap_nil, append_nil,
          length_cons, Nat.lt_succ_self, if_true]
        rw [head?_append, hq]
        rfl
      · refine ⟨⟨b, c :: x⟩, ?_, ?_⟩
        · simp [iterate, Regex.run, hc]
        · simpa [Left] using hc

/-- The preferred way ends where the text has left the set. -/
theorem EndsGreedy.left {f : α → Bool} {r : Regex α} (hr : EndsGreedy f r)
    (hq : (r.run p g).head? = some (q, h)) : Left f q.after := by
  induction hr generalizing p q g h with
  | star =>
    obtain ⟨q', hq', hleft⟩ := head?_iterate_set (f := f) p.after.length p g (Nat.le_refl _)
    rw [Regex.run, hq'] at hq
    cases hq
    exact hleft
  | seq _ ih =>
    -- the first way of the front that can go on decides
    rw [Regex.run, head?_flatMap] at hq
    obtain ⟨⟨m, j⟩, -, hm⟩ := exists_of_findSome?_eq_some hq
    exact ih hm
  | group _ ih =>
    rw [Regex.run, head?_map] at hq
    obtain ⟨⟨m, j⟩, hm, he⟩ := Option.map_eq_some_iff.mp hq
    obtain ⟨rfl, rfl⟩ := Prod.mk.inj he
    exact ih hm

theorem EndsGreedy.plus {f : α → Bool} : EndsGreedy f (.plus (.set f)) := .seq .star

/-! ## Searching and replacing -/

/-- `m` is the first match behind `b` in `pre ++ m.text ++ m.after`. -/
structure IsFirst (r : Regex α) (b pre : List α) (m : Match α) : Prop where
  before : m.before = pre.reverse ++ b
  /-- nothing is accepted further left -/
  leftmost : ∀ u v w a, pre = u ++ v → v ≠ [] → v ++ (m.text ++ m.after) = w ++ a →
    ¬ Accepts r (u.reverse ++ b) w a
  head : (r.run ⟨m.before, m.text ++ m.after⟩ []).head? =
    some (⟨m.text.reverse ++ m.before, m.after⟩, m.groups)

theorem find_eq_none {r : Regex α} {b : List α} (h : r.find b x = none) :
    ∀ u w a, x = u ++ (w ++ a) → ¬ Accepts r (u.reverse ++ b) w a := by
  induction x generalizing b with
  | nil =>
    intro u w a hx
    obtain ⟨rfl, hwa⟩ := append_eq_nil_iff.mp hx.symm
    obtain ⟨rfl, rfl⟩ := append_eq_nil_iff.mp hwa
    unfold Regex.find at h
    split at h
    · cases h
    · next hrun => exact run_eq_nil_iff.mp hrun [] [] rfl
  | cons c x ih =>
    intro u w a hx
    unfold Regex.find at h
    split at h
    · cases h
    · next hrun =>
      cases u with
      | nil => exact run_eq_nil_iff.mp hrun w a hx
      | cons d u =>
        obtain ⟨rfl, rfl⟩ := cons.inj hx
        have := ih h u w a rfl
        simpa using this

theorem isFirst_here {r : Regex α} {b : List α} {rest : List (Place α × Groups α)}
    (h : r.run ⟨b, x⟩ [] = (q, g) :: rest) :
    x = Place.upTo ⟨b, x⟩ q ++ q.after ∧ IsFirst r b [] ⟨b, Place.upTo ⟨b, x⟩ q, q.after, g⟩ := by
  obtain ⟨w, ⟨hafter, hbefore⟩, -⟩ := mem_run (h ▸ mem_cons_self : (q, g) ∈ r.run ⟨b, x⟩ [])
  have hw : Place.upTo ⟨b, x⟩ q = w := Place.Ahead.upTo_eq ⟨hafter, hbefore⟩
  have hx : x = w ++ q.after := hafter
  have hq : q = ⟨w.reverse ++ b, q.after⟩ := by
    cases q
    exact congrArg (Place.mk · _) hbefore
  rw [hw]
  refine ⟨hx, ⟨rfl, fun u v _ _ hpre hv => ?_, ?_⟩⟩
  · exact absurd (append_eq_nil_iff.mp hpre.symm).2 hv
  · show (r.run ⟨b, w ++ q.after⟩ []).head? = some (⟨w.reverse ++ b, q.after⟩, g)
    rw [← hx, h, ← hq]
    rfl

variable {m : Match α}

theorem find_eq_some {r : Regex α} {b : List α} (h : r.find b x = some m) :
    ∃ pre, x = pre ++ (m.text ++ m.after) ∧ IsFirst r b pre m := by
  induction x generalizing b with
  | nil =>
    unfold Regex.find at h
    split at h
    · next q g rest hrun =>
      cases h
      exact ⟨[], isFirst_here hrun⟩
    · cases h
  | cons c x ih =>
    unfold Regex.find at h
    split at h
    · next q g rest hrun =>
      cases h
      exact ⟨[], isFirst_here hrun⟩
    · next hrun =>
      obtain ⟨pre, hx, hfirst⟩ := ih h
      refine ⟨c :: pre, congrArg (c :: ·) hx, ⟨?_, fun u v w a hpre hv hw => ?_, hfirst.head⟩⟩
      · rw [hfirst.before, reverse_cons, append_assoc]
        rfl
      · -- the place itself has no way to go, and the ones behind it none by induction
        cases u with
        | nil =>
          refine run_eq_nil_iff.mp hrun w a ?_
          rw [hx, ← hw]
          exact congrArg (· ++ _) hpre
        | cons d u =>
          obtain ⟨rfl, rfl⟩ := cons.inj hpre
          have := hfirst.leftmost u v w a rfl hv hw
          simpa using this

def Solid (r : Regex α) : Prop := ∀ b w a, Accepts r b w a → w ≠ []

/-- The replacement of all matches behind `b` makes `out` of `x`. -/
inductive Subst (r : Regex α) (repl : Match α → List α) : List α → List α → List α → Prop where
  | done {b x : List α} (h : ∀ u w a, x = u ++ (w ++ a) → ¬ Accepts r (u.reverse ++ b) w a) :
      Subst r repl b x x
  | next {b pre out : List α} {m : Match α} (hfirst : IsFirst r b pre m)
      (hrest : Subst r repl (m.text.reverse ++ m.before) m.after out) :
      Subst r repl b (pre ++ (m.text ++ m.after)) (pre ++ (repl m ++ out))

theorem IsFirst.mem {r : Regex α} {b : List α} (h : IsFirst r b pre m) :
    (⟨m.text.reverse ++ m.before, m.after⟩, m.groups) ∈ r.run ⟨m.before, m.text ++ m.after⟩ [] :=
  mem_of_mem_head? (Option.mem_def.mpr h.head)

theorem IsFirst.accepts {r : Regex α} {b : List α} (h : IsFirst r b pre m) :
    Accepts r m.before m.text m.after :=
  accepts_of_mem_run h.mem

theorem findAt_append (r : Regex α) (b x : List α) :
    r.findAt (b ++ x) b.length = r.find b.reverse x := by
  simp [Regex.findAt]

theorem replaceLoop_subst {r : Regex α} {repl : Match α → List α} (hr : Solid r) :
    ∀ (fuel : Nat) (b x : List α), x.length < fuel →
      Subst r repl b.reverse x (r.replaceLoop repl (b ++ x) fuel b.length b.length) := by
  intro fuel
  induction fuel with
  | zero => intro b x h; omega
  | succ fuel ih =>
    intro b x hfuel
    unfold Regex.replaceLoop
    rw [if_neg (by simp), findAt_append]
    cases hf : r.find b.reverse x with
    | none =>
      rw [drop_left]
      exact .done (find_eq_none hf)
    | some m =>
      obtain ⟨pre, rfl, hfirst⟩ := find_eq_some hf
      have hpos : 0 < m.text.length := length_pos_iff.mpr (hr _ _ _ hfirst.accepts)
      have hlo : m.before.length = (b ++ pre).length := by simp [hfirst.before, Nat.add_comm]
      have hhi : m.before.length + m.text.length = (b ++ pre ++ m.text).length := by
        simp only [hlo, length_append]
      have htake : ((b ++ (pre ++ (m.text ++ m.after))).take m.before.length).drop b.length = pre := by
        rw [hlo, ← append_assoc b pre, take_left, drop_left]
      have hnext := ih (b ++ pre ++ m.text) m.after (by simp at hfuel; omega)
      have hsplit : b ++ (pre ++ (m.text ++ m.after)) = b ++ pre ++ m.text ++ m.after := by simp
      have hbefore : (b ++ pre ++ m.text).reverse = m.text.reverse ++ m.before := by
        simp [hfirst.before]
      rw [hbefore, ← hsplit, ← hhi] at hnext
      have hlast : b.length < m.before.length + m.text.length := by
        rw [hlo, length_append]
        omega
      have hstep : ¬ m.before.length + m.text.length < b.length + 1 := by omega
      simp only [htake, if_pos (Or.inl hlast), if_neg hstep, append_assoc]
      exact .next hfirst hnext

/-- What a replacement does, match by match. -/
theorem replaceAll_subst {r : Regex α} {repl : Match α → List α} (hr : Solid r) (s : List α) :
    Subst r repl [] s (r.replaceAll repl s) :=
  replaceLoop_subst hr (s.length + 1) [] s (Nat.lt_succ_self _)

end YominsAgent.Lib
