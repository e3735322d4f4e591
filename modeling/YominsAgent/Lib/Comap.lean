import YominsAgent.Lib.Regexp

/- Regular expressions over another alphabet: `r.comap ch` reads a symbol as the symbol `ch` makes
   of it. Symbols may so carry more than the expression sees, for instance where they come from, and
   a replacement over them shows what the replacement over the plain text gives (`map_replaceAll`). -/
namespace YominsAgent.Lib

open List Option

variable {α β : Type} (ch : β → α) {r : Regex α} {repl' : Match β → List β}

def Place.map (p : Place β) : Place α := ⟨p.before.map ch, p.after.map ch⟩

def Groups.map (g : Groups β) : Groups α := List.map (fun (n, w) => (n, w.map ch)) g

def Match.map (m : Match β) : Match α :=
  ⟨m.before.map ch, m.text.map ch, m.after.map ch, Groups.map ch m.groups⟩

/-- A way and its groups, as `ch` shows them. -/
def shownWay (x : Place β × Groups β) : Place α × Groups α :=
  (x.1.map ch, Groups.map ch x.2)

namespace Regex

def comap : Regex α → Regex β
  | .empty => .empty
  | .set f => .set fun c => f (ch c)
  | .look f => .look fun x y => f (x.map ch) (y.map ch)
  | .seq r s => .seq r.comap s.comap
  | .alt r s => .alt r.comap s.comap
  | .star greedy r => .star greedy r.comap
  | .group n r => .group n r.comap

end Regex

theorem lookup_map (g : Groups β) (n : Nat) :
    (Groups.map ch g).lookup n = (g.lookup n).map (List.map ch) := by
  induction g with
  | nil => rfl
  | cons x g ih =>
    rw [Groups.map, map_cons, lookup_cons, lookup_cons]
    split
    · rfl
    · exact ih

theorem group_map (m : Match β) (n : Nat) : (m.map ch).group n = (m.group n).map ch := by
  rw [Match.group, Match.map, lookup_map, Match.group]
  cases m.groups.lookup n <;> rfl

theorem map_upTo (p q : Place β) : (p.upTo q).map ch = (p.map ch).upTo (q.map ch) := by
  simp [Place.upTo, Place.map, map_take]

theorem map_iterate {f : Place β → Groups β → List (Place β × Groups β)}
    {f' : Place α → Groups α → List (Place α × Groups α)}
    (hf : ∀ p g, (f p g).map (shownWay ch) = f' (p.map ch) (Groups.map ch g)) (greedy : Bool) :
    ∀ fuel p g, (iterate f greedy fuel p g).map (shownWay ch) =
      iterate f' greedy fuel (p.map ch) (Groups.map ch g) := by
  intro fuel
  induction fuel with
  | zero => intro p g; rfl
  | succ fuel ih =>
    intro p g
    have hmore : ((f p g).flatMap fun x =>
          if x.1.after.length < p.after.length then iterate f greedy fuel x.1 x.2 else [x]).map
          (shownWay ch) =
        (f' (p.map ch) (Groups.map ch g)).flatMap fun x =>
          if x.1.after.length < (p.map ch).after.length then iterate f' greedy fuel x.1 x.2
          else [x] := by
      rw [← hf, map_flatMap, flatMap_map]
      refine flatMap_congr fun x _ => ?_
      have hlen : ∀ t : Place β, (t.map ch).after.length = t.after.length := fun t =>
        length_map ch
      simp only [shownWay, hlen]
      split
      · exact ih x.1 x.2
      · rfl
    simp only [iterate_succ]
    split
    · rw [map_append, hmore]
      rfl
    · rw [map_cons, hmore]
      rfl

/-- Over the other alphabet an expression goes the same ways. -/
theorem map_run (r : Regex α) (p : Place β) (g : Groups β) :
    ((r.comap ch).run p g).map (shownWay ch) = r.run (p.map ch) (Groups.map ch g) := by
  induction r generalizing p g with
  | empty => rfl
  | set =>
    obtain ⟨b, a⟩ := p
    cases a with
    | nil => rfl
    | cons =>
      simp only [Regex.comap, Regex.run, Place.map, List.map_cons]
      split <;> rfl
  | look =>
    obtain ⟨b, a⟩ := p
    simp only [Regex.comap, Regex.run, Place.map, List.head?_map]
    split <;> rfl
  | seq r s ihr ihs =>
    simp only [Regex.comap, Regex.run]
    rw [← ihr, List.map_flatMap, List.flatMap_map]
    exact List.flatMap_congr fun x _ => ihs x.1 x.2
  | alt r s ihr ihs => simp only [Regex.comap, Regex.run, List.map_append, ihr, ihs]
  | star greedy r ih =>
    have hlen : (p.map ch).after.length = p.after.length := List.length_map ch
    simp only [Regex.comap, Regex.run, hlen]
    exact map_iterate ch ih greedy _ p g
  | group n r ih =>
    simp only [Regex.comap, Regex.run]
    rw [← ih, List.map_map, List.map_map]
    refine List.map_congr_left fun x _ => ?_
    simp only [Function.comp_apply, shownWay, Groups.map, List.map_cons, map_upTo ch]

/-- The preferred match at the place itself. -/
def Regex.here (r : Regex α) (b x : List α) : Option (Match α) :=
  (r.run ⟨b, x⟩ []).head?.map fun y => ⟨b, Place.upTo ⟨b, x⟩ y.1, y.1.after, y.2⟩

theorem find_nil (r : Regex α) (b : List α) : r.find b [] = r.here b [] := by
  unfold Regex.find Regex.here
  cases r.run ⟨b, []⟩ [] <;> rfl

theorem find_cons (r : Regex α) (b x : List α) (c : α) :
    r.find b (c :: x) = (r.here b (c :: x)).or (r.find (c :: b) x) := by
  rw [Regex.find, Regex.here]
  cases r.run ⟨b, c :: x⟩ [] <;> rfl

theorem map_here (r : Regex α) (b x : List β) :
    ((r.comap ch).here b x).map (Match.map ch) = r.here (b.map ch) (x.map ch) := by
  have hrun : (r.run ⟨b.map ch, x.map ch⟩ []).head? =
      ((r.comap ch).run ⟨b, x⟩ []).head?.map (shownWay ch) := by
    rw [← List.head?_map]
    exact congrArg List.head? (map_run ch r ⟨b, x⟩ []).symm
  rw [Regex.here, Regex.here, hrun, Option.map_map, Option.map_map]
  refine Option.map_congr fun y _ => ?_
  have hup := map_upTo ch ⟨b, x⟩ y.1
  simp only [Function.comp_apply, Match.map, shownWay, hup]
  rfl

theorem map_find (r : Regex α) (b x : List β) :
    ((r.comap ch).find b x).map (Match.map ch) = r.find (b.map ch) (x.map ch) := by
  induction x generalizing b with
  | nil =>
    rw [find_nil, map_here ch, map_nil, find_nil]
  | cons c x ih =>
    have hrest := ih (c :: b)
    rw [map_cons] at hrest
    rw [find_cons, map_or, map_here ch, hrest, map_cons, find_cons]

theorem map_replaceLoop {repl : Match α → List α}
    (hrepl : ∀ b x m, (r.comap ch).find b x = some m → (repl' m).map ch = repl (m.map ch))
    (s : List β) :
    ∀ fuel pos last, ((r.comap ch).replaceLoop repl' s fuel pos last).map ch =
      r.replaceLoop repl (s.map ch) fuel pos last := by
  intro fuel
  induction fuel with
  | zero =>
    intro pos last
    exact map_drop
  | succ fuel ih =>
    intro pos last
    have hfind := map_find ch r (s.take pos).reverse (s.drop pos)
    rw [map_reverse, map_take, map_drop] at hfind
    simp only [Regex.replaceLoop, length_map]
    split
    · exact map_drop
    · rw [Regex.findAt, Regex.findAt, ← hfind]
      cases hm : (r.comap ch).find (s.take pos).reverse (s.drop pos) with
      | none => exact map_drop
      | some m =>
        have hlo : (m.map ch).before.length = m.before.length := length_map ch
        have hlen : (m.map ch).text.length = m.text.length := length_map ch
        simp only [map_some, hlo, hlen, map_append, ih, map_drop, map_take]
        split
        · rw [hrepl _ _ m hm]
        · rfl

/-- A replacement over the other alphabet shows the replacement over the plain
text. -/
theorem map_replaceAll {repl : Match α → List α}
    (hrepl : ∀ b x m, (r.comap ch).find b x = some m → (repl' m).map ch = repl (m.map ch))
    (s : List β) : ((r.comap ch).replaceAll repl' s).map ch = r.replaceAll repl (s.map ch) := by
  rw [Regex.replaceAll, map_replaceLoop ch hrepl, Regex.replaceAll, length_map]

/-! ## What is accepted -/

/-- The other alphabet changes nothing about what is accepted. -/
theorem accepts_comap {b w a : List β} :
    Accepts (r.comap ch) b w a ↔ Accepts r (b.map ch) (w.map ch) (a.map ch) := by
  have hrun := map_run ch r ⟨b, w ++ a⟩ []
  constructor
  · intro h
    obtain ⟨k, hk⟩ := exists_run h []
    have hmem := mem_map_of_mem (f := shownWay ch) hk
    rw [hrun] at hmem
    obtain ⟨w', ⟨hafter, -⟩, hacc⟩ := mem_run hmem
    have htext : w.map ch ++ a.map ch = w' ++ a.map ch := by
      rw [← map_append]
      exact hafter
    rw [append_cancel_right htext]
    exact hacc
  · intro h
    obtain ⟨k, hk⟩ := exists_run h []
    rw [← map_append] at hk
    have hmem : (⟨(w.map ch).reverse ++ b.map ch, a.map ch⟩, k) ∈
        ((r.comap ch).run ⟨b, w ++ a⟩ []).map (shownWay ch) := by
      rw [hrun]
      exact hk
    obtain ⟨⟨q, j⟩, hq, he⟩ := mem_map.mp hmem
    obtain ⟨w', ⟨hafter, -⟩, hacc⟩ := mem_run hq
    have hlen : q.after.length = a.length := by
      have := congrArg (fun x : Place α × Groups α => x.1.after.length) he
      simpa [shownWay, Place.map] using this
    obtain ⟨rfl, hqa⟩ := append_inj' (show w ++ a = w' ++ q.after from hafter) hlen.symm
    rw [← hqa] at hacc
    exact hacc

theorem Solid.comap (h : Solid r) : Solid (r.comap ch) := by
  intro b w a hacc hw
  exact h _ _ _ ((accepts_comap ch).mp hacc) (by rw [hw, map_nil])

theorem EndsGreedy.comap {f : α → Bool} (h : EndsGreedy f r) :
    EndsGreedy (fun c => f (ch c)) (r.comap ch) := by
  induction h with
  | star => exact .star
  | seq _ ih => exact .seq ih
  | group _ ih => exact .group ih

end YominsAgent.Lib
