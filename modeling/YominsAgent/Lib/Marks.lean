import YominsAgent.Lib.Comap
import YominsAgent.Lib.Rewriting

/- Texts whose symbols know where they come from.

   A mark is a symbol of the original text that is still there, or one that was put
   in the place of a piece of it. What a marked text shows is the edited text, and
   the pieces it stands for make up the original (`source`). A replacement keeps
   that when each match is replaced by marks with the same source. -/
namespace YominsAgent.Lib

variable {α : Type}

inductive Mark (α : Type) where
  | kept (c : α)
  | put (c : α) (hides : List α)
  deriving DecidableEq

namespace Mark

def shown : Mark α → α
  | kept c => c
  | put c _ => c

/-- The piece of the original a mark stands for. -/
def source : Mark α → List α
  | kept c => [c]
  | put _ hides => hides

@[simp] theorem shown_kept (c : α) : (kept c).shown = c := rfl
@[simp] theorem shown_put (c : α) (h : List α) : (put c h).shown = c := rfl
@[simp] theorem source_kept (c : α) : (kept c).source = [c] := rfl

end Mark

def source (t : List (Mark α)) : List α := t.flatMap Mark.source

def mark (s : List α) : List (Mark α) := s.map .kept

/-- The text `ins` in the place of `hidden`. -/
def standIn (ins : List α) (hidden : List (Mark α)) : List (Mark α) :=
  match ins with
  | [] => []
  | c :: ins => .put c (source hidden) :: ins.map (.put · [])

section Marks

variable {s : List α} {t u : List (Mark α)} {x : Mark α}

@[simp] theorem source_nil : source ([] : List (Mark α)) = [] := rfl
@[simp] theorem source_cons : source (x :: t) = x.source ++ source t := rfl
@[simp] theorem source_append : source (t ++ u) = source t ++ source u := List.flatMap_append

@[simp] theorem source_mark : source (mark s) = s := by
  induction s with
  | nil => rfl
  | cons c s ih => exact congrArg (c :: ·) ih

@[simp] theorem shown_mark : (mark s).map Mark.shown = s := by
  simp [mark, Function.comp_def]

@[simp] theorem shown_standIn {ins : List α} : (standIn ins t).map Mark.shown = ins := by
  cases ins with
  | nil => rfl
  | cons => simp [standIn, Function.comp_def]

@[simp] theorem source_standIn {c : α} {ins : List α} : source (standIn (c :: ins) t) = source t := by
  have hrest : source (ins.map (Mark.put · [])) = [] := by
    induction ins with
    | nil => rfl
    | cons d ins ih => exact ih
  rw [standIn, source_cons, hrest, List.append_nil]
  rfl

theorem source_eq_shown (h : ∀ x ∈ t, ∃ c, x = .kept c) : source t = t.map Mark.shown := by
  induction t with
  | nil => rfl
  | cons x t ih =>
    rw [List.forall_mem_cons] at h
    obtain ⟨⟨c, rfl⟩, h⟩ := h
    exact congrArg (c :: ·) (ih h)

end Marks

theorem Pieces.source {r : Regex (Mark α)} {repl : Match (Mark α) → List (Mark α)}
    (h : ∀ b pre m, IsFirst r b pre m → source (repl m) = source m.text) :
    Pieces r repl fun t u => source u = source t where
  refl _ := rfl
  append hu hv := by rw [source_append, source_append, hu, hv]
  first hm := h _ _ _ hm

theorem Subst.source_eq {r : Regex (Mark α)} {repl : Match (Mark α) → List (Mark α)}
    (h : ∀ b pre m, IsFirst r b pre m → source (repl m) = source m.text) {b t u : List (Mark α)}
    (hsub : Subst r repl b t u) : source u = source t := by
  have hrel := hsub.rel (Pieces.source h)
  exact hrel

end YominsAgent.Lib
