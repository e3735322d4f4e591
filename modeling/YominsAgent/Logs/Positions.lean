import YominsAgent.Go.Strings
import YominsAgent.Lib.Cursor

/- The delivered positions (`positions.go`).

   Correspondence (Go ↔ Lean):
     `File`, `SetFile`, `Forget`   ↔ `Positions.files`, `setFile`, `forget`
     the file `log_positions.json` ↔ `Saved`
     `Save` up to the unlock       ↔ `beginSave`
   What follows in `Save` is one rename: it replaces the file, or it does not. -/
namespace YominsAgent.Logs
open Go Lib

abbrev Inode := Nat

/-- `Position`: the inode and the offset. -/
abbrev Position := Inode × Nat

/-- What the positions file holds. -/
structure Saved where
  files : Table Str Inode
  journal : Str

structure Positions where
  files : Table Str Inode
  journal : Str
  dirty : Bool

namespace Positions

/-- `LoadPositions`. -/
def load (saved : Saved) : Positions :=
  { files := saved.files, journal := saved.journal, dirty := false }

/-- `SetFile`. A path without a position reads as the zero `Position`. -/
def setFile (q : Positions) (p : Str) (pos : Position) : Positions :=
  if (q.files p).getD (0, 0) ≠ pos then
    { q with files := Cursors.set q.files p (some pos), dirty := true }
  else q

def forget (q : Positions) (p : Str) : Positions :=
  if (q.files p).isSome then { q with files := Cursors.set q.files p none, dirty := true } else q

def setJournalCursor (q : Positions) (c : Str) : Positions :=
  if q.journal ≠ c then { q with journal := c, dirty := true } else q

/-- `Save` under its lock: what it will write, if anything. -/
def beginSave (stateDir : Str) (q : Positions) : Option Saved × Positions :=
  if !q.dirty || stateDir.isEmpty then (none, q)
  else (some ⟨q.files, q.journal⟩, { q with dirty := false })

variable {q : Positions} {p r : Str} {pos : Position}

/-- A table whose value at `p` is set to what it was is the same table. -/
theorem set_self {f : Table Str Inode} {x : Option Position} (h : f p = x) :
    Cursors.set f p x = f := by
  funext r
  unfold Cursors.set
  split
  · next hr => rw [hr, h]
  · rfl

/-- The zero position of a path without one is not recorded. -/
theorem setFile_files (q : Positions) (p : Str) (pos : Position) :
    (q.setFile p pos).files = Cursors.set q.files p (some pos) ∨
      (q.setFile p pos).files = q.files ∧ q.files p = none := by
  unfold setFile
  split
  · exact .inl rfl
  · next h =>
    have heq : (q.files p).getD (0, 0) = pos := not_not.mp h
    cases hp : q.files p with
    | none => exact .inr ⟨rfl, rfl⟩
    | some =>
      rw [hp] at heq
      exact .inl (set_self (hp.trans (congrArg some heq))).symm

theorem setFile_other (h : r ≠ p) : (q.setFile p pos).files r = q.files r := by
  rcases setFile_files q p pos with he | ⟨he, -⟩ <;> rw [he]
  exact if_neg h

/-- After `SetFile` the path has that position, or still none. -/
theorem setFile_self (q : Positions) (p : Str) (pos : Position) :
    (q.setFile p pos).files p = some pos ∨ (q.setFile p pos).files p = none := by
  rcases setFile_files q p pos with he | ⟨he, hn⟩ <;> rw [he]
  · exact .inl (if_pos rfl)
  · exact .inr hn

theorem setFile_eq_some {x : Position} (h : (q.setFile p pos).files r = some x) :
    q.files r = some x ∨ r = p ∧ x = pos := by
  by_cases hr : r = p
  · subst hr
    rcases setFile_self q r pos with hset | hset
    · exact .inr ⟨rfl, Option.some.inj (h.symm.trans hset)⟩
    · cases hset.symm.trans h
  · exact .inl ((setFile_other hr).symm.trans h)

theorem setFile_isSome (h : pos ≠ (0, 0)) : ((q.setFile p pos).files p).isSome = true := by
  unfold setFile
  split
  · simp [Cursors.set]
  · next heq =>
    cases hp : q.files p with
    | none =>
      rw [hp] at heq
      exact absurd (not_not.mp heq).symm h
    | some => rfl

theorem setFile_mono (h : (q.files r).isSome = true) :
    ((q.setFile p pos).files r).isSome = true := by
  rcases setFile_files q p pos with he | ⟨he, -⟩
  · rw [he]
    unfold Cursors.set
    split
    · rfl
    · exact h
  · rwa [he]

theorem forget_files (q : Positions) (p : Str) :
    (q.forget p).files = Cursors.set q.files p none := by
  unfold forget
  split
  · rfl
  · next h => exact (set_self (by simpa using h)).symm

@[simp] theorem setJournalCursor_files (q : Positions) (c : Str) :
    (q.setJournalCursor c).files = q.files := by
  unfold setJournalCursor
  split <;> rfl

@[simp] theorem beginSave_files (stateDir : Str) (q : Positions) :
    (q.beginSave stateDir).2.files = q.files := by
  unfold beginSave
  split <;> rfl

theorem beginSave_eq_some {stateDir : Str} {t : Saved} (h : (q.beginSave stateDir).1 = some t) :
    t.files = q.files := by
  unfold beginSave at h
  split at h
  · cases h
  · cases h; rfl

end Positions

end YominsAgent.Logs
