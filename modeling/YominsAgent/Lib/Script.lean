import Mathlib.Data.List.Basic

/- Shell scripts without loops: commands, `if … fi` and `exit`, run under `set -e`. The meaning of
   the commands `κ` and of the conditions `τ` on the states `σ` is a parameter (`Shell`). A run is
   its trace, the commands it executes (`trace`); the state it leaves is the effect of the trace
   (`final_eq`), and a run that is cut off after `n` commands leaves the effect of the first `n`
   (`interrupt`). A command may be cut off as well, in a state of its own (`tear`); what holds
   whenever a run may be cut off holds `Throughout`. -/
namespace YominsAgent.Lib

inductive Script (κ τ : Type) where
  /-- The end of the script, or of a branch. -/
  | done
  | exit (code : Nat)
  | cmd (c : κ) (k : Script κ τ)
  /-- `if t; then yes; else no; fi; k` -/
  | ite (t : τ) (yes no k : Script κ τ)

/-- What commands and conditions mean. A command that fails (`none`) changes
nothing and ends a script under `set -e`. -/
structure Shell (σ κ τ : Type) where
  exec : κ → σ → Option σ
  holds : τ → σ → Bool

namespace Shell
variable {σ κ τ : Type} (sh : Shell σ κ τ)

def effect (s : σ) (c : κ) : σ := (sh.exec c s).getD s

structure Outcome (σ κ : Type) where
  trace : List κ
  final : σ
  /-- `none` when the end of the script was reached. -/
  code : Option Nat

def run : Script κ τ → σ → Outcome σ κ
  | .done, s => ⟨[], s, none⟩
  | .exit n, s => ⟨[], s, some n⟩
  | .cmd c k, s =>
    match sh.exec c s with
    | some s' => let o := run k s'; { o with trace := c :: o.trace }
    | none => ⟨[c], s, some 1⟩
  | .ite t yes no k, s =>
    let o := if sh.holds t s then run yes s else run no s
    match o.code with
    | some _ => o
    | none => let o' := run k o.final; { o' with trace := o.trace ++ o'.trace }

def trace (p : Script κ τ) (s : σ) : List κ := (sh.run p s).trace

def final (p : Script κ τ) (s : σ) : σ := (sh.run p s).final

/-- The exit status: 0 at the end of the script. -/
def status (p : Script κ τ) (s : σ) : Nat := (sh.run p s).code.getD 0

/-- The run is cut off after its first `n` commands. -/
def interrupt (p : Script κ τ) (n : Nat) (s : σ) : σ := ((sh.trace p s).take n).foldl sh.effect s

/-- The state a run leaves is the effect of its trace. -/
theorem final_eq (p : Script κ τ) (s : σ) : sh.final p s = (sh.trace p s).foldl sh.effect s := by
  unfold final trace
  induction p generalizing s with
  | done => rfl
  | exit => rfl
  | cmd c k ih =>
    unfold run
    cases h : sh.exec c s with
    | none => simp [effect, h]
    | some s' => simp [effect, h, ih s']
  | ite t yes no k ihy ihn ihk =>
    unfold run
    have ho : (if sh.holds t s then sh.run yes s else sh.run no s).final =
        (if sh.holds t s then sh.run yes s else sh.run no s).trace.foldl sh.effect s := by
      split
      · exact ihy s
      · exact ihn s
    generalize (if sh.holds t s then sh.run yes s else sh.run no s) = o at ho
    cases h : o.code with
    | some => simpa [h] using ho
    | none => simp [h, ihk, ho]

section
variable (tear : κ → σ → Option σ)

/-- The run is cut off after its first `n` commands, or, `tear` saying what the next one
leaves then, in the middle of that one. -/
def crash (p : Script κ τ) (n : Nat) (s : σ) : σ :=
  let s' := sh.interrupt p n s
  (((sh.trace p s)[n]?).bind fun c => tear c s').getD s'

/-- What holds wherever the commands may be cut off. -/
def Throughout (P : σ → Prop) (cs : List κ) (s : σ) : Prop :=
  ∀ n, P ((cs.take n).foldl sh.effect s) ∧
    ∀ c s', cs[n]? = some c → tear c ((cs.take n).foldl sh.effect s) = some s' → P s'

end

variable {sh} {tear : κ → σ → Option σ} {P : σ → Prop}

theorem Throughout.append {cs ds : List κ} {s : σ} (hcs : sh.Throughout tear P cs s)
    (hds : sh.Throughout tear P ds (cs.foldl sh.effect s)) :
    sh.Throughout tear P (cs ++ ds) s := by
  intro n
  by_cases hn : n < cs.length
  · rw [List.take_append_of_le_length (Nat.le_of_lt hn), List.getElem?_append_left hn]
    exact hcs n
  · have hle : cs.length ≤ n := Nat.le_of_not_lt hn
    rw [List.take_append, List.take_of_length_le hle, List.foldl_append,
      List.getElem?_append_right hle]
    exact hds (n - cs.length)

theorem Throughout.crash {p : Script κ τ} {s : σ} (h : sh.Throughout tear P (sh.trace p s) s)
    (n : Nat) : P (sh.crash tear p n s) := by
  obtain ⟨hcut, htorn⟩ := h n
  unfold Shell.crash Shell.interrupt
  cases hc : (sh.trace p s)[n]? with
  | none => exact hcut
  | some c =>
    cases ht : tear c (((sh.trace p s).take n).foldl sh.effect s) with
    | none => simpa [ht] using hcut
    | some s' => simpa [ht] using htorn c s' hc ht

theorem Throughout.final {p : Script κ τ} {s : σ} (h : sh.Throughout tear P (sh.trace p s) s) :
    P (sh.final p s) := by
  have hcut := (h (sh.trace p s).length).1
  rw [List.take_length] at hcut
  rw [final_eq]
  exact hcut

end Shell

end YominsAgent.Lib
