import YominsAgent.Lib.Script
import YominsAgent.Go.Strings

/- `systemd/apply-upgrade.sh`, line by line. The script and the agent share the upgrade directory; a
   file is its content and its mode, the disk says which of the paths the script names exist.

   `refresh_unit` reads and writes files outside the modelled paths (the unit, the helper, a
   temporary directory); only whether it changed the unit matters to the rest of the script, and
   that is a parameter of the shell. The helper it installs is taken to be this script.

   What each path of the script leaves is said once here (`trace_*`, `apply_disk`, `rollback_disk`);
   the protocol and the crash analysis only use that. -/
namespace YominsAgent.Upgrade
open Go Lib

abbrev Data := List UInt8

structure File where
  data : Data
  mode : Nat
  deriving DecidableEq, Repr

inductive Path where
  | binary
  | backup
  | pending
  | new
  | applied
  | committed
  /-- `${BINARY}.new` -/
  | binaryNew
  /-- `${BINARY}.rollback` -/
  | binaryRollback
  deriving DecidableEq, Repr

abbrev Disk := Path → Option File

/-- The disk, and of the shell its variable `version` and what it logged. -/
structure Host where
  disk : Disk
  version : Data := []
  stderr : List Data := []

def utf8 (s : String) : Data := s.toUTF8.toList

inductive Cmd where
  | cp (src dst : Path)
  /-- `chmod 755` -/
  | chmod (p : Path)
  | mv (src dst : Path)
  /-- `rm -f` -/
  | rm (ps : List Path)
  | touch (p : Path)
  /-- `version=$(cat "$p" 2>/dev/null || echo unknown)` -/
  | readVersion (p : Path)
  | log (msg : String)
  /-- `log "applying upgrade (pending=${version})"` -/
  | logApplying
  deriving DecidableEq, Repr

inductive Test where
  /-- `[ -f p ]` -/
  | isFile (p : Path)
  | not (t : Test)
  | and (t u : Test)
  /-- `refresh_unit "$version"` -/
  | refreshUnit

/-- The bits a new file does not get (root's umask). -/
def umask : Nat := 0o022

/-- `cp` writes into an existing file, or makes one with the source's mode. -/
def copied (src : File) : Option File → File
  | some old => { old with data := src.data }
  | none => { data := src.data, mode := src.mode &&& (0o777 - umask) }

@[simp] theorem copied_data (src : File) (old : Option File) :
    (copied src old).data = src.data := by
  cases old <;> rfl

/-- `$(…)`: the output without its trailing newlines. -/
def commandOutput (d : Data) : Data := (d.reverse.dropWhile (· == 10)).reverse

def Disk.set (d : Disk) (p : Path) (f : Option File) : Disk := fun q => if q = p then f else d q

def exec (c : Cmd) (h : Host) : Option Host :=
  match c with
  | .cp src dst => (h.disk src).map fun f =>
      { h with disk := h.disk.set dst (some (copied f (h.disk dst))) }
  | .chmod p => (h.disk p).map fun f =>
      { h with disk := h.disk.set p (some { f with mode := 0o755 }) }
  | .mv src dst => (h.disk src).map fun f =>
      { h with disk := (h.disk.set dst (some f)).set src none }
  | .rm ps => some { h with disk := fun q => if q ∈ ps then none else h.disk q }
  | .touch p => some { h with
      disk := h.disk.set p (some ((h.disk p).getD ⟨[], 0o666 &&& (0o777 - umask)⟩)) }
  | .readVersion p => some { h with
      version := commandOutput (((h.disk p).map File.data).getD (utf8 "unknown\n")) }
  | .log msg => some { h with stderr := h.stderr ++ [utf8 ("apply-upgrade: " ++ msg ++ "\n")] }
  | .logApplying => some { h with stderr := h.stderr ++
      [utf8 "apply-upgrade: applying upgrade (pending=" ++ h.version ++ utf8 ")\n"] }

/-- The paths a command may change. -/
def Cmd.touches : Cmd → List Path
  | .cp _ dst => [dst]
  | .chmod p => [p]
  | .mv src dst => [src, dst]
  | .rm ps => ps
  | .touch p => [p]
  | .readVersion _ | .log _ | .logApplying => []

def holds (refreshed : Bool) : Test → Host → Bool
  | .isFile p, h => (h.disk p).isSome
  | .not t, h => !holds refreshed t h
  | .and t u, h => holds refreshed t h && holds refreshed u h
  | .refreshUnit, _ => refreshed

/-- The shell of one execution, in which `refresh_unit` changes the unit or not. -/
def shell (refreshed : Bool) : Shell Host Cmd Test := ⟨exec, holds refreshed⟩

/-- The apply path, from `version=…` on. -/
def applyUpgrade : Script Cmd Test :=
  .cmd (.readVersion .pending) <|
  .ite .refreshUnit
    (.cmd (.log "restarting under the new unit") <|
     .exit 1)
    .done <|
  .cmd .logApplying <|
  .cmd (.cp .binary .backup) <|
  .cmd (.cp .new .binaryNew) <|
  .cmd (.chmod .binaryNew) <|
  .cmd (.mv .binaryNew .binary) <|
  .cmd (.rm [.pending, .new]) <|
  .cmd (.touch .applied) <|
  .cmd (.log "upgrade applied, binary replaced — waiting for agent to commit")
  .done

def rollBack : Script Cmd Test :=
  .cmd (.log "rolling back failed upgrade") <|
  .ite (.isFile .backup)
    (.cmd (.cp .backup .binaryRollback) <|
     .cmd (.chmod .binaryRollback) <|
     .cmd (.mv .binaryRollback .binary) <|
     .cmd (.log "rollback complete")
     .done)
    (.cmd (.log
      "WARNING: no backup found, cannot roll back — manual intervention required")
     .done) <|
  .cmd (.rm [.applied, .pending, .new, .backup]) <|
  .exit 0

/-- The main part of `apply-upgrade.sh`. -/
def applyUpgradeSh : Script Cmd Test :=
  .ite (.and (.and (.not (.isFile .pending)) (.not (.isFile .applied)))
      (.not (.isFile .committed)))
    (.exit 0)
    .done <|
  .ite (.and (.isFile .applied) (.not (.isFile .committed)))
    rollBack
    .done <|
  .ite (.isFile .committed)
    (.cmd (.rm [.applied, .committed, .backup])
     .done)
    .done <|
  .ite (.isFile .pending)
    (.ite (.not (.isFile .new))
      (.cmd (.log "pending marker exists but staged binary is missing — skipping") <|
       .cmd (.rm [.pending]) <|
       .exit 0)
      .done
     applyUpgrade)
    .done
  .done

/-! ## What an execution does -/

/-- What the protocol is about: the contents of the binary, of its backup and of
the staged binary, and which markers are set. -/
structure View where
  binary : Option Data
  backup : Option Data
  new : Option Data
  pending : Bool
  applied : Bool
  committed : Bool
  deriving DecidableEq, Repr

def view (d : Disk) : View :=
  { binary := (d .binary).map File.data
    backup := (d .backup).map File.data
    new := (d .new).map File.data
    pending := (d .pending).isSome
    applied := (d .applied).isSome
    committed := (d .committed).isSome }

namespace View

/-- An upgrade was applied and nobody has committed it. -/
def uncommitted (v : View) : Bool := v.applied && !v.committed

/-- After the housekeeping of a committed upgrade. -/
def housekept (v : View) : View :=
  if v.committed then { v with applied := false, committed := false, backup := none } else v

def rolledBack (v : View) : View :=
  { v with binary := v.backup.or v.binary, backup := none, new := none, pending := false,
           applied := false }

/-- The staged binary `b` is installed over the present one. -/
def upgraded (v : View) (b : Data) : View :=
  { v with binary := some b, backup := v.binary, new := none, pending := false, applied := true }

/-- A complete execution of the script, without its intermediate steps: what it
leaves and its exit status. -/
def script (refreshed : Bool) (v : View) : View × Nat :=
  if v.uncommitted then (v.rolledBack, 0)
  else if v.pending then
    match v.new with
    | none => ({ v.housekept with pending := false }, 0)
    | some b => if refreshed then (v.housekept, 1) else (v.housekept.upgraded b, 0)
  else (v.housekept, 0)

def applies (refreshed : Bool) (v : View) : Bool :=
  !v.uncommitted && v.pending && v.new.isSome && !refreshed

@[simp] theorem housekept_binary (v : View) : v.housekept.binary = v.binary := by
  unfold housekept
  split <;> rfl

@[simp] theorem housekept_new (v : View) : v.housekept.new = v.new := by
  unfold housekept
  split <;> rfl

@[simp] theorem housekept_committed (v : View) : v.housekept.committed = false := by
  unfold housekept
  split
  · rfl
  · next h => simpa using h

theorem housekept_applied {v : View} (h : v.uncommitted = false) : v.housekept.applied = false := by
  unfold housekept
  split
  · rfl
  · next hc => simpa [uncommitted, hc] using h

/-- An execution rolls back, applies, or at most clears markers. -/
theorem script_cases (refreshed : Bool) (v : View) :
    (v.uncommitted = true ∧ v.applies refreshed = false ∧ v.script refreshed = (v.rolledBack, 0)) ∨
    (v.uncommitted = false ∧ v.applies refreshed = false ∧
      ∃ p code, v.script refreshed = ({ v.housekept with pending := p }, code)) ∨
    (v.uncommitted = false ∧ v.applies refreshed = true ∧
      ∃ b, v.new = some b ∧ v.script refreshed = (v.housekept.upgraded b, 0)) := by
  unfold script applies
  cases hu : v.uncommitted with
  | true => exact .inl ⟨rfl, by simp, if_pos rfl⟩
  | false =>
    right
    have hk : ∀ p, v.housekept.pending = p → { v.housekept with pending := p } = v.housekept :=
      fun p hp => hp ▸ rfl
    cases hp : v.pending with
    | false => exact .inl ⟨rfl, by simp, _, 0, by rw [hk _ rfl]; simp⟩
    | true =>
      cases hn : v.new with
      | none => exact .inl ⟨rfl, by simp, false, 0, by simp⟩
      | some b =>
        cases refreshed with
        | true => exact .inl ⟨rfl, by simp, _, 1, by rw [hk _ rfl]; simp⟩
        | false => exact .inr ⟨rfl, by simp, b, rfl, by simp⟩

end View

/-- The housekeeping command, when the last upgrade was committed. -/
def housekeeping (h : Host) : List Cmd :=
  if (h.disk .committed).isSome then [.rm [.applied, .committed, .backup]] else []

def applyCmds : List Cmd :=
  [.readVersion .pending, .logApplying, .cp .binary .backup, .cp .new .binaryNew,
   .chmod .binaryNew, .mv .binaryNew .binary, .rm [.pending, .new], .touch .applied,
   .log "upgrade applied, binary replaced — waiting for agent to commit"]

/-- The commands that take the backup, install the staged binary, and clear what
marks it as waiting. -/
def backupCmd : Cmd := .cp .binary .backup

def installCmd : Cmd := .mv .binaryNew .binary

def clearCmd : Cmd := .rm [.pending, .new]

/-- The part of a rollback that restores the backup, when there is one. -/
def restoreCmds (h : Host) : List Cmd :=
  .log "rolling back failed upgrade" ::
  if (h.disk .backup).isSome then
    [.cp .backup .binaryRollback, .chmod .binaryRollback, .mv .binaryRollback .binary,
     .log "rollback complete"]
  else
    [.log "WARNING: no backup found, cannot roll back — manual intervention required"]

def rollbackCmds (h : Host) : List Cmd :=
  restoreCmds h ++ [.rm [.applied, .pending, .new, .backup]]

section paths
variable {h : Host} {p n b : File} {c : Cmd} {q : Path}

theorem uncommitted_eq_false (hu : (view h.disk).uncommitted = false) :
    (∃ c, h.disk .committed = some c) ∨ h.disk .committed = none ∧ h.disk .applied = none := by
  cases hc : h.disk .committed with
  | some c => exact .inl ⟨c, rfl⟩
  | none => exact .inr ⟨rfl, by simpa [View.uncommitted, view, hc] using hu⟩

section Traces
attribute [local simp] Shell.trace Shell.status Shell.run applyUpgradeSh shell holds exec

theorem trace_idle (refreshed : Bool) (hu : (view h.disk).uncommitted = false) (hp : h.disk .pending = none) :
    (shell refreshed).trace applyUpgradeSh h = housekeeping h ∧
      (shell refreshed).status applyUpgradeSh h = 0 := by
  rcases uncommitted_eq_false hu with ⟨c, hc⟩ | ⟨hc, ha⟩ <;>
    simp [housekeeping, *]

theorem trace_missing (refreshed : Bool) (hu : (view h.disk).uncommitted = false)
    (hp : h.disk .pending = some p) (hn : h.disk .new = none) :
    (shell refreshed).trace applyUpgradeSh h = housekeeping h ++
        [.log "pending marker exists but staged binary is missing — skipping", .rm [.pending]] ∧
      (shell refreshed).status applyUpgradeSh h = 0 := by
  rcases uncommitted_eq_false hu with ⟨c, hc⟩ | ⟨hc, ha⟩ <;>
    simp [housekeeping, *]

section
variable (hu : (view h.disk).uncommitted = false) (hp : h.disk .pending = some p)
  (hn : h.disk .new = some n)
include hu hp hn

theorem trace_refresh :
    (shell true).trace applyUpgradeSh h = housekeeping h ++
        [.readVersion .pending, .log "restarting under the new unit"] ∧
      (shell true).status applyUpgradeSh h = 1 := by
  rcases uncommitted_eq_false hu with ⟨c, hc⟩ | ⟨hc, ha⟩ <;>
    simp [applyUpgrade, housekeeping, *]

theorem trace_apply (hb : h.disk .binary = some b) :
    (shell false).trace applyUpgradeSh h = housekeeping h ++ applyCmds ∧
      (shell false).status applyUpgradeSh h = 0 := by
  rcases uncommitted_eq_false hu with ⟨c, hc⟩ | ⟨hc, ha⟩ <;>
    simp [applyUpgrade, housekeeping, applyCmds, Disk.set, *]

end

theorem trace_rollback (refreshed : Bool) (hu : (view h.disk).uncommitted = true) :
    (shell refreshed).trace applyUpgradeSh h = rollbackCmds h ∧
      (shell refreshed).status applyUpgradeSh h = 0 := by
  obtain ⟨⟨a, ha⟩, hc⟩ : (∃ a, h.disk .applied = some a) ∧ h.disk .committed = none := by
    simpa [View.uncommitted, view, Option.isSome_iff_exists] using hu
  cases hb : h.disk .backup <;>
    simp [rollBack, rollbackCmds, restoreCmds, Disk.set, *]

end Traces

/-- The effect of a list of commands. -/
def effects (cs : List Cmd) (h : Host) : Host := cs.foldl (shell false).effect h

theorem final_effects (refreshed : Bool) (h : Host) :
    (shell refreshed).final applyUpgradeSh h =
      effects ((shell refreshed).trace applyUpgradeSh h) h :=
  Shell.final_eq _ _ _

theorem effects_append (cs ds : List Cmd) (h : Host) :
    effects (cs ++ ds) h = effects ds (effects cs h) := List.foldl_append

theorem effect_other (h : Host) (hq : q ∉ c.touches) :
    ((shell false).effect h c).disk q = h.disk q := by
  cases c with
  | cp src | mv src =>
    cases hs : h.disk src <;> simp_all [Shell.effect, shell, exec, Cmd.touches, Disk.set]
  | chmod p =>
    cases hs : h.disk p <;> simp_all [Shell.effect, shell, exec, Cmd.touches, Disk.set]
  | rm => exact if_neg hq
  | touch => exact if_neg (by simpa [Cmd.touches] using hq)
  | readVersion => rfl
  | log => rfl
  | logApplying => rfl

theorem effects_other {cs : List Cmd} (hq : ∀ c ∈ cs, q ∉ c.touches) :
    (effects cs h).disk q = h.disk q := by
  induction cs generalizing h with
  | nil => rfl
  | cons c cs ih =>
    exact (ih fun d hd => hq d (List.mem_cons_of_mem c hd)).trans
      (effect_other h (hq c List.mem_cons_self))

theorem view_housekeeping (h : Host) :
    view (effects (housekeeping h) h).disk = (view h.disk).housekept := by
  cases hc : h.disk .committed <;>
    simp [housekeeping, effects, Shell.effect, shell, exec, View.housekept, view, hc]

/-- The housekeeping touches only what belongs to the committed upgrade. -/
theorem housekeeping_other (h : Host) (hq : q ∉ [Path.applied, .committed, .backup]) :
    (effects (housekeeping h) h).disk q = h.disk q := by
  refine effects_other fun c hc => ?_
  unfold housekeeping at hc
  split at hc
  · rw [List.mem_singleton.mp hc]; exact hq
  · cases hc

theorem view_rollbackCmds (h : Host) :
    view (effects (rollbackCmds h) h).disk = (view h.disk).rolledBack := by
  cases hb : h.disk .backup <;>
    simp [rollbackCmds, restoreCmds, effects, Shell.effect, shell, exec, View.rolledBack, view, Disk.set, hb]

theorem view_applyCmds (hn : h.disk .new = some n) (hb : h.disk .binary = some b) :
    view (effects applyCmds h).disk = (view h.disk).upgraded n.data := by
  simp [applyCmds, effects, Shell.effect, shell, exec, View.upgraded, view, Disk.set, hn, hb]

/-- A complete execution is its abstract step. -/
theorem view_final (refreshed : Bool) (hb : h.disk .binary = some b) :
    view ((shell refreshed).final applyUpgradeSh h).disk = ((view h.disk).script refreshed).1 ∧
      (shell refreshed).status applyUpgradeSh h = ((view h.disk).script refreshed).2 := by
  rw [final_effects]
  cases hu : (view h.disk).uncommitted with
  | true =>
    obtain ⟨ht, hs⟩ := trace_rollback refreshed hu
    rw [ht, hs, view_rollbackCmds, View.script, if_pos hu]
    exact ⟨rfl, rfl⟩
  | false =>
    rw [View.script, if_neg (by simp [hu])]
    have hk := view_housekeeping h
    cases hp : h.disk .pending with
    | none =>
      obtain ⟨ht, hs⟩ := trace_idle refreshed hu hp
      have hvp : (view h.disk).pending = false := by simp [view, hp]
      rw [ht, hs, hk, if_neg (by simp [hvp])]
      exact ⟨rfl, rfl⟩
    | some =>
      have hvp : (view h.disk).pending = true := by simp [view, hp]
      rw [if_pos hvp]
      cases hn : h.disk .new with
      | none =>
        obtain ⟨ht, hs⟩ := trace_missing refreshed hu hp hn
        have hvn : (view h.disk).new = none := by simp [view, hn]
        rw [ht, hs, hvn, effects_append, ← hk]
        exact ⟨by simp [effects, Shell.effect, shell, exec, view], rfl⟩
      | some n =>
        have hvn : (view h.disk).new = some n.data := by simp [view, hn]
        rw [hvn]
        cases refreshed with
        | true =>
          obtain ⟨ht, hs⟩ := trace_refresh hu hp hn
          rw [ht, hs, effects_append]
          exact ⟨hk, rfl⟩
        | false =>
          obtain ⟨ht, hs⟩ := trace_apply hu hp hn hb
          have hn' := (housekeeping_other h (q := .new) (by decide)).trans hn
          have hb' := (housekeeping_other h (q := .binary) (by decide)).trans hb
          rw [ht, hs, effects_append, view_applyCmds hn' hb', hk]
          exact ⟨rfl, rfl⟩

/-- The script installs a staged binary, and takes a backup of the present one,
exactly when it applies an upgrade. -/
theorem mem_trace_iff (refreshed : Bool) (hb : h.disk .binary = some b)
    (hc : c = installCmd ∨ c = backupCmd) :
    c ∈ (shell refreshed).trace applyUpgradeSh h ↔
      (view h.disk).applies refreshed = true := by
  unfold installCmd backupCmd at hc
  have hnot : ∀ h : Host, c ∉ housekeeping h ∧ c ∉ rollbackCmds h := by
    intro h
    rcases hc with rfl | rfl <;> unfold housekeeping rollbackCmds restoreCmds <;>
      constructor <;> split <;> simp
  unfold View.applies
  cases hu : (view h.disk).uncommitted with
  | true => simp [trace_rollback refreshed hu, hnot]
  | false =>
    cases hp : h.disk .pending with
    | none => simp [trace_idle refreshed hu hp, hnot, view, hp]
    | some =>
      cases hn : h.disk .new with
      | none => rcases hc with rfl | rfl <;> simp [trace_missing refreshed hu hp hn, hnot, view, hn]
      | some =>
        cases refreshed with
        | true => rcases hc with rfl | rfl <;> simp [trace_refresh hu hp hn, hnot]
        | false =>
          rcases hc with rfl | rfl <;>
            simp [trace_apply hu hp hn hb, applyCmds, view, hp, hn]

end paths

end YominsAgent.Upgrade
