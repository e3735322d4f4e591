import Mathlib.Tactic.IntervalCases
import YominsAgent.Upgrade.Script

/- Executions of `apply-upgrade.sh` that are cut off between two commands of the apply path,
   followed by one that runs to its end.

   The next execution sees only the markers. Up to the `mv` that installs the new binary it starts
   over and nothing is lost; after it the markers still say that the upgrade is to be applied, and
   the new binary becomes its own backup (`cut_after_install`); after the `rm` nothing says that an
   upgrade was applied, and it can never be rolled back; after the `touch` it is rolled back
   although it was applied in full. `upgraded_iff` says exactly which interruptions are harmless. -/
namespace YominsAgent.Upgrade
open Lib List Option

/-- The host after an execution that is cut off after `n` commands. -/
def cutOff (n : Nat) (h : Host) : Host := (shell false).interrupt applyUpgradeSh n h

def complete (h : Host) : Host := (shell false).final applyUpgradeSh h

/-- The host after executions cut off one after another, and a complete one. -/
def recovered : List Nat → Host → Host
  | [], h => complete h
  | n :: ns, h => recovered ns (cutOff n h)

/-- The commands a cut-off execution got through. -/
def executed (n : Nat) (h : Host) : List Cmd := ((shell false).trace applyUpgradeSh h).take n

/-- The script takes the apply path with `old` installed and `new` staged. -/
structure Applying (old new : Data) (v : View) : Prop where
  binary : v.binary = some old
  staged : v.new = some new
  pending : v.pending = true
  settled : v.uncommitted = false

structure Upgraded (old new : Data) (v : View) : Prop where
  binary : v.binary = some new
  backup : v.backup = some old
  applied : v.applied = true
  pending : v.pending = false
  staged : v.new = none

/-- The command an interruption must come before: the `mv` that installs the new
binary. When it is byte for byte the old one, the `rm` of the markers. -/
def pointOfNoReturn (old new : Data) : Cmd := if old = new then clearCmd else installCmd

/-- Every execution is cut off before that command. -/
def Harmless (old new : Data) : List Nat → Host → Prop
  | [], _ => True
  | n :: ns, h => pointOfNoReturn old new ∉ executed n h ∧ Harmless old new ns (cutOff n h)

/-! ## Where an execution can be cut off -/

/-- What shows after the first `m` commands of the apply path, `b` being staged. -/
def View.upgradedUpTo (v : View) (b : Data) : Nat → View
  | 0 | 1 | 2 => v
  | 3 | 4 | 5 => { v with backup := v.binary }
  | 6 => { v with backup := v.binary, binary := some b }
  | 7 => { v with backup := v.binary, binary := some b, new := none, pending := false }
  | _ => v.upgraded b

variable {h : Host}

theorem view_applyCmds_take {n b : File} (hn : h.disk .new = some n) (hb : h.disk .binary = some b)
    (m : Nat) : view (effects (applyCmds.take m) h).disk = (view h.disk).upgradedUpTo n.data m := by
  by_cases hm : m < 9
  · interval_cases m <;>
      simp [applyCmds, effects, Shell.effect, shell, exec, View.upgradedUpTo, View.upgraded, view,
        Disk.set, hn, hb]
  · rw [take_of_length_le (by simp only [applyCmds, length_cons, length_nil]; omega),
      view_applyCmds hn hb]
    obtain ⟨k, rfl⟩ := Nat.exists_eq_add_of_le' (Nat.not_lt.mp hm)
    rfl

theorem mem_applyCmds_take (m : Nat) :
    (installCmd ∈ applyCmds.take m ↔ 6 ≤ m) ∧ (clearCmd ∈ applyCmds.take m ↔ 7 ≤ m) := by
  by_cases hm : m < 9
  · interval_cases m <;> decide
  · rw [take_of_length_le (by simp only [applyCmds, length_cons, length_nil]; omega)]
    have h6 : 6 ≤ m := by omega
    have h7 : 7 ≤ m := by omega
    simp only [h6, h7, iff_true]
    decide

/-- No marker says that an upgrade was applied or is to be. -/
def View.unmarked (v : View) : Bool := !v.pending && !v.applied && !v.committed

/-- How far an execution of the apply path came: it has executed `cs` and `v`
shows. -/
inductive Cut (old new : Data) (cs : List Cmd) (v : View) : Prop where
  | early (hi : installCmd ∉ cs) (hc : clearCmd ∉ cs) (h : Applying old new v)
  /-- The new binary is installed, but is still to be applied. -/
  | installed (hi : installCmd ∈ cs) (hc : clearCmd ∉ cs) (h : Applying new new v)
  /-- Nothing waits any more, or the upgrade is to be rolled back. -/
  | late (hi : installCmd ∈ cs) (hc : clearCmd ∈ cs)
      (h : v.unmarked = true ∨ v.uncommitted = true)

variable {old new : Data}

theorem Applying.files (ha : Applying old new (view h.disk)) :
    ∃ p n b, h.disk .pending = some p ∧ h.disk .new = some n ∧ h.disk .binary = some b ∧
      n.data = new ∧ b.data = old := by
  obtain ⟨hb, hn, hp, -⟩ := ha
  simp only [view, map_eq_some_iff] at hb hn
  obtain ⟨b, hb, rfl⟩ := hb
  obtain ⟨n, hn, rfl⟩ := hn
  obtain ⟨p, hp⟩ := isSome_iff_exists.mp hp
  exact ⟨p, n, b, hp, hn, hb, rfl, rfl⟩

variable {v : View}

/-- After its housekeeping, the apply path goes through its stages. -/
theorem cut_applyCmds (ha : Applying old new v) (happ : v.applied = false)
    (hcom : v.committed = false) (m : Nat) :
    Cut old new (applyCmds.take m) (v.upgradedUpTo new m) := by
  obtain ⟨hi, hc⟩ := mem_applyCmds_take m
  obtain ⟨hb, hn, hp, hu⟩ := ha
  by_cases hm : m < 8
  · interval_cases m
    all_goals first
      | exact .early (by simp [hi]) (by simp [hc]) ⟨hb, hn, hp, hu⟩
      | exact .installed (by simp [hi]) (by simp [hc]) ⟨rfl, hn, hp, hu⟩
      | exact .late (by simp [hi]) (by simp [hc])
          (.inl (by simp [View.unmarked, View.upgradedUpTo, happ, hcom]))
  · match m, hm with
    | m + 8, _ =>
      refine .late (by simp [hi]) (by simp [hc]) (.inr ?_)
      simp [View.uncommitted, View.upgradedUpTo, View.upgraded, hcom]

/-- Commands before the apply path leave the stage as it is. -/
theorem Cut.append_left {cs ds : List Cmd} (hi : installCmd ∉ ds) (hc : clearCmd ∉ ds)
    (h : Cut old new cs v) : Cut old new (ds ++ cs) v := by
  cases h with
  | early hi' hc' h => exact .early (by simp [hi, hi']) (by simp [hc, hc']) h
  | installed hi' hc' h => exact .installed (by simp [hi']) (by simp [hc, hc']) h
  | late hi' hc' h => exact .late (by simp [hi']) (by simp [hc']) h

theorem Applying.housekept (ha : Applying old new v) : Applying old new v.housekept where
  binary := by simpa using ha.binary
  staged := by simpa using ha.staged
  pending := by
    unfold View.housekept
    split <;> exact ha.pending
  settled := by simp [View.uncommitted, View.housekept_applied ha.settled]

/-- What an execution of the apply path, cut off anywhere, leaves. -/
theorem apply_cut (ha : Applying old new (view h.disk)) (n : Nat) :
    Cut old new (executed n h) (view (cutOff n h).disk) := by
  obtain ⟨p, nf, bf, hp, hn, hb, rfl, rfl⟩ := ha.files
  obtain ⟨ht, -⟩ := trace_apply ha.settled hp hn hb
  have hex : executed n h =
      (housekeeping h).take n ++ applyCmds.take (n - (housekeeping h).length) := by
    rw [executed, ht, take_append]
  have hcut : cutOff n h = effects (executed n h) h := rfl
  rw [hcut, hex]
  by_cases hlt : n < (housekeeping h).length
  · -- cut off before the housekeeping: nothing has happened
    have hz : n = 0 := by
      unfold housekeeping at hlt
      split at hlt <;> simp at hlt
      exact hlt
    subst hz
    exact .early (by simp) (by simp) (by simpa [effects] using ha)
  · rw [take_of_length_le (by omega), effects_append,
      view_applyCmds_take ((housekeeping_other h (by decide)).trans hn)
        ((housekeeping_other h (by decide)).trans hb), view_housekeeping]
    have hno : installCmd ∉ housekeeping h ∧ clearCmd ∉ housekeeping h := by
      unfold housekeeping installCmd clearCmd
      constructor <;> split <;> simp
    exact (cut_applyCmds ha.housekept (View.housekept_applied ha.settled)
      (View.housekept_committed _) _).append_left hno.1 hno.2

theorem restoreCmds_touches {c : Cmd} (hc : c ∈ restoreCmds h) :
    Path.applied ∉ c.touches ∧ Path.committed ∉ c.touches := by
  unfold restoreCmds at hc
  split at hc <;> simp only [mem_cons, not_mem_nil, or_false] at hc
  · rcases hc with rfl | rfl | rfl | rfl | rfl <;> decide
  · rcases hc with rfl | rfl <;> decide

/-- A rollback that is cut off is done, or still to be done. -/
theorem rollback_cut (hu : (view h.disk).uncommitted = true) (n : Nat) :
    (view (cutOff n h).disk).unmarked = true ∨ (view (cutOff n h).disk).uncommitted = true := by
  have hcut : cutOff n h = effects ((rollbackCmds h).take n) h := by
    rw [cutOff, Shell.interrupt, (trace_rollback false hu).1]
    rfl
  rw [hcut]
  by_cases hn : n ≤ (restoreCmds h).length
  · -- before its last command a rollback touches neither marker
    right
    rw [rollbackCmds, take_append_of_le_length hn]
    have happ : (effects ((restoreCmds h).take n) h).disk .applied = h.disk .applied :=
      effects_other fun c hc => (restoreCmds_touches (mem_of_mem_take hc)).1
    have hcom : (effects ((restoreCmds h).take n) h).disk .committed = h.disk .committed :=
      effects_other fun c hc => (restoreCmds_touches (mem_of_mem_take hc)).2
    simpa only [View.uncommitted, view, happ, hcom] using hu
  · left
    have hlen : (rollbackCmds h).length ≤ n := by
      simp only [rollbackCmds, length_append, length_singleton]
      omega
    rw [take_of_length_le hlen, view_rollbackCmds]
    simp only [View.uncommitted, Bool.and_eq_true, Bool.not_eq_true'] at hu
    simp [View.unmarked, View.rolledBack, hu.2]

theorem unmarked_cut (hm : (view h.disk).unmarked = true) (n : Nat) :
    cutOff n h = h ∧ complete h = h := by
  simp only [View.unmarked, view, Bool.and_eq_true, Bool.not_eq_true', isSome_eq_false_iff,
    isNone_iff_eq_none] at hm
  have ht : (shell false).trace applyUpgradeSh h = [] := by
    rw [(trace_idle false (by simp [View.uncommitted, view, hm]) hm.1.1).1]
    simp [housekeeping, hm.2]
  rw [complete, final_effects, cutOff, Shell.interrupt, ht]
  exact ⟨by simp, rfl⟩

/-! ## Which interruptions are harmless -/

/-- The state is beyond recovery: no continuation leaves the upgrade of `old`. -/
def Spoiled (old new : Data) (v : View) : Prop :=
  (old ≠ new ∧ Applying new new v) ∨ v.unmarked = true ∨ v.uncommitted = true

theorem complete_applying (ha : Applying old new (view h.disk)) :
    Upgraded old new (view (complete h).disk) := by
  obtain ⟨p, nf, bf, hp, hn, hb, rfl, rfl⟩ := ha.files
  have hv := (view_final false hb).1
  have hsc : (view h.disk).script false = ((view h.disk).housekept.upgraded nf.data, 0) := by
    rw [View.script, if_neg (by simp [ha.settled]), if_pos ha.pending, ha.staged]
    rfl
  rw [complete, hv, hsc]
  exact ⟨rfl, by simpa [View.upgraded] using ha.binary, rfl, rfl, rfl⟩

theorem Spoiled.complete (hs : Spoiled old new (view h.disk)) :
    ¬ Upgraded old new (view (complete h).disk) := by
  intro hup
  rcases hs with ⟨hne, ha⟩ | hm | hu
  · have hback := (complete_applying ha).backup.symm.trans hup.backup
    exact hne (some.inj hback).symm
  · have happ := hup.applied
    rw [(unmarked_cut hm 0).2] at happ
    simp [View.unmarked, happ] at hm
  · have happ := hup.applied
    rw [Upgrade.complete, final_effects, (trace_rollback false hu).1, view_rollbackCmds] at happ
    cases happ

theorem Spoiled.cutOff (hs : Spoiled old new (view h.disk)) (n : Nat) :
    Spoiled old new (view (cutOff n h).disk) := by
  rcases hs with ⟨hne, ha⟩ | hm | hu
  · cases apply_cut ha n with
    | early _ _ ha | installed _ _ ha => exact .inl ⟨hne, ha⟩
    | late _ _ hl => exact .inr hl
  · rw [(unmarked_cut hm n).1]
    exact .inr (.inl hm)
  · exact .inr (rollback_cut hu n)

theorem Spoiled.recovered (ns : List Nat) (hs : Spoiled old new (view h.disk)) :
    ¬ Upgraded old new (view (recovered ns h).disk) := by
  induction ns generalizing h with
  | nil => exact hs.complete
  | cons n ns ih => exact ih (hs.cutOff n)

/-- An execution that was cut off before the point of no return has changed
nothing that matters; after it the upgrade is spoiled. -/
theorem cutOff_applying (ha : Applying old new (view h.disk)) (n : Nat) :
    (pointOfNoReturn old new ∉ executed n h → Applying old new (view (cutOff n h).disk)) ∧
      (pointOfNoReturn old new ∈ executed n h → Spoiled old new (view (cutOff n h).disk)) := by
  by_cases he : old = new
  · subst he
    rw [pointOfNoReturn, if_pos rfl]
    cases apply_cut ha n with
    | early _ hc ha | installed _ hc ha => exact ⟨fun _ => ha, fun h => absurd h hc⟩
    | late _ hc hl => exact ⟨fun h => absurd hc h, fun _ => .inr hl⟩
  · rw [pointOfNoReturn, if_neg he]
    cases apply_cut ha n with
    | early hi _ ha => exact ⟨fun _ => ha, fun h => absurd h hi⟩
    | installed hi _ ha => exact ⟨fun h => absurd hi h, fun _ => .inl ⟨he, ha⟩⟩
    | late hi _ hl => exact ⟨fun h => absurd hi h, fun _ => .inr hl⟩

/-- Executions of the apply path that are cut off one after another, and then a
complete one, leave what an uninterrupted execution leaves exactly when each was
cut off before the point of no return. -/
theorem upgraded_iff {old new : Data} (ns : List Nat) (h : Host)
    (ha : Applying old new (view h.disk)) :
    Upgraded old new (view (recovered ns h).disk) ↔ Harmless old new ns h := by
  induction ns generalizing h with
  | nil => exact ⟨fun _ => trivial, fun _ => complete_applying ha⟩
  | cons n ns ih =>
    obtain ⟨hearly, hlate⟩ := cutOff_applying ha n
    by_cases hp : pointOfNoReturn old new ∈ executed n h
    · exact ⟨fun hup => absurd hup ((hlate hp).recovered ns), fun hh => absurd hp hh.1⟩
    · exact (ih _ (hearly hp)).trans ⟨fun hh => ⟨hp, hh⟩, fun hh => hh.2⟩

/-- A host on which `[2]` is staged over `[1]`. -/
def stagedHost : Host where
  disk
    | .binary => some ⟨[1], 0o755⟩
    | .new => some ⟨[2], 0o600⟩
    | .pending => some ⟨utf8 "v1.1.0\n", 0o600⟩
    | _ => none

/-- Cut off after the `chmod`, the next execution completes the upgrade. -/
theorem cut_before_install : Upgraded [1] [2] (view (recovered [5] stagedHost).disk) :=
  (upgraded_iff [5] stagedHost ⟨rfl, rfl, rfl, rfl⟩).mpr ⟨by decide, trivial⟩

/-- Cut off right after the `mv`, the next execution backs up the new binary;
after the `rm`, it does not know of the upgrade; after the `touch`, it rolls it
back. -/
theorem cut_after_install : ∃ h : Host, Applying [1] [2] (view h.disk) ∧
    (view (recovered [6] h).disk).backup = some [2] ∧
    (view (recovered [7] h).disk).binary = some [2] ∧
    (view (recovered [7] h).disk).applied = false ∧
    (view (recovered [8] h).disk).binary = some [1] ∧
    ¬ ∀ n, Upgraded [1] [2] (view (recovered [n] h).disk) := by
  refine ⟨stagedHost, ⟨rfl, rfl, rfl, rfl⟩, rfl, rfl, rfl, rfl, fun hall => ?_⟩
  cases (hall 6).backup

end YominsAgent.Upgrade
