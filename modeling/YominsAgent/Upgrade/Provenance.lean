import YominsAgent.Upgrade.Crash
import YominsAgent.Upgrade.Staging

/- Where the installed binary comes from.

   At every moment of every history, `/usr/local/bin/yomins-agent` is the originally installed
   binary or one that was staged and had matched its checksum file (`upgrade_provenance`). A backup
   may be only a part of a binary, but not once an upgrade is marked as applied, and only then is it
   restored (`Sound`). A `stageUpgrade` that fails leaves the staged binary alone. -/
namespace YominsAgent.Upgrade
open Go Lib List Option

variable {G : Data → Prop} {v : View} {h : Host} {cs : List Cmd}

/-- The installed and the staged binary are good, and the backup of an applied upgrade. -/
structure Sound (G : Data → Prop) (v : View) : Prop where
  binary : ∃ b, v.binary = some b ∧ G b
  new : ∀ b, v.new = some b → G b
  backup : v.applied = true → ∀ b, v.backup = some b → G b

theorem Sound.housekept (hs : Sound G v) : Sound G v.housekept := by
  refine ⟨by simpa using hs.binary, by simpa using hs.new, fun ha b hb => ?_⟩
  unfold View.housekept at ha hb
  split at ha
  · cases ha
  · next hc =>
    rw [if_neg hc] at hb
    exact hs.backup ha b hb

/-- A list of commands without a `cp` that could be cut off. -/
theorem throughout_of_noCp {torn : Option Data} (hcp : ∀ src dst, Cmd.cp src dst ∉ cs)
    (hcut : ∀ n, Sound G (view (effects (cs.take n) h).disk)) :
    (shell false).Throughout (tearCp torn) (fun h => Sound G (view h.disk)) cs h := by
  refine fun n => ⟨hcut n, fun c h' hc ht => ?_⟩
  cases c with
  | cp src dst => exact absurd (mem_of_getElem? hc) (hcp src dst)
  | _ => cases ht

theorem throughout_of_touches {torn : Option Data} (hcp : ∀ src dst, Cmd.cp src dst ∉ cs)
    (htouch : ∀ c ∈ cs, ∀ q ∈ [Path.binary, .new, .backup, .applied], q ∉ c.touches)
    (hs : Sound G (view h.disk)) :
    (shell false).Throughout (tearCp torn) (fun h => Sound G (view h.disk)) cs h := by
  refine throughout_of_noCp hcp fun n => ?_
  have hsame : ∀ q ∈ [Path.binary, .new, .backup, .applied],
      (effects (cs.take n) h).disk q = h.disk q := fun q hq =>
    effects_other fun c hc => htouch c (mem_of_mem_take hc) q hq
  obtain ⟨hbin, hnew, hback⟩ := hs
  simp only [view] at hbin hnew hback
  constructor <;> simp only [view]
  · rw [hsame .binary (by simp)]
    exact hbin
  · rw [hsame .new (by simp)]
    exact hnew
  · rw [hsame .applied (by simp), hsame .backup (by simp)]
    exact hback

theorem sound_housekeeping (torn : Option Data) (hs : Sound G (view h.disk)) :
    (shell false).Throughout (tearCp torn) (fun h => Sound G (view h.disk)) (housekeeping h) h := by
  refine throughout_of_noCp (fun src dst => ?_) fun n => ?_
  · unfold housekeeping
    split <;> simp
  · cases n with
    | zero => exact hs
    | succ n =>
      have hlen : (housekeeping h).length ≤ n + 1 := by
        unfold housekeeping
        split <;> simp
      rw [take_of_length_le hlen, view_housekeeping]
      exact hs.housekept

/-- A copy of which only a part is written does no harm: to a temporary name, or to the
backup before the upgrade is applied. -/
theorem Sound.torn {torn : Option Data} {src dst : Path} {h' : Host} (hs : Sound G (view h.disk))
    (ht : tearCp torn (.cp src dst) h = some h')
    (hdst : dst = .binaryNew ∨ dst = .binaryRollback ∨
      dst = .backup ∧ (view h.disk).applied = false) : Sound G (view h'.disk) := by
  obtain ⟨d, -, ht⟩ := bind_eq_some_iff.mp ht
  obtain ⟨f, -, rfl⟩ := map_eq_some_iff.mp ht
  have hview : ∀ p f, p = .binaryNew ∨ p = .binaryRollback →
      view (h.disk.set p f) = view h.disk := by
    rintro p f (rfl | rfl) <;> simp [view, Disk.set]
  rcases hdst with rfl | rfl | ⟨rfl, happ⟩
  · rw [hview _ _ (.inl rfl)]
    exact hs
  · rw [hview _ _ (.inr rfl)]
    exact hs
  · have hback : ∀ f, view (h.disk.set .backup f) =
        { view h.disk with backup := f.map File.data } := by
      intro f
      simp [view, Disk.set]
    rw [hback]
    exact ⟨hs.binary, hs.new, fun ha => absurd (happ.symm.trans ha) Bool.false_ne_true⟩

theorem Sound.upgradedUpTo {b : Data} (hs : Sound G v) (happ : v.applied = false) (hb : G b)
    (m : Nat) : Sound G (v.upgradedUpTo b m) := by
  obtain ⟨old, hold, hG⟩ := hs.binary
  have hfalse : ∀ {p : Prop}, v.applied = true → p := fun ha => absurd (happ.symm.trans ha) nofun
  have hback : ∀ c, v.binary = some c → G c := fun c hc =>
    some.inj (hold.symm.trans hc) ▸ hG
  match m with
  | 0 | 1 | 2 => exact hs
  | 3 | 4 | 5 => exact ⟨hs.binary, hs.new, hfalse⟩
  | 6 => exact ⟨⟨b, rfl, hb⟩, hs.new, hfalse⟩
  | 7 => exact ⟨⟨b, rfl, hb⟩, nofun, hfalse⟩
  | m + 8 => exact ⟨⟨b, rfl, hb⟩, nofun, fun _ => hback⟩

theorem sound_applyCmds (torn : Option Data) (hs : Sound G (view h.disk))
    (happ : (view h.disk).applied = false) {nf bf : File} (hn : h.disk .new = some nf)
    (hb : h.disk .binary = some bf) :
    (shell false).Throughout (tearCp torn) (fun h => Sound G (view h.disk)) applyCmds h := by
  have hG : G nf.data := hs.new nf.data (by simp [view, hn])
  have hcut : ∀ m, view (effects (applyCmds.take m) h).disk =
      (view h.disk).upgradedUpTo nf.data m := view_applyCmds_take hn hb
  have hsound : ∀ m, Sound G (view (effects (applyCmds.take m) h).disk) := by
    intro m
    rw [hcut]
    exact hs.upgradedUpTo happ hG m
  refine fun m => ⟨hsound m, fun c h' hc ht => ?_⟩
  -- only the two copies can be cut off
  rcases m with _ | _ | _ | _ | m
  · cases hc
    cases ht
  · cases hc
    cases ht
  · cases hc
    exact (hsound 2).torn ht (.inr (.inr ⟨rfl, (congrArg View.applied (hcut 2)).trans happ⟩))
  · cases hc
    exact (hsound 3).torn ht (.inl rfl)
  · rcases m with _ | _ | _ | _ | _ | m <;> cases hc <;> cases ht

/-- What shows after the first `m` commands of a rollback. -/
def View.rolledBackUpTo (v : View) (m : Nat) : View :=
  match v.backup with
  | some b => if m ≤ 3 then v else if m ≤ 5 then { v with binary := some b } else v.rolledBack
  | none => if m ≤ 2 then v else v.rolledBack

theorem view_rollbackCmds_take (h : Host) (m : Nat) :
    view (effects ((rollbackCmds h).take m) h).disk = (view h.disk).rolledBackUpTo m := by
  have hend : (rollbackCmds h).length ≤ m →
      view (effects ((rollbackCmds h).take m) h).disk = (view h.disk).rolledBack := by
    intro hlen
    rw [take_of_length_le hlen, view_rollbackCmds]
  cases hb : h.disk .backup with
  | some b =>
    have hv : (view h.disk).backup = some b.data := by simp [view, hb]
    rw [View.rolledBackUpTo, hv]
    by_cases hm : m < 6
    · interval_cases m <;>
        simp [rollbackCmds, restoreCmds, effects, Shell.effect, shell, exec, view, Disk.set, hb]
    · rw [hend (by simp [rollbackCmds, restoreCmds, hb]; omega)]
      simp [show ¬ m ≤ 3 by omega, show ¬ m ≤ 5 by omega]
  | none =>
    have hv : (view h.disk).backup = none := by simp [view, hb]
    rw [View.rolledBackUpTo, hv]
    by_cases hm : m < 3
    · interval_cases m <;>
        simp [rollbackCmds, restoreCmds, effects, Shell.effect, shell, exec, view, hb]
    · rw [hend (by simp [rollbackCmds, restoreCmds, hb]; omega)]
      simp [show ¬ m ≤ 2 by omega]

theorem Sound.rolledBackUpTo (hs : Sound G v) (happ : v.applied = true) (m : Nat) :
    Sound G (v.rolledBackUpTo m) := by
  unfold View.rolledBackUpTo
  cases hb : v.backup with
  | some b =>
    have hG := hs.backup happ b hb
    simp only
    split
    · exact hs
    · split
      · exact ⟨⟨b, rfl, hG⟩, hs.new, fun _ c hc => some.inj hc ▸ hG⟩
      · exact ⟨⟨b, by simp [View.rolledBack, hb], hG⟩, nofun, nofun⟩
  | none =>
    simp only
    split
    · exact hs
    · obtain ⟨b, hbin, hG⟩ := hs.binary
      exact ⟨⟨b, by simp [View.rolledBack, hb, hbin], hG⟩, nofun, nofun⟩

theorem sound_rollbackCmds (torn : Option Data) (hs : Sound G (view h.disk))
    (happ : (view h.disk).applied = true) :
    (shell false).Throughout (tearCp torn) (fun h => Sound G (view h.disk)) (rollbackCmds h) h := by
  have hsound : ∀ m, Sound G (view (effects ((rollbackCmds h).take m) h).disk) := by
    intro m
    rw [view_rollbackCmds_take]
    exact hs.rolledBackUpTo happ m
  refine fun m => ⟨hsound m, fun c h' hc ht => ?_⟩
  -- the only copy is the one of the backup
  have hcp : ∀ src dst, Cmd.cp src dst ∈ rollbackCmds h → dst = .binaryRollback := by
    intro src dst hmem
    unfold rollbackCmds restoreCmds at hmem
    split at hmem <;> simp at hmem
    exact hmem.2
  cases c with
  | cp src dst => exact (hsound m).torn ht (.inr (.inl (hcp src dst (mem_of_getElem? hc))))
  | _ => cases ht

/-- Whatever an execution of the script does, and wherever it is cut off. -/
theorem sound_script (refreshed : Bool) (torn : Option Data) (hs : Sound G (view h.disk)) :
    (shell refreshed).Throughout (tearCp torn) (fun h => Sound G (view h.disk))
      ((shell refreshed).trace applyUpgradeSh h) h := by
  -- what a command does does not depend on the unit
  show (shell false).Throughout (tearCp torn) (fun h => Sound G (view h.disk))
    ((shell refreshed).trace applyUpgradeSh h) h
  have hafter : Sound G (view (effects (housekeeping h) h).disk) := by
    rw [view_housekeeping]
    exact hs.housekept
  cases hu : (view h.disk).uncommitted with
  | true =>
    rw [(trace_rollback refreshed hu).1]
    exact sound_rollbackCmds torn hs (Bool.and_eq_true_iff.mp hu).1
  | false =>
    cases hp : h.disk .pending with
    | none =>
      rw [(trace_idle refreshed hu hp).1]
      exact sound_housekeeping torn hs
    | some =>
      cases hn : h.disk .new with
      | none =>
        rw [(trace_missing refreshed hu hp hn).1]
        exact (sound_housekeeping torn hs).append
          (throughout_of_touches (by simp) (by decide) hafter)
      | some =>
        cases refreshed with
        | true =>
          rw [(trace_refresh hu hp hn).1]
          exact (sound_housekeeping torn hs).append
            (throughout_of_touches (by simp) (by decide) hafter)
        | false =>
          obtain ⟨b, hb, -⟩ := hs.binary
          obtain ⟨bf, hbf⟩ := exists_binary hb
          rw [(trace_apply hu hp hn hbf).1]
          refine (sound_housekeeping torn hs).append ?_
          refine sound_applyCmds torn hafter ?_ ((housekeeping_other h (by decide)).trans hn)
            ((housekeeping_other h (by decide)).trans hbf)
          exact (congrArg View.applied (view_housekeeping h)).trans (View.housekept_applied hu)

/-! ## Runs -/

/-- The originally installed binary, or one that was staged. -/
def Good (o : Data) (staged : List (Data × Data)) (b : Data) : Prop :=
  b = o ∨ ∃ c, (b, c) ∈ staged

variable {o : Data} {s s' : Station} {a : StageLabel}

structure Kept (o : Data) (s : Station) : Prop where
  sound : Sound (Good o s.staged) (view s.host.disk)
  /-- what was staged had matched its checksum file -/
  matched : ∀ x ∈ s.staged, verifyChecksum x.1 x.2 = .ok
  verified : ∀ tag c, s.phase = .verified tag c →
    ∃ b, s.tmp = some b ∧ verifyChecksum b c = .ok

theorem kept_install (o : Data) : Kept o (Station.install o) :=
  ⟨⟨⟨o, rfl, .inl rfl⟩, nofun, nofun⟩, nofun, nofun⟩

/-- A step that leaves the staged binaries alone and does not verify. -/
theorem Kept.of_same (h : Kept o s) (hstaged : s'.staged = s.staged)
    (hphase : ∀ tag c, s'.phase ≠ .verified tag c)
    (hsound : Sound (Good o s.staged) (view s'.host.disk)) : Kept o s' :=
  ⟨hstaged ▸ hsound, hstaged ▸ h.matched, fun tag c hp => absurd hp (hphase tag c)⟩

/-- The binary whose checksum was verified becomes the staged one. -/
theorem Kept.rename (h : Kept o s) (hs : s.step .rename = some s') : Kept o s' := by
  simp only [Station.step] at hs
  split at hs
  · next tag c b hp htmp =>
    cases hs
    obtain ⟨b', hb', hok⟩ := h.verified tag c hp
    obtain rfl := some.inj (htmp.symm.trans hb')
    have hmono : ∀ {d}, Good o s.staged d → Good o ((b, c) :: s.staged) d := by
      rintro d (rfl | ⟨c', hc'⟩)
      · exact .inl rfl
      · exact .inr ⟨c', mem_cons_of_mem _ hc'⟩
    refine ⟨?_, fun x hx => ?_, nofun⟩
    · rw [view_set_new]
      obtain ⟨⟨d, hd, hG⟩, -, hback⟩ := h.sound
      refine ⟨⟨d, hd, hmono hG⟩, fun d hd => ?_, fun ha d hd => hmono (hback ha d hd)⟩
      exact .inr ⟨c, some.inj hd ▸ mem_cons_self⟩
    · rcases mem_cons.mp hx with rfl | hx
      · exact hok
      · exact h.matched x hx
  · cases hs

theorem Kept.step (h : Kept o s) (hs : s.step a = some s') : Kept o s' := by
  have hsound := h.sound
  cases a with
  | begin | renameFails | exit | die =>
    simp only [Station.step] at hs
    split at hs <;> cases hs
    exact h.of_same rfl nofun hsound
  | fetch =>
    simp only [Station.step] at hs
    split at hs <;> cases hs
    · next hp => exact h.of_same rfl (fun _ _ hq => nomatch hp.symm.trans hq) hsound
    · next hp => exact h.of_same rfl (fun _ _ hq => nomatch hp.symm.trans hq) hsound
  | fetched | fetchFails =>
    simp only [Station.step] at hs
    split at hs <;> cases hs
    · exact h.of_same rfl nofun hsound
    · exact h.of_same rfl nofun hsound
  | verify =>
    simp only [Station.step] at hs
    split at hs
    · next tag b c hp htmp hsum =>
      split at hs
      · next hok =>
        cases hs
        refine ⟨hsound, h.matched, fun tag' c' hq => ?_⟩
        obtain ⟨rfl, rfl⟩ := StagePhase.verified.inj hq
        exact ⟨b, htmp, hok⟩
      · cases hs
        exact h.of_same rfl nofun hsound
      · cases hs
        exact h.of_same rfl nofun hsound
    · cases hs
      exact h.of_same rfl nofun hsound
    · cases hs
  | rename => exact h.rename hs
  | writePending =>
    simp only [Station.step] at hs
    split at hs <;> cases hs
    refine h.of_same rfl nofun ?_
    rw [view_write_pending]
    exact ⟨hsound.binary, hsound.new, hsound.backup⟩
  | pendingFails n removed =>
    simp only [Station.step] at hs
    split at hs
    · next tag hp =>
      cases hs
      refine h.of_same rfl nofun ?_
      have hwritten : Sound (Good o s.staged) (view (pendingCut s.host.disk tag n)) := by
        rw [view_pendingCut]
        exact ⟨hsound.binary, hsound.new, hsound.backup⟩
      cases removed with
      | false => exact hwritten
      | true =>
        simp only [if_true]
        rw [view_set_new]
        exact ⟨hwritten.binary, nofun, hwritten.backup⟩
    · cases hs
  | commit =>
    simp only [Station.step] at hs
    split at hs <;> cases hs
    refine ⟨?_, h.matched, h.verified⟩
    rw [view_commitMarker]
    exact ⟨hsound.binary, hsound.new, hsound.backup⟩
  | script refreshed =>
    simp only [Station.step] at hs
    split at hs <;> cases hs
    refine h.of_same rfl (fun tag c => ?_) (sound_script refreshed none hsound).final
    simp only
    split <;> exact nofun
  | scriptCut refreshed n torn =>
    obtain ⟨hp, ⟨⟩⟩ := ite_none_right_eq_some.mp hs
    refine h.of_same rfl (fun tag c hq => ?_) ((sound_script refreshed torn hsound).crash n)
    cases hp.symm.trans hq

/-- Of the steps of `stageUpgrade`, only the last one changes the staged binary. -/
theorem staging_new (ha : a.isStaging = true) (hs : s.step a = some s') (hne : a ≠ .rename) :
    s'.host = s.host := by
  cases a with
  | rename => exact absurd rfl hne
  | begin | renameFails =>
    simp only [Station.step] at hs
    split at hs <;> cases hs
    rfl
  | fetch | fetched | fetchFails =>
    simp only [Station.step] at hs
    split at hs <;> cases hs <;> rfl
  | verify =>
    simp only [Station.step] at hs
    split at hs
    · split at hs <;> cases hs <;> rfl
    · cases hs
      rfl
    · cases hs
  | _ => cases ha

theorem staged_step {tag : Str} (ha : a.isStaging = true) (hp : s.phase = .staged tag) :
    s.step a = none := by
  cases a <;> simp_all [Station.step, StageLabel.isStaging]

/-- A `stageUpgrade` that has not succeeded, or not yet, has changed nothing the script
looks at. -/
theorem failed_staging (as : List StageLabel) (has : ∀ a ∈ as, a.isStaging = true)
    (hs : run Station.step s as = some s') :
    s'.host = s.host ∨ ∃ tag, s'.phase = .staged tag := by
  induction as generalizing s with
  | nil =>
    cases hs
    exact .inl rfl
  | cons a as ih =>
    obtain ⟨m, ha, hrest⟩ := run_cons.mp hs
    have hrest' := ih (fun b hb => has b (mem_cons_of_mem a hb)) hrest
    by_cases hr : a = .rename
    · subst hr
      -- it has succeeded, and is at its end
      obtain ⟨tag, hm⟩ : ∃ tag, m.phase = .staged tag := by
        simp only [Station.step] at ha
        split at ha <;> cases ha
        exact ⟨_, rfl⟩
      cases as with
      | nil =>
        cases hrest
        exact .inr ⟨tag, hm⟩
      | cons b =>
        obtain ⟨k, hb, -⟩ := run_cons.mp hrest
        rw [staged_step (has b (mem_cons_of_mem _ mem_cons_self)) hm] at hb
        cases hb
    · rcases hrest' with hsame | hdone
      · exact .inl (hsame.trans (staging_new (has a mem_cons_self) ha hr))
      · exact .inr hdone

/-- In every history of staging attempts, agent processes and executions of the script, any
of which may be cut off anywhere: the installed binary is the original one or one that
was staged with a checksum file whose first word is its digest; and a `stageUpgrade` that fails
leaves the staged binary as it is. -/
theorem upgrade_provenance (o : Data) (as : List StageLabel) (s : Station)
    (h : run Station.step (Station.install o) as = some s) :
    (∃ f, s.host.disk .binary = some f ∧ (f.data = o ∨ ∃ c, (f.data, c) ∈ s.staged ∧
      (fields (toText c)).head? = some (hexEncode (sha256 f.data)))) ∧
    ∀ bs s', (∀ b ∈ bs, b.isStaging = true) → run Station.step s bs = some s' →
      s'.phase = .running → s'.host.disk .new = s.host.disk .new := by
  have hkept : Kept o s :=
    run_inv (I := Kept o) (fun _ _ _ hk hstep => hk.step hstep) as _ s (kept_install o) h
  refine ⟨?_, fun bs s' hbs hrun hfail => ?_⟩
  · obtain ⟨b, hb, hG⟩ := hkept.sound.binary
    obtain ⟨f, hf, rfl⟩ := map_eq_some_iff.mp hb
    refine ⟨f, hf, ?_⟩
    rcases hG with ho | ⟨c, hc⟩
    · exact .inl ho
    · exact .inr ⟨c, hc, verifyChecksum_ok_iff.mp (hkept.matched _ hc)⟩
  · rcases failed_staging bs hbs hrun with hsame | ⟨tag, htag⟩
    · rw [hsame]
    · cases hfail.symm.trans htag

/-- An upgrade is staged, with the line of `sha256sum`; the script is cut off in the middle of the
backup and applies it in the next execution. -/
def tornBackup : List StageLabel :=
  [.script false, .begin "v1.1.0".toList, .fetch [2], .fetched [2, 3],
   .fetched (toBytes (hexEncode (sha256 [2, 3]) ++ "  yomins-agent\n".toList)),
   .verify true true, .rename, .writePending, .exit, .scriptCut false 2 (some [1]), .script false]

theorem torn_backup_provenance : ∃ s,
    run Station.step (Station.install [1, 1]) tornBackup = some s ∧
    (s.host.disk .binary).map File.data = some [2, 3] ∧
    (∃ f, s.host.disk .binary = some f ∧ (f.data = [1, 1] ∨ ∃ c, (f.data, c) ∈ s.staged ∧
      (fields (toText c)).head? = some (hexEncode (sha256 f.data)))) := by
  have hend : ((run Station.step (Station.install [1, 1]) tornBackup).bind fun s =>
      (s.host.disk .binary).map File.data) = some [2, 3] := by
    decide +kernel
  obtain ⟨s, hs, hb⟩ := bind_eq_some_iff.mp hend
  exact ⟨s, hs, hb, (upgrade_provenance [1, 1] tornBackup s hs).1⟩

end YominsAgent.Upgrade
