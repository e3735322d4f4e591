import YominsAgent.Lib.Run
import YominsAgent.Upgrade.Script
import YominsAgent.Upgrade.Semver

/- The upgrade protocol: agent processes (`upgrade.go`) and complete executions
   of `apply-upgrade.sh` take turns on the upgrade directory. A process runs the
   installed binary; it may stage a newer release, mark it as pending and exit,
   commit after its first successful push, or die at any point of this.

   In every run (`upgrade_protocol`):
     (a) an upgrade that nobody commits is undone by the next execution;
     (b) a binary that was committed is replaced only by one a process staged;
     (c) no backup is taken of a binary that was applied and never committed.

   The invariant follows one binary, the one to fall back to (`View.base`): it
   was installed originally or committed, and no committed binary is newer. A
   staged binary is newer than the installed one, and an applied one than its
   backup, so a committed binary is never taken for an uncommitted upgrade.

   `version b` is the version stamped into the binary `b`; a release's binary is
   stamped with the release's tag. -/
namespace YominsAgent.Upgrade
open Go Lib List

inductive Proc where
  | stopped
  | running
  /-- `stageUpgrade` has returned, the pending marker is not written. -/
  | staged (tag : Str)
  /-- The marker is written, `os.Exit(0)` follows. -/
  | exiting
  deriving DecidableEq, Repr

structure Sys where
  host : Host
  proc : Proc
  /-- The binaries staged and applied so far. -/
  staged : List Data
  applied : List Data
  /-- The binaries whose processes have called `Commit`, and those for which it
  wrote the marker. -/
  pushed : List Data
  committed : List Data

inductive Label where
  /-- A complete execution of the script, in which the unit is refreshed or not. -/
  | script (refreshed : Bool)
  /-- `RunOnce` finds the release `tag` and stages its binary. -/
  | stage (tag : Str) (b : Data)
  | writePending
  /-- `os.WriteFile` fails, possibly after its first `n` bytes; the staged binary
  is removed, or that fails too. -/
  | pendingFails (n : Option Nat) (removed : Bool)
  | exit
  /-- The process crashes or is stopped. -/
  | die
  /-- `Commit`, after the first successful push. -/
  | commit
  deriving DecidableEq, Repr

def Label.isScript : Label → Bool
  | .script _ => true
  | _ => false

/-- `os.WriteFile(p, data, 0600)`. -/
def writeFile (d : Disk) (p : Path) (data : Data) : Disk :=
  d.set p (some ⟨data, ((d p).map File.mode).getD 0o600⟩)

def pendingText (tag : Str) : Data := utf8 (String.ofList tag ++ "\n")

/-- The disk after a failing `os.WriteFile` of the pending marker: untouched, or
with the first `n` bytes written. -/
def pendingCut (d : Disk) (tag : Str) : Option Nat → Disk
  | some n => writeFile d .pending ((pendingText tag).take n)
  | none => d

def committedText : Data := utf8 "ok\n"

/-- `Commit`: the marker is written only after an upgrade was applied. -/
def commitMarker (d : Disk) : Disk :=
  if (d .applied).isSome then writeFile d .committed committedText else d

/-- The commands an execution in `s` goes through. -/
def Sys.trace (s : Sys) (refreshed : Bool) : List Cmd :=
  (shell refreshed).trace applyUpgradeSh s.host

def Sys.view (s : Sys) : View := Upgrade.view s.host.disk

variable (version : Data → Str) {a : Data}

/-- `RunOnce` goes on to stage `tag` when the running binary is not a `dev` build
and `tag` is newer. -/
def wantsUpgrade (current tag : Str) : Bool :=
  current != "dev".toList && decide (isNewer current tag = .ok true)

def step (s : Sys) : Label → Option Sys
  | .script refreshed =>
    if s.proc = .stopped then
      let host := (shell refreshed).final applyUpgradeSh s.host
      some { s with
        host := host
        proc := if (shell refreshed).status applyUpgradeSh s.host = 0 then .running else .stopped
        applied := if installCmd ∈ s.trace refreshed then
            ((host.disk .binary).map File.data).toList ++ s.applied
          else s.applied }
    else none
  | .stage tag b =>
    match s.proc, s.view.binary with
    | .running, some current =>
      if wantsUpgrade (version current) tag && version b == tag then
        some { s with
          host := { s.host with disk := s.host.disk.set .new (some ⟨b, 0o600⟩) }
          proc := .staged tag
          staged := b :: s.staged }
      else none
    | _, _ => none
  | .writePending =>
    match s.proc with
    | .staged tag => some { s with
        host := { s.host with disk := writeFile s.host.disk .pending (pendingText tag) }
        proc := .exiting }
    | _ => none
  | .pendingFails n removed =>
    match s.proc with
    | .staged tag =>
      let written := pendingCut s.host.disk tag n
      some { s with
        host := { s.host with disk := if removed then written.set .new none else written }
        proc := .running }
    | _ => none
  | .exit => if s.proc = .exiting then some { s with proc := .stopped } else none
  | .die => if s.proc ≠ .stopped then some { s with proc := .stopped } else none
  | .commit =>
    match s.proc, s.view.binary with
    | .stopped, _ => none
    | _, none => none
    | _, some current => some { s with
        host := { s.host with disk := commitMarker s.host.disk }
        pushed := current :: s.pushed
        committed := if (s.host.disk .applied).isSome then current :: s.committed
          else s.committed }

/-- A host on which `o` was installed and no upgrade has happened. -/
def install (o : Data) : Sys :=
  { host := { disk := fun p => if p = .binary then some ⟨o, 0o755⟩ else none }
    proc := .stopped, staged := [], applied := [], pushed := [], committed := [] }

/-! ## Steps, seen on the markers -/

theorem view_set_new (d : Disk) (f : Option File) :
    view (d.set .new f) = { view d with new := f.map File.data } := by
  simp [view, Disk.set]

theorem view_write_pending (d : Disk) (data : Data) :
    view (writeFile d .pending data) = { view d with pending := true } := by
  simp [view, writeFile, Disk.set]

theorem view_pendingCut (d : Disk) (tag : Str) (n : Option Nat) :
    view (pendingCut d tag n) = { view d with pending := (view d).pending || n.isSome } := by
  cases n with
  | none => simp [pendingCut]
  | some => simp [pendingCut, view_write_pending]

theorem view_commitMarker (d : Disk) :
    view (commitMarker d) = { view d with committed := (view d).committed || (view d).applied } := by
  cases h : d .applied <;> simp [commitMarker, view, writeFile, Disk.set, h]

theorem exists_binary {h : Host} (hb : (view h.disk).binary = some a) :
    ∃ f, h.disk .binary = some f := by
  cases hf : h.disk .binary with
  | none => simp [view, hf] at hb
  | some f => exact ⟨f, rfl⟩

variable {version} {s s' : Sys} {refreshed r : Bool} {x o g b : Data}

/-- An execution of the script is the abstract step, and what it applies is the
staged binary. -/
theorem step_script (hb : s.view.binary = some a) (h : step version s (.script refreshed) = some s') :
    s'.view = (s.view.script refreshed).1 ∧ s'.staged = s.staged ∧
      s'.pushed = s.pushed ∧ s'.committed = s.committed ∧
      s'.applied = if s.view.applies refreshed then s.view.new.toList ++ s.applied
        else s.applied := by
  obtain ⟨f, hf⟩ := exists_binary hb
  obtain ⟨-, ⟨⟩⟩ := Option.ite_none_right_eq_some.mp h
  obtain ⟨hv, -⟩ := view_final refreshed hf
  refine ⟨hv, rfl, rfl, rfl, ?_⟩
  have hm : installCmd ∈ s.trace refreshed ↔ s.view.applies refreshed = true :=
    mem_trace_iff refreshed hf (.inl rfl)
  rcases s.view.script_cases refreshed with
    ⟨-, ha, -⟩ | ⟨-, ha, -⟩ | ⟨-, ha, b, hn, hs⟩
  · simp [hm, ha]
  · simp [hm, ha]
  · simp only [hm, ha, if_true]
    have hbin : (view ((shell refreshed).final applyUpgradeSh s.host).disk).binary =
        s.view.new := by
      rw [hv]
      exact (congrArg (·.1.binary) hs).trans hn.symm
    exact congrArg (·.toList ++ s.applied) hbin

theorem step_process {a : Label} (ha : a.isScript = false) (h : step version s a = some s') :
    s'.applied = s.applied ∧
    ((∃ n p, s'.view = { s.view with new := n, pending := p } ∧
        s'.pushed = s.pushed ∧ s'.committed = s.committed ∧
        ((n = s.view.new ∨ n = none) ∧ s'.staged = s.staged ∨
          ∃ b current, n = some b ∧ s'.staged = b :: s.staged ∧ s.view.binary = some current ∧
            isNewer (version current) (version b) = .ok true)) ∨
      a = .commit ∧ ∃ current, s.view.binary = some current ∧ s'.staged = s.staged ∧
        s'.pushed = current :: s.pushed ∧
        s'.committed = (if s.view.applied then current :: s.committed else s.committed) ∧
        s'.view = { s.view with committed := s.view.committed || s.view.applied }) := by
  cases a with
  | script => cases ha
  | stage tag b =>
    simp only [step] at h
    split at h
    · next current hp hb =>
      split at h
      · next hw =>
        cases h
        simp only [wantsUpgrade, Bool.and_eq_true, decide_eq_true_eq, beq_iff_eq] at hw
        exact ⟨rfl, .inl ⟨some b, _, view_set_new _ _, rfl, rfl,
          .inr ⟨b, current, rfl, rfl, hb, hw.2 ▸ hw.1.2⟩⟩⟩
      · cases h
    · cases h
  | writePending =>
    simp only [step] at h
    split at h
    · cases h
      exact ⟨rfl, .inl ⟨_, true, view_write_pending _ _, rfl, rfl, .inl ⟨.inl rfl, rfl⟩⟩⟩
    · cases h
  | pendingFails n removed =>
    simp only [step] at h
    split at h
    · next tag hp =>
      cases h
      refine ⟨rfl, .inl ?_⟩
      have hv := view_pendingCut s.host.disk tag n
      cases removed with
      | false => exact ⟨_, _, hv, rfl, rfl, .inl ⟨.inl rfl, rfl⟩⟩
      | true =>
        refine ⟨none, s.view.pending || n.isSome, (view_set_new _ _).trans ?_, rfl, rfl,
          .inl ⟨.inr rfl, rfl⟩⟩
        rw [hv]
        rfl
    · cases h
  | exit | die =>
    obtain ⟨-, ⟨⟩⟩ := Option.ite_none_right_eq_some.mp h
    exact ⟨rfl, .inl ⟨_, _, rfl, rfl, rfl, .inl ⟨.inl rfl, rfl⟩⟩⟩
  | commit =>
    simp only [step] at h
    split at h
    · cases h
    · cases h
    · next current hb hnp =>
      cases h
      exact ⟨rfl, .inr ⟨rfl, current, hb, rfl, rfl, rfl, view_commitMarker _⟩⟩

/-! ## The invariant -/

/-- The binary to fall back to: an uncommitted upgrade's backup, or else the
installed binary. -/
def View.base (v : View) : Option Data := if v.uncommitted then v.backup else v.binary

variable (version) in
/-- The version of `y` is newer than that of `x`. -/
def Newer (x y : Data) : Prop := isNewer (version x) (version y) = .ok true

theorem Newer.irrefl : ¬ Newer version x x := isNewer_irrefl _

theorem Newer.trans {y z : Data} (hxy : Newer version x y) (hyz : Newer version y z) :
    Newer version x z := isNewer_trans hxy hyz

variable (version) in
/-- `g` was installed originally or committed, and no binary that has pushed is
newer. -/
structure Floor (o : Data) (s : Sys) (g : Data) : Prop where
  mem : g = o ∨ g ∈ s.committed
  le : ∀ x, x = o ∨ x ∈ s.pushed → x = g ∨ Newer version x g

theorem Floor.congr (hf : Floor version o s g) (hp : s'.pushed = s.pushed)
    (hc : s'.committed = s.committed) : Floor version o s' g :=
  ⟨hc ▸ hf.mem, hp ▸ hf.le⟩

theorem Floor.notMem_of_newer (hf : Floor version o s g) (hb : Newer version g b) :
    b ∉ s.pushed := by
  intro hm
  rcases hf.le b (.inr hm) with rfl | hlt
  · exact Newer.irrefl hb
  · exact Newer.irrefl (hlt.trans hb)

variable (version) in
structure Inv (o : Data) (s : Sys) : Prop where
  binary : ∃ b, s.view.binary = some b
  base : ∃ g, s.view.base = some g ∧ Floor version o s g
  upgrade : s.view.uncommitted = true → ∃ g b, s.view.backup = some g ∧
    s.view.binary = some b ∧ Newer version g b
  new : ∀ n, s.view.new = some n → n ∈ s.staged ∧
    ∀ b, s.view.binary = some b → Newer version b n
  staged : ∀ x ∈ s.staged, Newer version o x
  applied : ∀ x ∈ s.applied, x ∈ s.staged

/-- The installed binary is at least as new as the original one. -/
theorem Inv.le_binary (hI : Inv version o s) (hb : s.view.binary = some b) :
    b = o ∨ Newer version o b := by
  obtain ⟨g, hg, hf⟩ := hI.base
  have hog := hf.le o (.inl rfl)
  unfold View.base at hg
  split at hg
  · next hu =>
    obtain ⟨g', b', hg', hb', hlt⟩ := hI.upgrade hu
    cases hg.symm.trans hg'
    cases hb.symm.trans hb'
    rcases hog with rfl | hog
    · exact .inr hlt
    · exact .inr (hog.trans hlt)
  · cases hb.symm.trans hg
    exact hog.imp Eq.symm id

/-- Without an uncommitted upgrade the installed binary is the one to fall back
to. -/
theorem Inv.floor_binary (hI : Inv version o s) (hu : s.view.uncommitted = false) :
    ∃ g, s.view.binary = some g ∧ Floor version o s g := by
  obtain ⟨g, hg, hf⟩ := hI.base
  rw [View.base, if_neg (by simp [hu])] at hg
  exact ⟨g, hg, hf⟩

/-- A binary whose process calls `Commit` is the one to fall back to from then
on. -/
theorem Inv.floor_commit (hI : Inv version o s) (hb : s.view.binary = some b)
    (hpu : s'.pushed = b :: s.pushed)
    (hco : s'.committed = if s.view.applied then b :: s.committed else s.committed) :
    Floor version o s' b := by
  obtain ⟨g, hg, hf⟩ := hI.base
  have hle : g = b ∨ Newer version g b := by
    unfold View.base at hg
    split at hg
    · next hu =>
      obtain ⟨g', b', hg', hb', hlt⟩ := hI.upgrade hu
      cases hg.symm.trans hg'
      cases hb.symm.trans hb'
      exact .inr hlt
    · exact .inl (Option.some.inj (hg.symm.trans hb))
  constructor
  · cases happ : s.view.applied with
    | true => rw [hco, if_pos happ]; exact .inr mem_cons_self
    | false =>
      obtain ⟨g', hg', hf'⟩ := hI.floor_binary (by simp [View.uncommitted, happ])
      cases hb.symm.trans hg'
      rw [hco, if_neg (by simp [happ])]
      exact hf'.mem
  · intro x hx
    rw [hpu, mem_cons] at hx
    have hold : x = o ∨ x ∈ s.pushed → x = b ∨ Newer version x b := by
      intro hx
      rcases hf.le x hx with rfl | hlt
      · exact hle
      · rcases hle with rfl | hle
        · exact .inr hlt
        · exact .inr (hlt.trans hle)
    rcases hx with hx | rfl | hx
    · exact hold (.inl hx)
    · exact .inl rfl
    · exact hold (.inr hx)

theorem inv_install (o : Data) : Inv version o (install o) := by
  refine ⟨⟨o, rfl⟩, ⟨o, rfl, .inl rfl, fun x hx => ?_⟩, fun h => ?_, fun n h => ?_, ?_, ?_⟩
  · rcases hx with rfl | hx
    · exact .inl rfl
    · cases hx
  · cases h
  · cases h
  · intro x hx; cases hx
  · intro x hx; cases hx

theorem inv_script (hI : Inv version o s) (h : step version s (.script refreshed) = some s') :
    Inv version o s' := by
  obtain ⟨a, ha⟩ := hI.binary
  obtain ⟨hv, hst, hpu, hco, hap⟩ := step_script ha h
  rcases s.view.script_cases refreshed with
    ⟨hu, happ, hs⟩ | ⟨hu, happ, p, code, hs⟩ | ⟨hu, happ, b, hn, hs⟩
  · -- the backup is installed again
    obtain ⟨g, b, hg, hb, hlt⟩ := hI.upgrade hu
    obtain ⟨g', hg', hf⟩ := hI.base
    rw [View.base, if_pos hu, hg] at hg'
    cases hg'
    rw [hs] at hv
    have hbin : s'.view.binary = some g := by rw [hv]; simp [View.rolledBack, hg]
    have hun : s'.view.uncommitted = false := by rw [hv]; rfl
    have hnew : s'.view.new = none := by rw [hv]; rfl
    rw [if_neg (by simp [happ])] at hap
    refine ⟨⟨g, hbin⟩, ⟨g, ?_, hf.congr hpu hco⟩, fun h => ?_, fun n hn => ?_, hst ▸ hI.staged, ?_⟩
    · rw [View.base, if_neg (by simp [hun]), hbin]
    · rw [hun] at h; cases h
    · rw [hnew] at hn; cases hn
    · rw [hap, hst]; exact hI.applied
  · obtain ⟨g, hg, hf⟩ := hI.floor_binary hu
    rw [hs] at hv
    have hbin : s'.view.binary = some g := by rw [hv]; simpa using hg
    have hun : s'.view.uncommitted = false := by
      rw [hv]; simp [View.uncommitted, View.housekept_applied hu]
    have hnew : s'.view.new = s.view.new := by rw [hv]; simp
    rw [if_neg (by simp [happ])] at hap
    refine ⟨⟨g, hbin⟩, ⟨g, ?_, hf.congr hpu hco⟩, fun h => ?_, ?_, hst ▸ hI.staged, ?_⟩
    · rw [View.base, if_neg (by simp [hun]), hbin]
    · rw [hun] at h; cases h
    · rw [hnew, hst, hbin, ← hg]; exact hI.new
    · rw [hap, hst]; exact hI.applied
  · -- the installed binary becomes the backup of the staged one
    obtain ⟨g, hg, hf⟩ := hI.floor_binary hu
    obtain ⟨hbs, hnewer⟩ := hI.new b hn
    rw [hs] at hv
    have hbin : s'.view.binary = some b := by rw [hv]; rfl
    have hback : s'.view.backup = some g := by rw [hv]; simpa [View.upgraded] using hg
    have hun : s'.view.uncommitted = true := by rw [hv]; simp [View.uncommitted, View.upgraded]
    have hnew : s'.view.new = none := by rw [hv]; rfl
    rw [if_pos happ, hn] at hap
    refine ⟨⟨b, hbin⟩, ⟨g, ?_, hf.congr hpu hco⟩, fun _ => ⟨g, b, hback, hbin, hnewer g hg⟩, fun n hn => ?_,
      hst ▸ hI.staged, ?_⟩
    · rw [View.base, if_pos hun, hback]
    · rw [hnew] at hn; cases hn
    · intro x hx
      rw [hap] at hx
      rw [hst]
      rcases mem_append.mp hx with hx | hx
      · rw [mem_singleton.mp hx]; exact hbs
      · exact hI.applied x hx

theorem inv_process {a : Label} (ha : a.isScript = false) (hI : Inv version o s)
    (h : step version s a = some s') : Inv version o s' := by
  obtain ⟨hap, ⟨n, p, hv, hpu, hco, hst⟩ | ⟨-, b, hb, hst, hpu, hco, hv⟩⟩ := step_process ha h
  · -- the binary, its backup and the other markers are as they were
    have hbin : s'.view.binary = s.view.binary := by rw [hv]
    have hback : s'.view.backup = s.view.backup := by rw [hv]
    have hun : s'.view.uncommitted = s.view.uncommitted := by rw [hv]; rfl
    have hbase : s'.view.base = s.view.base := by rw [View.base, hun, hback, hbin, View.base]
    have hnew : s'.view.new = n := by rw [hv]
    have hsub : ∀ x ∈ s.staged, x ∈ s'.staged := by
      rcases hst with ⟨-, hst⟩ | ⟨b, _, _, hst, -⟩ <;> intro x hx <;> rw [hst]
      · exact hx
      · exact mem_cons_of_mem b hx
    obtain ⟨g, hg, hf⟩ := hI.base
    refine ⟨hbin ▸ hI.binary, ⟨g, hbase.trans hg, hf.congr hpu hco⟩, ?_, ?_, ?_, ?_⟩
    · rw [hun, hback, hbin]
      exact hI.upgrade
    · intro m hm
      rw [hnew] at hm
      rw [hbin]
      rcases hst with ⟨hn | hn, -⟩ | ⟨b, current, hn, hst, hcur, hlt⟩
      · obtain ⟨hmem, hall⟩ := hI.new m (hn ▸ hm)
        exact ⟨hsub m hmem, hall⟩
      · cases hn.symm.trans hm
      · cases hn.symm.trans hm
        refine ⟨hst ▸ mem_cons_self, fun c hc => ?_⟩
        cases hcur.symm.trans hc
        exact hlt
    · intro x hx
      rcases hst with ⟨-, hst⟩ | ⟨b, current, -, hst, hcur, hlt⟩ <;> rw [hst] at hx
      · exact hI.staged x hx
      · rcases mem_cons.mp hx with rfl | hx
        · rcases hI.le_binary hcur with rfl | hle
          · exact hlt
          · exact hle.trans hlt
        · exact hI.staged x hx
    · intro x hx
      exact hsub x (hI.applied x (hap ▸ hx))
  · -- whatever was applied is committed now
    have hbin : s'.view.binary = s.view.binary := by rw [hv]
    have hnew : s'.view.new = s.view.new := by rw [hv]
    have hun : s'.view.uncommitted = false := by
      rw [hv, View.uncommitted]
      cases s.view.applied <;> simp
    refine ⟨hbin ▸ hI.binary, ⟨b, ?_, hI.floor_commit hb hpu hco⟩, ?_, ?_, hst ▸ hI.staged, ?_⟩
    · rw [View.base, if_neg (by simp [hun]), hbin, hb]
    · intro h; rw [hun] at h; cases h
    · rw [hnew, hst, hbin]; exact hI.new
    · rw [hap, hst]; exact hI.applied

theorem inv_step (o : Data) (s : Sys) (a : Label) (s' : Sys) (hI : Inv version o s)
    (h : step version s a = some s') : Inv version o s' := by
  cases hs : a.isScript with
  | false => exact inv_process hs hI h
  | true =>
    cases a with
    | script => exact inv_script hI h
    | _ => cases hs

/-! ## Results -/

/-- An uncommitted upgrade over `a`. -/
structure Uncommitted (a : Data) (v : View) : Prop where
  uncommitted : v.uncommitted = true
  backup : v.backup = some a
  binary : ∃ b, v.binary = some b

theorem uncommitted_process (a : Data) (s : Sys) (l : Label) (s' : Sys)
    (hl : l.isScript = false ∧ l ≠ .commit) (hs : Uncommitted a s.view)
    (h : step version s l = some s') : Uncommitted a s'.view := by
  obtain ⟨-, ⟨n, p, hv, -⟩ | ⟨hc, -⟩⟩ := step_process hl.1 h
  · rw [hv]
    exact ⟨hs.uncommitted, hs.backup, hs.binary⟩
  · exact absurd hc hl.2

theorem rollback_of_uncommitted (hs : Uncommitted a s.view)
    (h : step version s (.script refreshed) = some s') : s'.view.binary = some a := by
  obtain ⟨b, hb⟩ := hs.binary
  obtain ⟨hv, -⟩ := step_script hb h
  rw [hv, View.script, if_pos hs.uncommitted]
  simp [View.rolledBack, hs.backup]

/-- An execution that installs or takes a backup applies the staged binary, and
found no uncommitted upgrade. -/
theorem applies_of_mem {c : Cmd} (hb : s.view.binary = some a) (hc : c = installCmd ∨ c = backupCmd)
    (hmem : c ∈ s.trace r) (h : step version s (.script r) = some s') :
    s.view.uncommitted = false ∧
      ∃ b, s.view.new = some b ∧ s'.view = s.view.housekept.upgraded b := by
  obtain ⟨f, hf⟩ := exists_binary hb
  have ha : s.view.applies r = true := (mem_trace_iff r hf hc).mp hmem
  rcases s.view.script_cases r with ⟨-, hno, -⟩ | ⟨-, hno, -⟩ | ⟨hu, -, b, hn, hs⟩
  · cases hno.symm.trans ha
  · cases hno.symm.trans ha
  · exact ⟨hu, b, hn, (step_script hb h).1.trans (congrArg Prod.fst hs)⟩

/-- A binary that has pushed is replaced only by a staged one. -/
theorem Inv.replaced_by_staged (hI : Inv version o s) (hb : b ∈ s.pushed)
    (hbin : s.view.binary = some b) (h : step version s (.script r) = some s') :
    s'.view.binary = some b ∨ installCmd ∈ s.trace r ∧ ∃ c ∈ s.staged, s'.view.binary = some c := by
  obtain ⟨f, hf⟩ := exists_binary hbin
  have hv := (step_script hbin h).1
  rcases s.view.script_cases r with ⟨hu, -, -⟩ | ⟨-, -, p, code, hs⟩ | ⟨-, ha, c, hn, hs⟩
  · -- an uncommitted upgrade is newer than every binary that has pushed
    obtain ⟨g, b', hg, hb', hlt⟩ := hI.upgrade hu
    obtain ⟨g', hg', hfl⟩ := hI.base
    rw [View.base, if_pos hu, hg] at hg'
    cases hg'
    cases hbin.symm.trans hb'
    exact absurd hb (hfl.notMem_of_newer hlt)
  · left
    rw [hv, hs]
    simpa using hbin
  · right
    refine ⟨(mem_trace_iff r hf (.inl rfl)).mpr ha, c, (hI.new c hn).1, ?_⟩
    rw [hv, hs]
    rfl

/-- The upgrade protocol, in every run from an installation of `o`. -/
theorem upgrade_protocol (version : Data → Str) (o : Data) (as : List Label) (s : Sys)
    (hrun : run (step version) (install o) as = some s) :
    (∀ r s₁ ps s₂ r' s₃, step version s (.script r) = some s₁ → installCmd ∈ s.trace r →
      (∀ l ∈ ps, l.isScript = false ∧ l ≠ .commit) → run (step version) s₁ ps = some s₂ →
      step version s₂ (.script r') = some s₃ → s₃.view.binary = s.view.binary) ∧
    (∀ b r s', b ∈ s.pushed → s.view.binary = some b → step version s (.script r) = some s' →
      s'.view.binary = some b ∨
        installCmd ∈ s.trace r ∧ ∃ c ∈ s.staged, s'.view.binary = some c) ∧
    (∀ r s', step version s (.script r) = some s' → backupCmd ∈ s.trace r →
      ∃ a, s.view.binary = some a ∧ s'.view.backup = some a ∧
        ¬ (a ∈ s.applied ∧ a ∉ s.committed)) := by
  have hI := run_inv (inv_step o) as _ s (inv_install o) hrun
  obtain ⟨x, hx⟩ := hI.binary
  refine ⟨?_, fun b r s' hb hbin h => hI.replaced_by_staged hb hbin h, ?_⟩
  · intro r s₁ ps s₂ r' s₃ h1 hinst hps h2 h3
    obtain ⟨-, b, -, hv⟩ := applies_of_mem hx (Or.inl rfl) hinst h1
    have hs1 : Uncommitted x s₁.view := by
      rw [hv]
      refine ⟨by simp [View.uncommitted, View.upgraded], ?_, b, rfl⟩
      simpa [View.upgraded] using hx
    have hs2 := run_inv_of_labels (uncommitted_process x) ps s₁ s₂ hps hs1 h2
    rw [rollback_of_uncommitted hs2 h3, hx]
  · intro r s' h hback
    obtain ⟨hu, b, -, hv⟩ := applies_of_mem hx (Or.inr rfl) hback h
    obtain ⟨g, hg, hfl⟩ := hI.floor_binary hu
    refine ⟨g, hg, by rw [hv]; simpa [View.upgraded] using hg, ?_⟩
    rintro ⟨happ, hnc⟩
    rcases hfl.mem with rfl | hm
    · exact Newer.irrefl (hI.staged g (hI.applied g happ))
    · exact hnc hm

/-- The versions of two small binaries. -/
def stamped (d : Data) : Str := if d = [1] then "v1.0.0".toList else "v1.1.0".toList

def crashingStage : List Label :=
  [.script false, .stage "v1.1.0".toList [2], .writePending, .exit]

/-- Version 1.1.0 is staged and applied over 1.0.0, and its process dies before
it pushes: after the next execution 1.0.0 is back. -/
theorem crashed_upgrade_undone : ∃ s s₁ s₂ s₃ : Sys,
    run (step stamped) (install [1]) crashingStage = some s ∧
      step stamped s (.script false) = some s₁ ∧ s₁.view.binary = some [2] ∧
      run (step stamped) s₁ [.die] = some s₂ ∧ step stamped s₂ (.script false) = some s₃ ∧
      s₃.view.binary = some [1] := by
  refine ⟨_, _, _, _, rfl, rfl, rfl, rfl, rfl, ?_⟩
  have hback := (upgrade_protocol stamped [1] crashingStage _ rfl).1 false _ [.die] _ false _ rfl
    (by decide) (by simp [Label.isScript]) rfl rfl
  exact hback

end YominsAgent.Upgrade
