import YominsAgent.Upgrade.Staging

/- `stageUpgrade` (`upgrade/downloader.go`) as a function of what the server sends: the steps
   of `Upgrade.Staging` that a call takes when the file system does not fail (`stageUpgrade_run`).

   `verifyChecksum` takes the first word of the checksum file without asking whether it
   has one. `stageUpgrade_exact_iff` says that this is the only content on which a call
   does not do what its documentation says: place a verified binary, or return an error
   and leave the staged binary alone.

   Correspondence (Go ↔ Lean):
     `platformAsset` ↔ `platformAsset`, of `runtime.GOOS` and `runtime.GOARCH`
     `stageUpgrade`  ↔ `stageUpgrade`; a download that fails is `none`
     the upgrade directory ↔ `UpgradeDir` -/
namespace YominsAgent.Upgrade
open Go Lib

/-- The release asset of the platform, which upgrades are supported on or not. -/
def platformAsset (goos goarch : Str) : Option Str :=
  if goos ≠ "linux".toList then none
  else if goarch = "amd64".toList ∨ goarch = "arm64".toList then
    some ("yomins-agent-linux-".toList ++ goarch)
  else none

/-- `<stateDir>/upgrade/new`, `new.tmp` and `new.sha256`. -/
structure UpgradeDir where
  new : Option File
  tmp : Option Data
  sum : Option Data
  deriving DecidableEq

/-- `stageUpgrade`, with what the two downloads bring. -/
def stageUpgrade (asset : Option Str) (binary checksum : Option Data) (d : UpgradeDir) :
    Verdict × UpgradeDir :=
  match asset, binary, checksum with
  | none, _, _ => (.error, d)
  | some _, none, _ => (.error, { d with tmp := none })
  | some _, some _, none => (.error, { d with tmp := none, sum := none })
  | some _, some b, some c =>
    match verifyChecksum b c with
    | .ok => (.ok, { new := some ⟨b, 0o600⟩, tmp := none, sum := none })
    | .error => (.error, { d with tmp := none, sum := none })
    -- the process dies with both files in place
    | .panic => (.panic, { d with tmp := some b, sum := some c })

/-- What the documentation of `stageUpgrade` promises of a call on a supported
platform whose downloads have come. -/
def Exact (binary checksum : Data) (d : UpgradeDir) (r : Verdict × UpgradeDir) : Prop :=
  if (fields (toText checksum)).head? = some (hexEncode (sha256 binary)) then
    r.1 = .ok ∧ r.2.new = some ⟨binary, 0o600⟩
  else r.1 = .error ∧ r.2.new = d.new

/-- A call places the binary or returns an error with the staged binary as it was,
exactly when the checksum file is not blank. -/
theorem stageUpgrade_exact_iff (asset : Str) (binary checksum : Data) (d : UpgradeDir) :
    Exact binary checksum d (stageUpgrade (some asset) (some binary) (some checksum) d) ↔
      ∃ c ∈ toText checksum, isSpace c = false := by
  have hblank : (∃ c ∈ toText checksum, isSpace c = false) ↔ fields (toText checksum) ≠ [] := by
    rw [ne_eq, fields_eq_nil_iff]
    simp
  rw [hblank, Exact]
  by_cases hwords : fields (toText checksum) = []
  · -- `strings.Fields(…)[0]` panics
    refine iff_of_false ?_ fun h => h hwords
    simp only [stageUpgrade, verifyChecksum, hwords, List.head?_nil, reduceCtorEq, if_false]
    intro h
    cases h.1
  · refine iff_of_true ?_ hwords
    simp only [stageUpgrade, verifyChecksum_words hwords]
    split
    · exact ⟨rfl, rfl⟩
    · exact ⟨rfl, rfl⟩

/-- The server sends an empty checksum file: the agent dies, with a word of neither
success nor failure. -/
theorem stageUpgrade_blank_panics :
    (stageUpgrade (platformAsset "linux".toList "amd64".toList) (some [1]) (some [])
      ⟨none, none, none⟩).1 = .panic ∧
    ¬ Exact [1] [] ⟨none, none, none⟩
      (stageUpgrade (platformAsset "linux".toList "amd64".toList) (some [1]) (some [])
        ⟨none, none, none⟩) := by
  refine ⟨rfl, fun h => ?_⟩
  have hnone : (fields (toText ([] : Data))).head? ≠ some (hexEncode (sha256 [1])) := nofun
  rw [Exact, if_neg hnone] at h
  cases h.1

/-! ## The steps of a call -/

def Station.dir (s : Station) : UpgradeDir := ⟨s.host.disk .new, s.tmp, s.sum⟩

/-- The steps of a call on a supported platform. -/
def stageLabels (tag : Str) (binary checksum : Option Data) : List StageLabel :=
  .begin tag ::
    match binary, checksum with
    | none, _ => [.fetchFails true true]
    | some b, none => [.fetched b, .fetchFails true true]
    | some b, some c =>
      .fetched b :: .fetched c :: .verify true true ::
        if verifyChecksum b c = .ok then [.rename] else []

def afterStaging (tag : Str) : Verdict → StagePhase
  | .ok => .staged tag
  | .error => .running
  | .panic => .stopped

/-- A call takes these steps, and leaves the directory as `stageUpgrade` says. -/
theorem stageUpgrade_run (tag asset : Str) (binary checksum : Option Data) (s : Station)
    (hs : s.phase = .running) :
    ∃ s', run Station.step s (stageLabels tag binary checksum) = some s' ∧
      s'.dir = (stageUpgrade (some asset) binary checksum s.dir).2 ∧
      s'.phase = afterStaging tag (stageUpgrade (some asset) binary checksum s.dir).1 := by
  cases binary with
  | none =>
    simp only [stageLabels, run, Station.step, if_pos hs]
    exact ⟨_, rfl, rfl, rfl⟩
  | some b =>
    cases checksum with
    | none =>
      simp only [stageLabels, run, Station.step, if_pos hs]
      exact ⟨_, rfl, rfl, rfl⟩
    | some c =>
      cases hv : verifyChecksum b c with
      | ok =>
        simp only [stageLabels, run, Station.step, if_pos hs, hv, stageUpgrade]
        exact ⟨_, rfl, rfl, rfl⟩
      | error | panic =>
        simp only [stageLabels, run, Station.step, if_pos hs, hv, stageUpgrade, reduceCtorEq,
          if_false]
        exact ⟨_, rfl, rfl, rfl⟩

end YominsAgent.Upgrade
