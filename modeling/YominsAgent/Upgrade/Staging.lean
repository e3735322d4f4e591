import YominsAgent.Go.Sha256
import YominsAgent.Upgrade.Protocol

/- Staging a release (`upgrade/downloader.go`), step by step, in turn with executions of
   `apply-upgrade.sh` that may be cut off anywhere.

   `stageUpgrade` downloads the binary and its checksum file next to the place of the staged binary,
   compares the digest, and renames. Each step may fail, and the process may die at any of them.

   Correspondence (Go ↔ Lean):
     `verifyChecksum`     ↔ `verifyChecksum`
     `downloadFile`       ↔ `StageLabel.fetch`, then `fetched` or `fetchFails`
     the errors of `stageUpgrade`, after which it removes its files
                          ↔ `Station.abandon`
     `os.Rename` to `new` ↔ `StageLabel.rename`, `renameFails`
     `RunOnce` after it, `Commit`  ↔ the labels of `Upgrade.Protocol`

   An `os.Remove` may fail, which the code ignores. -/
namespace YominsAgent.Upgrade
open Go Lib

/-- What `verifyChecksum` does: it has no case for a checksum file without a word. -/
inductive Verdict where
  | ok
  | error
  | panic
  deriving DecidableEq, Repr

/-- Compares the digest of the binary with the first word of the checksum file. -/
def verifyChecksum (binary checksum : Data) : Verdict :=
  match fields (toText checksum) with
  | [] => .panic
  | word :: _ =>
    let expected := trimSpace word
    if (toBytes expected).length ≠ 64 then .error
    else if hexEncode (sha256 binary) = expected then .ok else .error

/-- What it comes to, on a checksum file with a word. -/
theorem verifyChecksum_words {binary checksum : Data} (h : fields (toText checksum) ≠ []) :
    verifyChecksum binary checksum =
      if (fields (toText checksum)).head? = some (hexEncode (sha256 binary)) then .ok
      else .error := by
  obtain ⟨word, rest, hw⟩ := List.exists_cons_of_ne_nil h
  have htrim : trimSpace word = word :=
    trimSpace_of_mem_fields (s := toText checksum) (hw ▸ List.mem_cons_self)
  simp only [verifyChecksum, hw, htrim, List.head?_cons, Option.some.injEq]
  by_cases heq : word = hexEncode (sha256 binary)
  · -- a digest has the length that is asked for
    have hlen : (toBytes word).length = 64 := by
      rw [heq, length_toBytes_hexEncode, length_sha256]
    rw [if_neg (not_not.mpr hlen), if_pos heq.symm, if_pos heq]
  · have hne : ¬ hexEncode (sha256 binary) = word := fun h => heq h.symm
    rw [if_neg heq, if_neg hne, ite_self]

theorem verifyChecksum_ok_iff {binary checksum : Data} : verifyChecksum binary checksum = .ok ↔
    (fields (toText checksum)).head? = some (hexEncode (sha256 binary)) := by
  by_cases hwords : fields (toText checksum) = []
  · simp [verifyChecksum, hwords]
  · simp [verifyChecksum_words hwords]

/-- Where `stageUpgrade` stands. -/
inductive StagePhase where
  | stopped
  | running
  /-- the binary, then the checksum file, is being downloaded -/
  | binary (tag : Str)
  | checksum (tag : Str)
  /-- both are there -/
  | verify (tag : Str)
  /-- the binary has matched the checksum file -/
  | verified (tag : Str) (checksum : Data)
  | staged (tag : Str)
  | exiting
  deriving DecidableEq, Repr

structure Station where
  host : Host
  /-- `upgrade/new.tmp` and `upgrade/new.sha256` -/
  tmp : Option Data := none
  sum : Option Data := none
  phase : StagePhase
  /-- the binaries staged so far, each with the checksum file it matched -/
  staged : List (Data × Data) := []

inductive StageLabel where
  /-- `RunOnce` finds the release. -/
  | begin (tag : Str)
  /-- A part of the file being downloaded is written. -/
  | fetch (part : Data)
  /-- The download is complete. -/
  | fetched (data : Data)
  /-- The download fails; what can be removed is. -/
  | fetchFails (tmp sum : Bool)
  | verify (tmp sum : Bool)
  | rename
  | renameFails (tmp : Bool)
  | writePending
  | pendingFails (n : Option Nat) (removed : Bool)
  | exit
  | die
  | commit
  /-- An execution of the script: complete, or cut off after `n` commands, in the middle of
  a `cp` if the bytes that it has written are given. -/
  | script (refreshed : Bool)
  | scriptCut (refreshed : Bool) (n : Nat) (torn : Option Data)
  deriving DecidableEq, Repr

/-- The step belongs to `stageUpgrade`. -/
def StageLabel.isStaging : StageLabel → Bool
  | .begin _ | .fetch _ | .fetched _ | .fetchFails _ _ | .verify _ _ | .rename | .renameFails _ =>
    true
  | _ => false

/-- A `cp` that is cut off leaves its target with some of the bytes, or with others. -/
def tearCp (torn : Option Data) : Cmd → Host → Option Host
  | .cp src dst, h => torn.bind fun d => (h.disk src).map fun f =>
      { h with disk := h.disk.set dst (some { copied f (h.disk dst) with data := d }) }
  | _, _ => none

/-- `stageUpgrade` returns an error; its files are removed, unless that fails. -/
def Station.abandon (s : Station) (tmp sum : Bool) : Station :=
  { s with
    tmp := if tmp then none else s.tmp
    sum := if sum then none else s.sum
    phase := .running }

def Station.step (s : Station) : StageLabel → Option Station
  | .begin tag => if s.phase = .running then some { s with phase := .binary tag } else none
  | .fetch part =>
    match s.phase with
    | .binary _ => some { s with tmp := some part }
    | .checksum _ => some { s with sum := some part }
    | _ => none
  | .fetched data =>
    match s.phase with
    | .binary tag => some { s with tmp := some data, phase := .checksum tag }
    | .checksum tag => some { s with sum := some data, phase := .verify tag }
    | _ => none
  | .fetchFails tmp sum =>
    match s.phase with
    | .binary _ => some (s.abandon tmp false)
    | .checksum _ => some (s.abandon tmp sum)
    | _ => none
  | .verify tmp sum =>
    match s.phase, s.tmp, s.sum with
    | .verify tag, some b, some c =>
      match verifyChecksum b c with
      | .ok => some { s with sum := if sum then none else s.sum, phase := .verified tag c }
      | .error => some (s.abandon tmp sum)
      | .panic => some { s with phase := .stopped }
    -- a file cannot be read
    | .verify _, _, _ => some (s.abandon tmp sum)
    | _, _, _ => none
  | .rename =>
    match s.phase, s.tmp with
    | .verified tag c, some b => some { s with
        host := { s.host with disk := s.host.disk.set .new (some ⟨b, 0o600⟩) }
        tmp := none
        phase := .staged tag
        staged := (b, c) :: s.staged }
    | _, _ => none
  | .renameFails tmp =>
    match s.phase with
    | .verified _ _ => some (s.abandon tmp false)
    | _ => none
  | .writePending =>
    match s.phase with
    | .staged tag => some { s with
        host := { s.host with disk := writeFile s.host.disk .pending (pendingText tag) }
        phase := .exiting }
    | _ => none
  | .pendingFails n removed =>
    match s.phase with
    | .staged tag =>
      let written := pendingCut s.host.disk tag n
      some { s with
        host := { s.host with disk := if removed then written.set .new none else written }
        phase := .running }
    | _ => none
  | .exit => if s.phase = .exiting then some { s with phase := .stopped } else none
  | .die => if s.phase ≠ .stopped then some { s with phase := .stopped } else none
  | .commit =>
    if s.phase ≠ .stopped then
      some { s with host := { s.host with disk := commitMarker s.host.disk } }
    else none
  | .script refreshed =>
    if s.phase = .stopped then
      some { s with
        host := (shell refreshed).final applyUpgradeSh s.host
        phase := if (shell refreshed).status applyUpgradeSh s.host = 0 then .running
          else .stopped }
    else none
  | .scriptCut refreshed n torn =>
    if s.phase = .stopped then
      some { s with host := (shell refreshed).crash (tearCp torn) applyUpgradeSh n s.host }
    else none

/-- A host on which `o` was installed and no upgrade has happened. -/
def Station.install (o : Data) : Station :=
  { host := { disk := fun p => if p = .binary then some ⟨o, 0o755⟩ else none }, phase := .stopped }

end YominsAgent.Upgrade
