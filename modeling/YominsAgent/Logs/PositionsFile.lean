import YominsAgent.Go.JsonMap
import YominsAgent.Logs.Positions

/- The positions and their file (`positions.go`), to the byte.

   `Save` clears the dirty flag before it writes. Where the write fails, the next `Save` finds
   nothing to do and returns nil over a file that is behind (`failed_save_forgotten`). A file that
   could not be read is behind from the start, and a path that is not UTF-8 does not survive the
   JSON. Runs that keep clear of the three are made up for (`save_made_up`).

   The model of `Positions`, with texts for paths and numbers without bounds, follows the same calls
   (`Refines`).

   Correspondence (Go ↔ Lean):
     `Position`                  ↔ `FilePosition`
     the fields of `Positions`   ↔ `Contents`, `Store`
     `os.WriteFile`, `os.Rename` ↔ `WriteResult`
   The temporary file is written by `Save` only and read by nothing: it is left out. -/
namespace YominsAgent.Logs
open Go Lib List Option

/-! ## The positions in memory -/

structure FilePosition where
  inode : UInt64
  offset : Int64
  deriving DecidableEq

/-- The zero `Position`. -/
def FilePosition.zero : FilePosition := ⟨0, 0⟩

/-- What is written to the file. -/
structure Contents where
  files : Map Bytes FilePosition
  journal : Bytes

def Contents.empty : Contents := ⟨∅, []⟩

structure Store where
  contents : Contents
  dirty : Bool

/-- `SetFile`. A path without a position reads as the zero `Position`. -/
def Store.setFile (s : Store) (path : Bytes) (pos : FilePosition) : Store :=
  if (s.contents.files.lookup path).getD .zero ≠ pos then
    ⟨{ s.contents with files := s.contents.files.insert path pos }, true⟩
  else s

def Store.forget (s : Store) (path : Bytes) : Store :=
  if (s.contents.files.lookup path).isSome then
    ⟨{ s.contents with files := s.contents.files.erase path }, true⟩
  else s

def Store.setJournalCursor (s : Store) (c : Bytes) : Store :=
  if s.contents.journal ≠ c then ⟨{ s.contents with journal := c }, true⟩ else s

/-! ## The file -/

def FilePosition.fields : List (Json.Field FilePosition) :=
  [.value "inode".toList (·.inode) (fun p n => { p with inode := n }) Json.encodeUint64
      Json.decodeUint64,
    .value "offset".toList (·.offset) (fun p n => { p with offset := n }) Json.encodeInt64
      Json.decodeInt64]

def Contents.fields : List (Json.Field Contents) :=
  [.value "files".toList (·.files) (fun c m => { c with files := m })
      (Json.encodeMap (Json.encodeStruct FilePosition.fields))
      (Json.decodeMap .zero (Json.decodeStruct FilePosition.fields)),
    .text "journal_cursor".toList (·.journal) (fun c b => { c with journal := b })]

/-- `json.Marshal` of the positions. -/
def Contents.marshal (c : Contents) : Bytes :=
  toBytes (Json.print (Json.encodeStruct Contents.fields c))

/-- `json.Unmarshal` into empty positions. -/
def unmarshal (b : Bytes) : Option Contents :=
  (Json.parse (toText b)).bind (Json.decodeStruct Contents.fields .empty)

/-- `log_positions.json` as `os.ReadFile` finds it. -/
inductive StateFile where
  | absent
  | unreadable
  | text (b : Bytes)

def StateFile.contents : StateFile → Option Contents
  | .absent => some .empty
  | .unreadable => none
  | .text b => unmarshal b

/-- `LoadPositions`: a missing or broken file starts empty. -/
def loadPositions (stateDir : Str) (file : StateFile) : Store :=
  if stateDir.isEmpty then ⟨.empty, false⟩ else ⟨file.contents.getD .empty, false⟩

inductive WriteResult where
  | written
  | writeFails
  | renameFails
  deriving DecidableEq

/-- `Save`: whether it returns nil, and the positions and the file after it. -/
def Store.save (stateDir : Str) (s : Store) (file : StateFile) (w : WriteResult) :
    Bool × Store × StateFile :=
  if !s.dirty || stateDir.isEmpty then (true, s, file)
  else match w with
    | .written => (true, { s with dirty := false }, .text s.contents.marshal)
    | .writeFails => (false, { s with dirty := false }, file)
    | .renameFails => (false, { s with dirty := false }, file)

/-! ## What is written reads back -/

/-- Every path and the cursor are UTF-8. -/
def Contents.isUtf8 (c : Contents) : Bool :=
  decide (∀ k ∈ c.files.keys, validString k = true) && validString c.journal

theorem Contents.isUtf8_iff {c : Contents} :
    c.isUtf8 = true ↔ (∀ k ∈ c.files, validString k = true) ∧ validString c.journal = true := by
  simp [isUtf8, Finmap.mem_keys]

theorem FilePosition.decode_encode (p : FilePosition) :
    Json.decodeStruct FilePosition.fields .zero (Json.encodeStruct FilePosition.fields p) =
      some p := by
  rw [Json.decode_encode (by decide)]
  refine Json.transferAll_cons (Json.transfer_value (Json.decode_encodeUint64 _ _)) ?_
  exact Json.transferAll_cons (Json.transfer_value (Json.decode_encodeInt64 _ _)) rfl

theorem FilePosition.written (p : FilePosition) (d : Nat) :
    Json.Written (d + 1) (Json.encodeStruct FilePosition.fields p) := by
  refine Json.written_encodeStruct ?_ p
  show _ ∧ _
  exact ⟨Json.writes_value fun _ => .int _, Json.writes_value fun _ => .int _⟩

theorem Contents.written (c : Contents) (d : Nat) :
    Json.Written (d + 3) (Json.encodeStruct Contents.fields c) := by
  refine Json.written_encodeStruct ?_ c
  show _ ∧ _
  refine ⟨Json.writes_value fun _ => Json.written_encodeMap fun p => p.written d, fun c j hj => ?_⟩
  simp only [Json.Field.text] at hj
  split at hj
  · cases hj
  · cases hj
    exact .str _

theorem unmarshal_marshal {c : Contents} (h : c.isUtf8 = true) : unmarshal c.marshal = some c := by
  obtain ⟨hkeys, hcursor⟩ := Contents.isUtf8_iff.mp h
  have hwritten : Json.Written Json.maxNestingDepth (Json.encodeStruct Contents.fields c) :=
    c.written 9997
  have hfiles : Json.decodeMap .zero (Json.decodeStruct FilePosition.fields) ∅
      (Json.encodeMap (Json.encodeStruct FilePosition.fields) c.files) = some c.files := by
    refine Json.decodeMap_encodeMap fun k v hv => ?_
    exact ⟨hkeys k (Finmap.mem_iff.mpr ⟨v, hv⟩), FilePosition.decode_encode v⟩
  rw [unmarshal, Contents.marshal, toText_toBytes, Json.parse_written hwritten, bind_some,
    Json.decode_encode (by decide)]
  refine Json.transferAll_cons (Json.transfer_value hfiles) ?_
  exact Json.transferAll_cons (Json.transfer_text hcursor rfl) rfl

/-! ## Runs -/

inductive StoreOp where
  | setFile (path : Bytes) (pos : FilePosition)
  | forget (path : Bytes)
  | setJournalCursor (c : Bytes)
  | save (w : WriteResult)

/-- The positions, their file, whether the file could not be read or the last writing of it
failed, and whether the last call was a `Save` that returned nil. -/
structure StoreSystem where
  store : Store
  file : StateFile
  behind : Bool
  saved : Bool

namespace StoreSystem

/-- After `LoadPositions`. -/
def start (stateDir : Str) (file : StateFile) : StoreSystem :=
  ⟨loadPositions stateDir file, file, file.contents.isNone, false⟩

def step (stateDir : Str) (s : StoreSystem) : StoreOp → Option StoreSystem
  | .setFile path pos => some { s with store := s.store.setFile path pos, saved := false }
  | .forget path => some { s with store := s.store.forget path, saved := false }
  | .setJournalCursor c => some { s with store := s.store.setJournalCursor c, saved := false }
  | .save w =>
    let (ok, store, file) := s.store.save stateDir s.file w
    some ⟨store, file, if s.store.dirty then w ≠ .written else s.behind, ok⟩

/-- A `Save` that writes has UTF-8 to write, and one that finds nothing to write is not
after a failed one. -/
def makesUp (s : StoreSystem) : StoreOp → Bool
  | .save w => if s.store.dirty then w ≠ .written || s.store.contents.isUtf8 else !s.behind
  | _ => true

/-- The file holds the positions and the cursor. -/
def Holds (s : StoreSystem) : Prop := s.file.contents = some s.store.contents

/-- Without changes in memory a file that is not behind holds what is in memory. -/
def Settled (s : StoreSystem) : Prop := s.store.dirty = false → s.behind = false → s.Holds

end StoreSystem

/-- A call that changes something makes the positions dirty. -/
theorem Store.setFile_cases (s : Store) (path : Bytes) (pos : FilePosition) :
    s.setFile path pos = s ∨ (s.setFile path pos).dirty = true := by
  unfold setFile
  split
  · exact .inr rfl
  · exact .inl rfl

theorem Store.forget_cases (s : Store) (path : Bytes) :
    s.forget path = s ∨ (s.forget path).dirty = true := by
  unfold forget
  split
  · exact .inr rfl
  · exact .inl rfl

theorem Store.setJournalCursor_cases (s : Store) (c : Bytes) :
    s.setJournalCursor c = s ∨ (s.setJournalCursor c).dirty = true := by
  unfold setJournalCursor
  split
  · exact .inr rfl
  · exact .inl rfl

namespace StoreSystem
variable {stateDir : Str} {s t : StoreSystem}

theorem settled_start (hdir : stateDir ≠ []) (file : StateFile) :
    (start stateDir file).Settled := by
  intro _ hbehind
  obtain ⟨c, hc⟩ := isSome_iff_exists.mp (isNone_eq_false_iff.mp hbehind)
  have hload : loadPositions stateDir file = ⟨c, false⟩ := by
    simp [loadPositions, hdir, hc]
  simp only [Holds, start, hload, hc]

/-- The calls other than `Save` keep the file and settle nothing. -/
theorem settled_change {store : Store} (h : s.Settled)
    (hstore : store = s.store ∨ store.dirty = true) :
    Settled { s with store := store, saved := false } := by
  intro hclean hbehind
  rcases hstore with rfl | hdirty
  · exact h hclean hbehind
  · rw [hdirty] at hclean
    cases hclean

/-- A step that meets the condition leaves a settled file, and a `Save` that returns nil
leaves one that holds the positions. -/
theorem step_settled (hdir : stateDir ≠ []) {op : StoreOp} (h : s.Settled)
    (hstep : guarded makesUp (step stateDir) s op = some t) :
    t.Settled ∧ (t.saved = true → t.Holds) := by
  obtain ⟨hguard, hstep⟩ := guarded_eq_some.mp hstep
  have hdir' : stateDir.isEmpty = false := by simpa using hdir
  cases op with
  | setFile path pos =>
    cases hstep
    exact ⟨settled_change h (s.store.setFile_cases path pos), nofun⟩
  | forget path =>
    cases hstep
    exact ⟨settled_change h (s.store.forget_cases path), nofun⟩
  | setJournalCursor c =>
    cases hstep
    exact ⟨settled_change h (s.store.setJournalCursor_cases c), nofun⟩
  | save w =>
    simp only [makesUp] at hguard
    cases hdirty : s.store.dirty with
    | false =>
      simp only [step, Store.save, hdirty, Bool.not_false, Bool.true_or, if_true,
        Bool.false_eq_true, if_false, some.injEq] at hstep
      subst hstep
      rw [hdirty, if_neg Bool.false_ne_true, Bool.not_eq_true'] at hguard
      have hholds : s.Holds := h hdirty hguard
      exact ⟨fun _ _ => hholds, fun _ => hholds⟩
    | true =>
      simp only [step, Store.save, hdirty, hdir', Bool.not_true, Bool.or_false,
        Bool.false_eq_true, if_false, if_true, some.injEq] at hstep
      rw [hdirty] at hguard
      cases w with
      | written =>
        subst hstep
        have hutf8 : s.store.contents.isUtf8 = true := by simpa using hguard
        have hholds := unmarshal_marshal hutf8
        exact ⟨fun _ _ => hholds, fun _ => hholds⟩
      | writeFails | renameFails =>
        subst hstep
        refine ⟨?_, nofun⟩
        intro _ hbehind
        cases (hbehind : true = false)

end StoreSystem

/-- In a run in which every step meets the condition, a `Save` that returns nil leaves a
file that holds the positions and the cursor. -/
theorem save_made_up {stateDir : Str} (hdir : stateDir ≠ []) (file : StateFile)
    (ops : List StoreOp) (s : StoreSystem)
    (hrun : run (guarded StoreSystem.makesUp (StoreSystem.step stateDir))
      (StoreSystem.start stateDir file) ops = some s) :
    s.saved = true → s.Holds := by
  have hinv : s.Settled ∧ (s.saved = true → s.Holds) :=
    run_inv (I := fun s => s.Settled ∧ (s.saved = true → s.Holds))
      (fun _ _ _ h hstep => StoreSystem.step_settled hdir h.1 hstep) ops _ s
      ⟨StoreSystem.settled_start hdir file, nofun⟩ hrun
  exact hinv.2

/-- A save that fails, a change, and a save that does not fail. -/
theorem second_save_made_up :
    ∃ s, run (guarded StoreSystem.makesUp (StoreSystem.step "/s".toList))
        (StoreSystem.start "/s".toList .absent)
        [.setFile [0x61] ⟨1, 5⟩, .save .writeFails, .setFile [0x61] ⟨1, 9⟩, .save .written] =
          some s ∧ s.saved = true ∧ s.Holds := by
  refine ⟨_, rfl, rfl, ?_⟩
  exact save_made_up (show "/s".toList ≠ [] by decide) .absent
    [.setFile [0x61] ⟨1, 5⟩, .save .writeFails, .setFile [0x61] ⟨1, 9⟩, .save .written] _ rfl rfl

/-- After a save that failed the next one returns nil and writes nothing. -/
theorem failed_save_forgotten :
    ∃ s, run (StoreSystem.step "/s".toList) (StoreSystem.start "/s".toList .absent)
        [.setFile [0x61] ⟨1, 5⟩, .save .writeFails, .save .written] = some s ∧
      s.saved = true ∧ ¬ s.Holds := by
  refine ⟨_, rfl, rfl, ?_⟩
  intro hholds
  have hfiles := congrArg (fun c => c.map fun c => c.files.lookup [0x61]) hholds
  exact absurd hfiles (by decide)

/-! ## The positions of the pipeline's model -/

/-- The position in the numbers of `Positions`. -/
def FilePosition.abs (p : FilePosition) : Position := (p.inode.toNat, p.offset.toInt.toNat)

theorem FilePosition.abs_inj {p r : FilePosition} (hp : 0 ≤ p.offset.toInt)
    (hr : 0 ≤ r.offset.toInt) : p.abs = r.abs ↔ p = r := by
  constructor
  · intro h
    obtain ⟨hinode, hoffset⟩ := Prod.mk.inj h
    have hint : p.offset.toInt = r.offset.toInt := by omega
    rw [FilePosition.mk.injEq]
    exact ⟨UInt64.toNat_inj.mp hinode, Int64.toInt_inj.mp hint⟩
  · rintro rfl
    rfl

/-- The texts and numbers of `q` are the bytes and machine integers of `s`. No offset is
negative: the readers set none. -/
structure Refines (s : Store) (q : Positions) : Prop where
  files : ∀ p, q.files p = (s.contents.files.lookup (toBytes p)).map FilePosition.abs
  journal : s.contents.journal = toBytes q.journal
  dirty : q.dirty = s.dirty
  forward : ∀ k v, s.contents.files.lookup k = some v → 0 ≤ v.offset.toInt

namespace Refines
variable {s : Store} {q : Positions}

theorem load {stateDir : Str} {file : StateFile} {c : Contents} (hdir : stateDir ≠ [])
    (hc : file.contents = some c) (hjournal : validString c.journal = true)
    (hforward : ∀ k v, c.files.lookup k = some v → 0 ≤ v.offset.toInt) :
    Refines (loadPositions stateDir file)
      (.load ⟨fun p => (c.files.lookup (toBytes p)).map FilePosition.abs, toText c.journal⟩) := by
  have hload : loadPositions stateDir file = ⟨c, false⟩ := by simp [loadPositions, hdir, hc]
  rw [hload]
  exact ⟨fun _ => rfl, (validString_iff.mp hjournal).symm, rfl, hforward⟩

theorem setFile_test (h : Refines s q) {p : Str} {pos : FilePosition}
    (hpos : 0 ≤ pos.offset.toInt) :
    (q.files p).getD (0, 0) = pos.abs ↔ (s.contents.files.lookup (toBytes p)).getD .zero = pos := by
  rw [h.files]
  cases hl : s.contents.files.lookup (toBytes p) with
  | none => exact FilePosition.abs_inj (p := .zero) (by decide) hpos
  | some => exact FilePosition.abs_inj (h.forward _ _ hl) hpos

/-- The position of one path is changed. -/
theorem changed (h : Refines s q) (p : Str) {files : Map Bytes FilePosition}
    (pos : Option FilePosition) (hself : files.lookup (toBytes p) = pos)
    (hother : ∀ k, k ≠ toBytes p → files.lookup k = s.contents.files.lookup k)
    (hpos : ∀ x ∈ pos, 0 ≤ x.offset.toInt) :
    Refines ⟨{ s.contents with files }, true⟩
      { q with files := Cursors.set q.files p (pos.map FilePosition.abs), dirty := true } := by
  refine ⟨fun r => ?_, h.journal, rfl, fun k x hx => ?_⟩
  · by_cases hr : r = p
    · rw [hr, hself]
      exact if_pos rfl
    · have hne : toBytes r ≠ toBytes p := fun he => hr (toBytes_inj.mp he)
      simp [Cursors.set, hr, hother _ hne, h.files]
  · by_cases hk : k = toBytes p
    · rw [hk, hself] at hx
      exact hpos x hx
    · rw [hother k hk] at hx
      exact h.forward k x hx

theorem setFile (h : Refines s q) (p : Str) {pos : FilePosition} (hpos : 0 ≤ pos.offset.toInt) :
    Refines (s.setFile (toBytes p) pos) (q.setFile p pos.abs) := by
  unfold Store.setFile Positions.setFile
  simp only [ne_eq, h.setFile_test hpos]
  split
  · exact h.changed p (some pos) (Finmap.lookup_insert _)
      (fun _ => Finmap.lookup_insert_of_ne _) (by simpa using hpos)
  · exact h

theorem forget (h : Refines s q) (p : Str) : Refines (s.forget (toBytes p)) (q.forget p) := by
  unfold Store.forget Positions.forget
  rw [h.files, isSome_map]
  split
  · exact h.changed p none (Finmap.lookup_erase _ _) (fun _ => Finmap.lookup_erase_ne) (by simp)
  · exact h

theorem setJournalCursor (h : Refines s q) (c : Str) :
    Refines (s.setJournalCursor (toBytes c)) (q.setJournalCursor c) := by
  unfold Store.setJournalCursor Positions.setJournalCursor
  simp only [h.journal, ne_eq, toBytes_inj]
  split
  · exact ⟨h.files, rfl, rfl, h.forward⟩
  · exact h

/-- `Save` writes where `beginSave` has something to write, and what it has. -/
theorem save (h : Refines s q) (stateDir : Str) (file : StateFile) (w : WriteResult) :
    Refines (s.save stateDir file w).2.1 (q.beginSave stateDir).2 ∧
    ((q.beginSave stateDir).1 = none → (s.save stateDir file w).2.2 = file) ∧
    (∀ saved, (q.beginSave stateDir).1 = some saved → saved = ⟨q.files, q.journal⟩ ∧
        (s.save stateDir file w).2.2 = if w = .written then .text s.contents.marshal else file) := by
  unfold Store.save Positions.beginSave
  rw [h.dirty]
  split
  · exact ⟨h, fun _ => rfl, nofun⟩
  · refine ⟨?_, nofun, ?_⟩
    · cases w <;> exact ⟨h.files, h.journal, rfl, h.forward⟩
    · intro saved hsaved
      cases hsaved
      cases w <;> exact ⟨rfl, rfl⟩

end Refines

end YominsAgent.Logs
