import Mathlib.Data.List.DropRight
import Mathlib.Data.List.Sort
import YominsAgent.Logs.Allow
import YominsAgent.Logs.Positions

/- `FileSource` (`tail.go`): it finds the files of its specs, follows them across rotations, and
   sends their lines as entries that carry the position after the line.

   The goroutine of `Run` is a machine (`sourceStep`) that takes one step from one contact with the
   outside to the next: a look at the file system, an access to the positions, a send. Between two
   steps anything may happen there.

   Correspondence (Go ↔ Lean):
     `scan`, `discover` ↔ `scan`, `discover`, and the control states
     `open`             ↔ `openFile`, `firstOffset`, the state `registering`
     `read`             ↔ `rewind`, `fill`, `readRest`, `close`
   The file system is a parameter (`FileSystem`). The counters `denied` and `outside` and the
   warnings are left out: nothing reads them back. -/
namespace YominsAgent.Logs
open Go Lib List Option

def maxLineBytes : Nat := 65536
def readChunk : Nat := 262144
def maxFiles : Nat := 500
def partialFlush : Int := 5 * second
def discoverEvery : Int := 10 * second
/-- `FileSource.interval`. -/
def interval : Int := second

structure FileSpec where
  source : Str
  globs : List Str
  exclude : List Str
  parser : Str
  container : Str
  deriving DecidableEq, Repr

/-- What the agent sees of the file systems `φ`. -/
structure FileSystem (φ : Type) where
  /-- `filepath.Glob`: paths as spelled, links not followed. -/
  glob : φ → Str → List Str
  /-- `filepath.Match`; a bad pattern matches nothing. -/
  fileMatch : Str → Str → Bool
  /-- `os.Stat`, which follows links: the inode, and whether it is a regular file. -/
  stat : φ → Str → Option (Inode × Bool)
  /-- `os.Open` is permitted. -/
  readable : φ → Str → Bool
  /-- The path with every symbolic link followed. -/
  real : φ → Str → Str
  /-- A path that a glob has found is found again as long as it exists. -/
  glob_stable : ∀ w w' g p, p ∈ glob w g → stat w' p ≠ none → p ∈ glob w' g

/-- What a source is built from; `parse` makes the content of an entry from a line. -/
structure SourceConfig (φ ε : Type) where
  fs : FileSystem φ
  specs : List FileSpec
  allow : List Str
  parse : FileSpec → Str → Bytes → ε

/-- The globs of all specs, in the order `discover` goes through them. -/
def SourceConfig.globs {φ ε : Type} (cfg : SourceConfig φ ε) : List (FileSpec × Str) :=
  cfg.specs.flatMap fun spec => spec.globs.map fun g => (spec, g)

/-! ## Which files are read -/

def isDigits (s : Str) : Bool := s.all Char.isDigit && !s.isEmpty

/-- The names logrotate leaves behind. -/
def isRotatedName (p : Str) : Bool :=
  let name := base p
  [".gz", ".xz", ".bz2", ".zst", ".zip", ".old", ".bak"].any (fun e => hasSuffix name e.toList) ||
    isDigits ((ext name).drop 1) ||
    (name.contains '-' && (afterLast '-' name).length == 8 && isDigits (afterLast '-' name))

inductive Verdict where
  | read
  | skip
  | outside
  deriving DecidableEq, Repr

variable {φ ε : Type}

def wanted (cfg : SourceConfig φ ε) (w : φ) (p : Str) (spec : FileSpec) : Verdict :=
  if isRotatedName p then .skip
  else if spec.exclude.any fun ex => cfg.fs.fileMatch ex p then .skip
  else match cfg.fs.stat w p with
    | some (_, true) => if allowed p cfg.allow then .read else .outside
    | _ => .skip

theorem wanted_eq_read {cfg : SourceConfig φ ε} {w : φ} {p : Str} {spec : FileSpec} :
    wanted cfg w p spec = .read ↔ isRotatedName p = false ∧
      (spec.exclude.any fun ex => cfg.fs.fileMatch ex p) = false ∧
      (∃ i, cfg.fs.stat w p = some (i, true)) ∧ allowed p cfg.allow = true := by
  unfold wanted
  split
  · next hrot => simp [hrot]
  · next hrot =>
    split
    · next hex => simp [hex]
    · next hex =>
      split
      · next i hstat =>
        split
        · next ha => simp [hrot, hex, hstat, ha]
        · next ha => simp [ha]
      · next hstat =>
        constructor
        · exact nofun
        · rintro ⟨-, -, ⟨i, hi⟩, -⟩
          exact absurd hi (hstat i)

/-! ## Lines -/

/-- `bytes.TrimRight(line, "\r")`. -/
def trimCR (line : Bytes) : Bytes := line.rdropWhile (· == 13)

/-- The test of `emit`: nothing but white space. -/
def isBlank (line : Bytes) : Bool := (toText (trimCR line)).all isSpace

/-- The message of a line: a long one is cut and marked. -/
def cutLine (line : Bytes) : Bytes :=
  if line.length > maxLineBytes then line.take maxLineBytes ++ toBytes "…[truncated]".toList
  else line

/-- The complete lines of `data`, without their newlines, and what follows them. -/
def splitLines : Bytes → List Bytes × Bytes
  | [] => ([], [])
  | b :: data =>
    let (lines, rest) := splitLines data
    if b = 10 then ([] :: lines, rest)
    else match lines with
      | [] => ([], b :: rest)
      | line :: lines => ((b :: line) :: lines, rest)

def joinLines (lines : List Bytes) : Bytes := lines.flatMap (· ++ [10])

theorem joinLines_splitLines (data : Bytes) :
    joinLines (splitLines data).1 ++ (splitLines data).2 = data := by
  induction data with
  | nil => rfl
  | cons b data ih =>
    simp only [splitLines]
    split
    · next hb =>
      rw [hb]
      exact congrArg (10 :: ·) ih
    · split
      · next hl =>
        rw [hl] at ih
        exact congrArg (b :: ·) ih
      · next line lines hl =>
        rw [hl] at ih
        exact congrArg (b :: ·) ih

/-- The bytes `bs` stand at the offset `off` of the content `data`. -/
def At (data : Bytes) (off : Nat) (bs : Bytes) : Prop :=
  ∃ before, before.length = off ∧ before ++ bs <+: data

namespace At
variable {data more a b : Bytes} {off n : Nat}

theorem grow (h : At data off a) : At (data ++ more) off a := by
  obtain ⟨before, hlen, hpre⟩ := h
  exact ⟨before, hlen, hpre.trans (prefix_append data more)⟩

theorem le (h : At data off a) : off + a.length ≤ data.length := by
  obtain ⟨before, rfl, hpre⟩ := h
  simpa using hpre.length_le

theorem nil (h : off ≤ data.length) : At data off [] :=
  ⟨data.take off, by simp [h], by simpa using take_prefix off data⟩

theorem left (h : At data off (a ++ b)) : At data off a := by
  obtain ⟨before, hlen, hpre⟩ := h
  refine ⟨before, hlen, List.IsPrefix.trans ?_ hpre⟩
  rw [← append_assoc]
  exact prefix_append _ b

theorem right (h : At data off (a ++ b)) : At data (off + a.length) b := by
  obtain ⟨before, hlen, hpre⟩ := h
  exact ⟨before ++ a, by simp [hlen], by rwa [append_assoc]⟩

theorem fill (h : At data off a) : At data off (a ++ (data.drop (off + a.length)).take n) := by
  obtain ⟨before, rfl, ⟨rest, rfl⟩⟩ := h
  refine ⟨before, rfl, ?_⟩
  have hdrop : (before ++ a ++ rest).drop (before.length + a.length) = rest := by
    rw [← length_append, drop_left]
  rw [hdrop, ← append_assoc]
  exact (prefix_append_right_inj _).mpr (List.take_prefix n rest)

end At

/-! ## The followed files -/

structure TailedFile where
  path : Str
  spec : FileSpec
  inode : Inode
  /-- Bytes read so far, up to the start of the unfinished line. -/
  offset : Nat
  /-- `partial`, the unfinished line, and when it was first kept. -/
  part : Bytes
  partAt : Option Int
  /-- The path vanished or leads elsewhere: drain the file, then close it. -/
  gone : Bool
  /-- Where the path led when the file was opened. -/
  real : Str
  deriving DecidableEq, Repr

/-- What the call of an entry's `ack` does. -/
inductive Ack where
  /-- `SetFile` with the end of what the entry was read from. -/
  | file (sp : Span Str Inode)
  /-- `SetJournalCursor`. -/
  | journal (cursor : Str)
  deriving DecidableEq, Repr

structure Entry (ε : Type) where
  body : ε
  ack : Ack

/-- What a step of the source does outside of it. -/
inductive Effect (ε : Type) where
  | quiet
  | setFile (p : Str) (pos : Position) (resumed : Bool)
  | forget (p : Str)
  /-- A blank piece is passed over. -/
  | skip (sp : Span Str Inode)
  | send (e : Entry ε)

/-- The switch of `open`: where reading starts, and whether it resumes. -/
def firstOffset (pos : Option Position) (i : Inode) (size : Nat) (started now : Int) : Nat × Bool :=
  match pos with
  | some (j, o) => if j = i ∧ o ≤ size then (o, true) else (0, false)
  | none => if now - started > 2 * interval then (0, false) else (size, false)

/-- `emit`, up to the send. -/
def emit (cfg : SourceConfig φ ε) (tf : TailedFile) (line : Bytes) (consumed : Nat) :
    TailedFile × Effect ε :=
  let sp : Span Str Inode := ⟨tf.path, tf.inode, tf.offset, tf.offset + consumed⟩
  ({ tf with offset := tf.offset + consumed },
    if isBlank line then .skip sp
    else .send ⟨cfg.parse tf.spec tf.path (cutLine (trimCR line)), .file sp⟩)

/-- The check of `read` for a file that was truncated in place. -/
def rewind (size : Nat) (tf : TailedFile) : TailedFile :=
  if size < tf.offset + tf.part.length then { tf with offset := 0, part := [] } else tf

theorem rewind_same (size : Nat) (tf : TailedFile) :
    (rewind size tf).path = tf.path ∧ (rewind size tf).inode = tf.inode ∧
      (rewind size tf).gone = tf.gone := by
  unfold rewind
  split <;> exact ⟨rfl, rfl, rfl⟩

/-- What `io.ReadFull` reads. -/
def fill (data : Bytes) (tf : TailedFile) : Bytes :=
  (data.drop (tf.offset + tf.part.length)).take readChunk

/-- `partAt` is set and more than `partialFlush` ago. -/
def overdue (now : Int) (tf : TailedFile) : Bool :=
  match tf.partAt with
  | some t => now - t > partialFlush
  | none => false

/-- The switch of `read` over what follows the last newline. -/
def readRest (cfg : SourceConfig φ ε) (now : Int) (tf : TailedFile) (rest : Bytes) :
    TailedFile × Effect ε :=
  if rest.length ≥ maxLineBytes then emit cfg tf rest rest.length
  else if rest.length > 0 then
    if tf.gone || overdue now tf then
      let (tf, effect) := emit cfg tf rest rest.length
      ({ tf with partAt := none }, effect)
    else ({ tf with part := rest, partAt := tf.partAt.or (some now) }, .quiet)
  else ({ tf with partAt := none }, .quiet)

/-- `read` closes the file at its end. -/
def drained (tf : TailedFile) (n : Nat) : Bool := tf.gone && n < readChunk && tf.part.length == 0

/-! ## The goroutine -/

structure Discovery where
  seen : List Str
  spec : FileSpec
  /-- The matches of the present glob that are still to be looked at. -/
  found : List Str
  /-- The globs still to come. -/
  todo : List (FileSpec × Str)

/-- Where the goroutine stands: what it does next. -/
inductive SourceControl where
  /-- Start the next round. -/
  | idle
  | discovering (d : Discovery)
  /-- `os.Open`. -/
  | opening (d : Discovery) (p : Str)
  /-- `f.Stat`. -/
  | opened (d : Discovery) (p : Str) (i : Inode) (real : Str)
  /-- `positions.File`, and the switch of `open`. -/
  | sized (d : Discovery) (p : Str) (i : Inode) (real : Str) (size : Nat)
  /-- `positions.SetFile`. -/
  | registering (d : Discovery) (tf : TailedFile) (resumed : Bool)
  /-- `os.Stat` of the followed files, in the order of the map. -/
  | checking (todo : List Str)
  /-- `read` the next file. -/
  | reading (todo : List Str)
  /-- `io.ReadFull`. -/
  | filling (p : Str) (todo : List Str)
  /-- The loop of `read` over its lines; `n` bytes were read. -/
  | emitting (p : Str) (lines : List Bytes) (rest : Bytes) (n : Nat) (todo : List Str)
  /-- The end of `read`. -/
  | closing (p : Str) (n : Nat) (todo : List Str)
  /-- `positions.Forget`. -/
  | forgetting (p : Str) (todo : List Str)
  | stopped

structure Source where
  files : List TailedFile
  lastFound : Option Int
  started : Int
  control : SourceControl

/-- What the source sees of its surroundings: the clock, the paths, and the
content of each inode. -/
structure Env (φ : Type) where
  now : Int
  world : φ
  data : Inode → Bytes

/-- The entry of `s.files` for a path. -/
def findFile (files : List TailedFile) (p : Str) : Option TailedFile :=
  files.find? (·.path == p)

namespace Source

def file? (src : Source) (p : Str) : Option TailedFile := findFile src.files p

def isFollowed (src : Source) (p : Str) : Bool := src.files.any (·.path == p)

def put (src : Source) (tf : TailedFile) : List TailedFile :=
  src.files.map fun x => if x.path = tf.path then tf else x

def delete (src : Source) (p : Str) : List TailedFile := src.files.filter (·.path ≠ p)

/-- The files that satisfy `p` are marked gone. -/
def markGone (src : Source) (p : TailedFile → Bool) : List TailedFile :=
  src.files.map fun tf => if p tf then { tf with gone := true } else tf

def paths (src : Source) : List Str := src.files.map (·.path)

end Source

/-- The order of Go's strings. -/
def strLe : Str → Str → Bool
  | [], _ => true
  | _ :: _, [] => false
  | a :: s, b :: t => a < b || (a == b && strLe s t)

/-- The paths in the order of `sorted`. -/
def Source.sorted (src : Source) : List Str := src.paths.insertionSort fun a b => strLe a b = true

variable (cfg : SourceConfig φ ε) (env : Env φ)

/-- The start of `scan`. -/
def scan (src : Source) : Source :=
  if src.lastFound.all fun t => env.now - t ≥ discoverEvery then
    { src with
      lastFound := some env.now
      control := .discovering ⟨[], ⟨[], [], [], [], []⟩, [], cfg.globs⟩ }
  else { src with control := .checking src.paths }

/-- The loops of `discover` go on: with the next match, with the next glob, or to
their end. -/
def discover (d : Discovery) (src : Source) : Source :=
  match d.found with
  | p :: found =>
    let d := { d with found }
    let control :=
      if d.seen.contains p then .discovering d
      else if src.isFollowed p then .discovering { d with seen := p :: d.seen }
      else match wanted cfg env.world p d.spec with
        | .skip => .discovering d
        | .outside => .discovering d
        | .read =>
          let d := { d with seen := p :: d.seen }
          if src.files.length ≥ maxFiles then .discovering d else .opening d p
    { src with control }
  | [] =>
    match d.todo with
    | (spec, g) :: todo =>
      { src with
        control := .discovering { d with spec, found := cfg.fs.glob env.world g, todo } }
    | [] =>
      let files := src.markGone fun tf => !d.seen.contains tf.path
      { src with files, control := .checking src.paths }

/-- `os.Open`. -/
def openFile (d : Discovery) (p : Str) : SourceControl :=
  match cfg.fs.stat env.world p with
  | some (i, _) =>
    if cfg.fs.readable env.world p then .opened d p i (cfg.fs.real env.world p)
    else .discovering d
  | none => .discovering d

/-- `positions.File` and the switch of `open`. -/
def chooseOffset (pos : Positions) (d : Discovery) (p : Str) (i : Inode) (real : Str) (size : Nat)
    (src : Source) : SourceControl :=
  let (offset, resumed) := firstOffset (pos.files p) i size src.started env.now
  .registering d
    { path := p, spec := d.spec, inode := i, offset, part := [], partAt := none, gone := false,
      real } resumed

/-- One turn of the loop of `scan`: the path of a followed file is looked up. -/
def check (p : Str) (todo : List Str) (src : Source) : Source :=
  let gone (tf : TailedFile) : Bool :=
    tf.path == p && ((cfg.fs.stat env.world p).map (·.1) != some tf.inode)
  { src with files := src.markGone gone, control := .checking (todo.erase p) }

/-- The next send of `read`, or what it does after the last one. -/
def emitNext (tf : TailedFile) (lines : List Bytes) (rest : Bytes) (n : Nat) (todo : List Str)
    (src : Source) : Source × Effect ε :=
  match lines with
  | line :: lines =>
    let (tf', effect) := emit cfg tf line (line.length + 1)
    ({ src with files := src.put tf', control := .emitting tf.path lines rest n todo }, effect)
  | [] =>
    let (tf', effect) := readRest cfg env.now tf rest
    ({ src with files := src.put tf', control := .closing tf.path n todo }, effect)

/-- The end of `read`. -/
def close (tf : TailedFile) (n : Nat) (todo : List Str) (src : Source) : Source :=
  if drained tf n then
    { src with
      files := src.delete tf.path, lastFound := none
      control := if (cfg.fs.stat env.world tf.path).isSome then .reading todo
        else .forgetting tf.path todo }
  else { src with control := .reading todo }

/-- One step of the goroutine. `pick` is what the iteration over the map of
followed files gives next, where there is one. -/
def sourceStep (pos : Positions) (pick : Str) (src : Source) : Option (Source × Effect ε) :=
  match src.control with
  | .idle => some (scan cfg env src, .quiet)
  | .discovering d => some (discover cfg env d src, .quiet)
  | .opening d p => some ({ src with control := openFile cfg env d p }, .quiet)
  | .opened d p i real =>
    some ({ src with control := .sized d p i real (env.data i).length }, .quiet)
  | .sized d p i real size =>
    some ({ src with control := chooseOffset env pos d p i real size src }, .quiet)
  | .registering d tf resumed =>
    some ({ src with files := src.files ++ [tf], control := .discovering d },
      .setFile tf.path (tf.inode, tf.offset) resumed)
  | .checking [] => some ({ src with control := .reading src.sorted }, .quiet)
  | .checking todo => if todo.contains pick then some (check cfg env pick todo src, .quiet) else none
  | .reading [] => some ({ src with control := .idle }, .quiet)
  | .reading (p :: todo) =>
    (src.file? p).map fun tf =>
      ({ src with
        files := src.put (rewind (env.data tf.inode).length tf), control := .filling p todo }, .quiet)
  | .filling p todo =>
    (src.file? p).map fun tf =>
      let chunk := fill (env.data tf.inode) tf
      let (lines, rest) := splitLines (tf.part ++ chunk)
      ({ src with
        files := src.put { tf with part := [] }
        control := .emitting p lines rest chunk.length todo }, .quiet)
  | .emitting p lines rest n todo =>
    (src.file? p).map fun tf => emitNext cfg env tf lines rest n todo src
  | .closing p n todo => (src.file? p).map fun tf => (close cfg env tf n todo src, .quiet)
  | .forgetting p todo => some ({ src with control := .reading todo }, .forget p)
  | .stopped => none

/-! ## The map of followed files -/

section Files
variable {src : Source} {files : List TailedFile} {tf old : TailedFile} {p q : Str}

theorem findFile_path (h : findFile files p = some tf) : tf.path = p := by
  simpa using find?_some h

theorem findFile_mem (h : findFile files p = some tf) : tf ∈ files := mem_of_find?_eq_some h

theorem isFollowed_eq : src.isFollowed p = (src.file? p).isSome := by
  rw [Bool.eq_iff_iff]
  simp [Source.isFollowed, Source.file?, findFile]

theorem mem_paths : p ∈ src.paths ↔ (src.file? p).isSome = true := by
  rw [← isFollowed_eq]
  simp [Source.paths, Source.isFollowed]

theorem paths_put : (src.put tf).map (·.path) = src.paths := by
  unfold Source.put Source.paths
  rw [List.map_map]
  refine List.map_congr_left fun x _ => ?_
  simp only [Function.comp_apply]
  split
  · next hx => exact hx.symm
  · rfl

theorem paths_markGone (f : TailedFile → Bool) :
    (src.markGone f).map (·.path) = src.paths := by
  unfold Source.markGone Source.paths
  rw [List.map_map]
  refine List.map_congr_left fun x _ => ?_
  simp only [Function.comp_apply]
  split <;> rfl

theorem findFile_put (h : findFile src.files tf.path = some old) :
    findFile (src.put tf) q = if q = tf.path then some tf else findFile src.files q := by
  have hpath : ∀ x : TailedFile, (if x.path = tf.path then tf else x).path = x.path := by
    intro x
    split
    · next hx => exact hx.symm
    · rfl
  have hput : findFile (src.put tf) q =
      (findFile src.files q).map fun x => if x.path = tf.path then tf else x := by
    unfold Source.put findFile
    rw [find?_map]
    congr 2
    funext x
    exact congrArg (· == q) (hpath x)
  rw [hput]
  split
  · next hq =>
    rw [hq, h, map_some, if_pos (findFile_path h)]
  · next hq =>
    cases hfind : findFile src.files q with
    | none => rfl
    | some =>
      rw [map_some, if_neg]
      rw [findFile_path hfind]
      exact hq

theorem findFile_put_self (h : findFile src.files p = some old) (hpath : tf.path = old.path) :
    findFile (src.put tf) p = some tf := by
  have hp : tf.path = p := hpath.trans (findFile_path h)
  rw [findFile_put (hp.symm ▸ h), if_pos hp.symm]

theorem findFile_delete :
    findFile (src.delete p) q = if q = p then none else findFile src.files q := by
  unfold Source.delete findFile
  rw [find?_filter]
  split
  · next hq => simp [hq]
  · next hq =>
    congr 1
    funext x
    by_cases hx : x.path = q <;> simp [hx, hq]

theorem findFile_snoc (h : findFile files tf.path = none) :
    findFile (files ++ [tf]) q = if q = tf.path then some tf else findFile files q := by
  unfold findFile at *
  rw [find?_append]
  by_cases hq : q = tf.path
  · subst hq
    simp [h]
  · have hne : ¬ tf.path = q := fun he => hq he.symm
    simp [hq, hne]

theorem findFile_markGone (f : TailedFile → Bool) : findFile (src.markGone f) q =
      (findFile src.files q).map fun tf => if f tf then { tf with gone := true } else tf := by
  unfold Source.markGone findFile
  rw [find?_map]
  congr 2
  funext x
  show ((if f x then { x with gone := true } else x).path == q) = (x.path == q)
  split <;> rfl

end Files

/-! ## What a step can be -/

section Moves
variable (pos : Positions)

/-- A match is not opened; these are the paths seen after it. -/
inductive Passed (src : Source) (d : Discovery) (p : Str) : List Str → Prop where
  | seen (h : p ∈ d.seen) : Passed src d p d.seen
  | followed (h : (src.file? p).isSome = true) : Passed src d p (p :: d.seen)
  | unwanted (hnew : src.file? p = none) (hw : wanted cfg env.world p d.spec ≠ .read) :
      Passed src d p d.seen
  | full (hlen : maxFiles ≤ src.files.length) : Passed src d p (p :: d.seen)

/-- Every step of the goroutine, by where it stands. -/
inductive SourceMove (src : Source) : Source → Effect ε → Prop where
  | search (hc : src.control = .idle) :
      SourceMove src { src with
        lastFound := some env.now
        control := .discovering ⟨[], ⟨[], [], [], [], []⟩, [], cfg.globs⟩ } .quiet
  | noSearch (hc : src.control = .idle) :
      SourceMove src { src with control := .checking src.paths } .quiet
  | pass (d : Discovery) (p : Str) (found seen : List Str) (hc : src.control = .discovering d)
      (hfound : d.found = p :: found) (hp : Passed cfg env src d p seen) :
      SourceMove src { src with control := .discovering { d with found, seen } } .quiet
  | candidate (d : Discovery) (p : Str) (found : List Str) (hc : src.control = .discovering d)
      (hfound : d.found = p :: found) (hnew : src.file? p = none)
      (hw : wanted cfg env.world p d.spec = .read) :
      SourceMove src { src with
        control := .opening { d with found, seen := p :: d.seen } p } .quiet
  | nextGlob (d : Discovery) (spec : FileSpec) (g : Str) (todo : List (FileSpec × Str))
      (hc : src.control = .discovering d) (hfound : d.found = [])
      (htodo : d.todo = (spec, g) :: todo) :
      SourceMove src { src with
        control := .discovering { d with spec, found := cfg.fs.glob env.world g, todo } } .quiet
  | endSearch (d : Discovery) (hc : src.control = .discovering d) (hfound : d.found = [])
      (htodo : d.todo = []) :
      SourceMove src { src with
        files := src.markGone fun tf => !d.seen.contains tf.path
        control := .checking src.paths } .quiet
  | notOpened (d : Discovery) (p : Str) (hc : src.control = .opening d p)
      (hstat : cfg.fs.stat env.world p = none ∨ cfg.fs.readable env.world p = false) :
      SourceMove src { src with control := .discovering d } .quiet
  | opened (d : Discovery) (p : Str) (i : Inode) (hc : src.control = .opening d p)
      (hstat : (cfg.fs.stat env.world p).map (·.1) = some i) :
      SourceMove src { src with control := .opened d p i (cfg.fs.real env.world p) } .quiet
  | sized (d : Discovery) (p : Str) (i : Inode) (real : Str)
      (hc : src.control = .opened d p i real) :
      SourceMove src { src with control := .sized d p i real (env.data i).length } .quiet
  | choose (d : Discovery) (p : Str) (i : Inode) (real : Str) (size : Nat)
      (hc : src.control = .sized d p i real size) :
      SourceMove src { src with control := chooseOffset env pos d p i real size src } .quiet
  | register (d : Discovery) (tf : TailedFile) (resumed : Bool)
      (hc : src.control = .registering d tf resumed) :
      SourceMove src { src with files := src.files ++ [tf], control := .discovering d }
        (.setFile tf.path (tf.inode, tf.offset) resumed)
  | check (p : Str) (todo : List Str) (hc : src.control = .checking todo) (hp : p ∈ todo) :
      SourceMove src (check cfg env p todo src) .quiet
  | endCheck (hc : src.control = .checking []) :
      SourceMove src { src with control := .reading src.sorted } .quiet
  | endRound (hc : src.control = .reading []) :
      SourceMove src { src with control := .idle } .quiet
  | rewind (p : Str) (todo : List Str) (tf : TailedFile) (hc : src.control = .reading (p :: todo))
      (hp : src.file? p = some tf) :
      SourceMove src { src with
        files := src.put (rewind (env.data tf.inode).length tf), control := .filling p todo } .quiet
  | fill (p : Str) (todo : List Str) (tf : TailedFile) (lines : List Bytes) (rest : Bytes)
      (hc : src.control = .filling p todo) (hp : src.file? p = some tf)
      (hsplit : splitLines (tf.part ++ fill (env.data tf.inode) tf) = (lines, rest)) :
      SourceMove src { src with
        files := src.put { tf with part := [] }
        control := .emitting p lines rest (fill (env.data tf.inode) tf).length todo } .quiet
  | line (p : Str) (l : Bytes) (lines : List Bytes) (rest : Bytes) (n : Nat) (todo : List Str)
      (tf : TailedFile) (hc : src.control = .emitting p (l :: lines) rest n todo)
      (hp : src.file? p = some tf) :
      SourceMove src { src with
        files := src.put { tf with offset := tf.offset + (l.length + 1) }
        control := .emitting p lines rest n todo } (emit cfg tf l (l.length + 1)).2
  /-- What follows the last newline goes to `emit`. -/
  | rest (p : Str) (rest : Bytes) (n : Nat) (todo : List Str) (tf : TailedFile)
      (partAt : Option Int) (hc : src.control = .emitting p [] rest n todo)
      (hp : src.file? p = some tf) :
      SourceMove src { src with
        files := src.put { tf with offset := tf.offset + rest.length, partAt }
        control := .closing p n todo } (emit cfg tf rest rest.length).2
  /-- It is kept, or there is nothing of it. -/
  | keep (p : Str) (rest part : Bytes) (n : Nat) (todo : List Str) (tf : TailedFile)
      (partAt : Option Int) (hc : src.control = .emitting p [] rest n todo)
      (hp : src.file? p = some tf)
      (hpart : part = rest ∧ partAt.isSome = true ∨ rest = [] ∧ part = tf.part) :
      SourceMove src { src with
        files := src.put { tf with part, partAt }, control := .closing p n todo } .quiet
  | shut (p : Str) (n : Nat) (todo : List Str) (tf : TailedFile)
      (hc : src.control = .closing p n todo) (hp : src.file? p = some tf)
      (hd : drained tf n = true) :
      SourceMove src { src with
        files := src.delete p, lastFound := none
        control := if (cfg.fs.stat env.world p).isSome then .reading todo
          else .forgetting p todo } .quiet
  | leave (p : Str) (n : Nat) (todo : List Str) (hc : src.control = .closing p n todo) :
      SourceMove src { src with control := .reading todo } .quiet
  | forget (p : Str) (todo : List Str) (hc : src.control = .forgetting p todo) :
      SourceMove src { src with control := .reading todo } (.forget p)

variable {cfg env pos} {src src' : Source} {effect : Effect ε}

theorem Passed.mono {d : Discovery} {p : Str} {seen : List Str} (h : Passed cfg env src d p seen) :
    ∀ q ∈ d.seen, q ∈ seen := by
  intro q hq
  cases h with
  | seen => exact hq
  | unwanted => exact hq
  | _ => exact mem_cons_of_mem p hq

theorem Passed.mem_or_new {d : Discovery} {p : Str} {seen : List Str}
    (h : Passed cfg env src d p seen) : p ∈ seen ∨ src.file? p = none := by
  cases h with
  | seen h => exact .inl h
  | unwanted hnew => exact .inr hnew
  | _ => exact .inl mem_cons_self

theorem discover_move {d : Discovery} (hc : src.control = .discovering d) :
    SourceMove cfg env pos src (discover cfg env d src) .quiet := by
  unfold discover
  split
  · next p found hfound =>
    simp only
    split
    · next hseen => exact .pass d p found _ hc hfound (.seen (by simpa using hseen))
    · split
      · next hold => exact .pass d p found _ hc hfound (.followed (isFollowed_eq ▸ hold))
      · next hnew =>
        have hnone : src.file? p = none := by
          rw [isFollowed_eq] at hnew
          simpa using hnew
        split
        · next hw => exact .pass d p found _ hc hfound (.unwanted hnone (by rw [hw]; exact nofun))
        · next hw => exact .pass d p found _ hc hfound (.unwanted hnone (by rw [hw]; exact nofun))
        · next hw =>
          split
          · next hlen => exact .pass d p found _ hc hfound (.full hlen)
          · exact .candidate d p found hc hfound hnone hw
  · next hfound =>
    split
    · next spec g todo htodo => exact .nextGlob d spec g todo hc hfound htodo
    · next htodo => exact .endSearch d hc hfound htodo

theorem emitNext_move {p : Str} {lines : List Bytes} {rest : Bytes} {n : Nat} {todo : List Str}
    {tf : TailedFile} (hc : src.control = .emitting p lines rest n todo)
    (hp : src.file? p = some tf) :
    SourceMove cfg env pos src (emitNext cfg env tf lines rest n todo src).1
      (emitNext cfg env tf lines rest n todo src).2 := by
  obtain rfl := findFile_path hp
  cases lines with
  | cons l lines => exact .line tf.path l lines rest n todo tf hc hp
  | nil =>
    simp only [emitNext, readRest]
    split
    · exact .rest tf.path rest n todo tf tf.partAt hc hp
    · split
      · split
        · exact .rest tf.path rest n todo tf none hc hp
        · refine .keep tf.path rest rest n todo tf _ hc hp (.inl ⟨rfl, ?_⟩)
          cases tf.partAt <;> rfl
      · next hnone =>
        have hrest : rest = [] := length_eq_zero_iff.mp (by omega)
        exact .keep tf.path rest tf.part n todo tf none hc hp (.inr ⟨hrest, rfl⟩)

theorem sourceStep_move {pick : Str} (h : sourceStep cfg env pos pick src = some (src', effect)) :
    SourceMove cfg env pos src src' effect := by
  unfold sourceStep at h
  split at h
  · next hc =>
    cases h
    unfold scan
    split
    · exact .search hc
    · exact .noSearch hc
  · next d hc =>
    cases h
    exact discover_move hc
  · next d p hc =>
    cases h
    unfold openFile
    split
    · next i reg hstat =>
      split
      · exact .opened d p i hc (by rw [hstat]; rfl)
      · next hread => exact .notOpened d p hc (.inr (by simpa using hread))
    · next hstat => exact .notOpened d p hc (.inl hstat)
  · next d p i real hc => cases h; exact .sized d p i real hc
  · next d p i real size hc => cases h; exact .choose d p i real size hc
  · next d tf resumed hc => cases h; exact .register d tf resumed hc
  · next hc => cases h; exact .endCheck hc
  · next todo _ hc =>
    split at h
    · next hp => cases h; exact .check pick todo hc (by simpa using hp)
    · cases h
  · next hc => cases h; exact .endRound hc
  · next p todo hc =>
    obtain ⟨tf, hp, heq⟩ := map_eq_some_iff.mp h
    cases heq
    exact .rewind p todo tf hc hp
  · next p todo hc =>
    obtain ⟨tf, hp, heq⟩ := map_eq_some_iff.mp h
    cases heq
    exact .fill p todo tf _ _ hc hp rfl
  · next p lines rest n todo hc =>
    obtain ⟨tf, hp, heq⟩ := map_eq_some_iff.mp h
    have hmove : SourceMove cfg env pos src _ _ := emitNext_move hc hp
    rwa [heq] at hmove
  · next p n todo hc =>
    obtain ⟨tf, hp, heq⟩ := map_eq_some_iff.mp h
    cases heq
    have hname : tf.path = p := findFile_path hp
    unfold close
    split
    · next hd =>
      rw [hname]
      exact .shut p n todo tf hc hp hd
    · exact .leave p n todo hc
  · next p todo hc => cases h; exact .forget p todo hc
  · cases h

end Moves

end YominsAgent.Logs
