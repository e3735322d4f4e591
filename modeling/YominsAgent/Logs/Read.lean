import YominsAgent.Logs.Tail

/- One call of `read` (`tail.go`) as a function, and the rounds of a file.

   The goroutine of the source (`sourceStep`) takes a call of `read` step by step and reads on from
   `offset + len(partial)`. Here the call is one function, and the descriptor has a position of its
   own. `read_steps` is the link: the goroutine's steps from `reading` to `closing` make this call.
   `read_pos` says that the descriptor stands where the goroutine reads.

   Correspondence (Go ↔ Lean):
     `tf.f.Stat`, `tf.f.Seek(0)`      ↔ `OpenFile.rewind`
     `io.ReadFull(tf.f, s.buf)`       ↔ `OpenFile.readFull`
     the loop over the newlines       ↔ `emitLines`
     the calls of `read`, one a round ↔ `round`
   The buffer that all files share holds no more than the chunk of the call: lines are copied out of
   it (`string(line)`), and so is the part that is kept. -/
namespace YominsAgent.Logs
open Go Lib List Option

variable {φ ε : Type} {lines : List Bytes} {rest : Bytes}

/-- A followed file, and where its descriptor stands. -/
structure OpenFile where
  tf : TailedFile
  pos : Nat
  deriving DecidableEq, Repr

/-- What a round meets: whether the checks before it found the file gone, the size
that `Stat` reports, the content that `ReadFull` reads from, and the time at the
switch. -/
structure Look where
  gone : Bool
  size : Nat
  data : Bytes
  now : Int
  deriving DecidableEq, Repr

/-- The loop of `read` over the complete lines. -/
def emitLines (cfg : SourceConfig φ ε) : TailedFile → List Bytes → TailedFile × List (Effect ε)
  | tf, [] => (tf, [])
  | tf, line :: lines =>
    let (tf, effect) := emit cfg tf line (line.length + 1)
    let (tf, effects) := emitLines cfg tf lines
    (tf, effect :: effects)

namespace OpenFile

/-- A file that was truncated in place is read from its start. -/
def rewind (size : Nat) (f : OpenFile) : OpenFile :=
  if size < f.tf.offset + f.tf.part.length then
    { tf := { f.tf with offset := 0, part := [] }, pos := 0 }
  else f

/-- `io.ReadFull` into the shared buffer. -/
def readFull (data : Bytes) (f : OpenFile) : Bytes := (data.drop f.pos).take readChunk

/-- `read`: the file after it, what it sent and passed over, and whether it closed
the file. -/
def read (cfg : SourceConfig φ ε) (look : Look) (f : OpenFile) :
    OpenFile × List (Effect ε) × Bool :=
  let f := f.rewind look.size
  let chunk := f.readFull look.data
  let (lines, rest) := splitLines (f.tf.part ++ chunk)
  let (tf, effects) := emitLines cfg { f.tf with part := [] } lines
  let (tf, last) := readRest cfg look.now tf rest
  (⟨tf, f.pos + chunk.length⟩, effects ++ [last], drained tf chunk.length)

/-- The checks of `scan` and `discover` mark a file as gone; nothing takes that back. -/
def mark (gone : Bool) (f : OpenFile) : OpenFile :=
  { f with tf := { f.tf with gone := f.tf.gone || gone } }

end OpenFile

/-- A file over its rounds, with all that `read` sent and passed over. -/
structure Tailing (ε : Type) where
  file : OpenFile
  out : List (Effect ε)
  closed : Bool

/-- One round of a file that is still followed. -/
def round (cfg : SourceConfig φ ε) (s : Tailing ε) (look : Look) : Option (Tailing ε) :=
  if s.closed then none
  else
    let (file, out, closed) := (s.file.mark look.gone).read cfg look
    some ⟨file, s.out ++ out, closed⟩

variable {f : OpenFile}

theorem OpenFile.mark_eq {gone : Bool} (h : gone = true → f.tf.gone = true) : f.mark gone = f := by
  have hsame : (f.tf.gone || gone) = f.tf.gone := by
    cases gone with
    | false => exact Bool.or_false _
    | true => rw [h rfl]; rfl
  unfold OpenFile.mark
  rw [hsame]

/-- The entries among what `read` did. -/
def sends (out : List (Effect ε)) : List (Entry ε) :=
  out.filterMap fun
    | .send e => some e
    | _ => none

@[simp] theorem sends_append (a b : List (Effect ε)) : sends (a ++ b) = sends a ++ sends b :=
  filterMap_append

/-! ## Splitting into lines -/

theorem splitLines_append (a b : Bytes) :
    splitLines (a ++ b) =
      ((splitLines a).1 ++ (splitLines ((splitLines a).2 ++ b)).1,
        (splitLines ((splitLines a).2 ++ b)).2) := by
  induction a with
  | nil => simp [splitLines]
  | cons x a ih =>
    by_cases hx : x = 10
    · simp [splitLines, hx, ih]
    · cases hl : (splitLines a).1 with
      | nil | cons => simp [splitLines, hx, ih, hl]

theorem newline_notMem_splitLines (data : Bytes) :
    (∀ line ∈ (splitLines data).1, 10 ∉ line) ∧ 10 ∉ (splitLines data).2 := by
  induction data with
  | nil => simp [splitLines]
  | cons x data ih =>
    obtain ⟨hlines, hrest⟩ := ih
    by_cases hx : x = 10
    · simpa [splitLines, hx] using ⟨hlines, hrest⟩
    · have hne : ¬ 10 = x := fun h => hx h.symm
      cases hl : (splitLines data).1 with
      | nil => simp [splitLines, hx, hl, hne, hrest]
      | cons line lines =>
        have hall : 10 ∉ line ∧ ∀ l ∈ lines, 10 ∉ l := by simpa [hl] using hlines
        simpa [splitLines, hx, hl, hne] using ⟨hall, hrest⟩

theorem splitLines_of_notMem {data : Bytes} (h : 10 ∉ data) : splitLines data = ([], data) := by
  induction data with
  | nil => rfl
  | cons x data ih =>
    have hx : ¬ x = 10 := fun he => h (by simp [he])
    have hdata : 10 ∉ data := fun hm => h (mem_cons_of_mem x hm)
    simp [splitLines, ih hdata, hx]

theorem splitLines_line {line : Bytes} (h : 10 ∉ line) (data : Bytes) :
    splitLines (line ++ 10 :: data) = (line :: (splitLines data).1, (splitLines data).2) := by
  induction line with
  | nil => rfl
  | cons x line ih =>
    have hx : ¬ x = 10 := fun he => h (by simp [he])
    have hline : 10 ∉ line := fun hm => h (mem_cons_of_mem x hm)
    rw [cons_append, splitLines, ih hline]
    simp [hx]

@[simp] theorem joinLines_nil : joinLines [] = [] := rfl

@[simp] theorem joinLines_cons (line : Bytes) (lines : List Bytes) :
    joinLines (line :: lines) = line ++ 10 :: joinLines lines := by
  simp [joinLines]

@[simp] theorem joinLines_append (a b : List Bytes) :
    joinLines (a ++ b) = joinLines a ++ joinLines b := by
  simp [joinLines]

theorem splitLines_joinLines (h : ∀ line ∈ lines, 10 ∉ line) :
    splitLines (joinLines lines) = (lines, []) := by
  induction lines with
  | nil => rfl
  | cons line lines ih =>
    rw [joinLines_cons, splitLines_line (h line mem_cons_self),
      ih fun l hl => h l (mem_cons_of_mem line hl)]

/-- Lines with the offsets at which they start, the first at `o`. -/
def linesAt : Nat → List Bytes → List (Nat × Bytes)
  | _, [] => []
  | o, line :: lines => (o, line) :: linesAt (o + (line.length + 1)) lines

theorem linesAt_append (o : Nat) (a b : List Bytes) :
    linesAt o (a ++ b) = linesAt o a ++ linesAt (o + (joinLines a).length) b := by
  induction a generalizing o with
  | nil => simp [linesAt]
  | cons line a ih =>
    simp only [cons_append, linesAt, ih, joinLines_cons, length_append, length_cons]
    rw [show o + (line.length + 1) + (joinLines a).length =
      o + (line.length + ((joinLines a).length + 1)) by omega]

/-! ## What a call does -/

/-- What `emit` does with a piece that starts at `lo`. -/
def emission (cfg : SourceConfig φ ε) (tf : TailedFile) (lo : Nat) (line : Bytes) (n : Nat) :
    Effect ε :=
  (emit cfg { tf with offset := lo } line n).2

variable {look : Look}

section Call
variable {cfg : SourceConfig φ ε} {tf : TailedFile}

theorem emitLines_eq (tf : TailedFile) (lines : List Bytes) : emitLines cfg tf lines =
      ({ tf with offset := tf.offset + (joinLines lines).length },
        (linesAt tf.offset lines).map fun x => emission cfg tf x.1 x.2 (x.2.length + 1)) := by
  induction lines generalizing tf with
  | nil => rfl
  | cons line lines ih =>
    have hoff : tf.offset + (line.length + 1) + (joinLines lines).length =
        tf.offset + (joinLines (line :: lines)).length := by
      simp only [joinLines_cons, length_append, length_cons]
      omega
    have hih := ih { tf with offset := tf.offset + (line.length + 1) }
    simp only [hoff] at hih
    exact congrArg (fun r : TailedFile × List (Effect ε) => (r.1, _ :: r.2)) hih

/-- The switch of `read` hands the rest to `emit` or keeps it. -/
theorem readRest_eq (cfg : SourceConfig φ ε) (now : Int) (tf : TailedFile) (rest : Bytes) (hpart : tf.part = []) :
    (∃ partAt, readRest cfg now tf rest =
        ({ tf with offset := tf.offset + rest.length, partAt },
          emission cfg tf tf.offset rest rest.length) ∧
        (maxLineBytes ≤ rest.length ∨ rest ≠ [] ∧ (tf.gone || overdue now tf) = true)) ∨
      (∃ partAt, readRest cfg now tf rest = ({ tf with part := rest, partAt }, .quiet) ∧
        rest.length < maxLineBytes ∧ (rest = [] ∨ (tf.gone || overdue now tf) = false)) := by
  unfold readRest
  split
  · next hlong => exact .inl ⟨tf.partAt, rfl, .inl hlong⟩
  · next hlong =>
    split
    · next hsome =>
      have hne : rest ≠ [] := ne_nil_of_length_pos hsome
      split
      · next hflush => exact .inl ⟨none, rfl, .inr ⟨hne, hflush⟩⟩
      · next hflush =>
        exact .inr ⟨_, rfl, by omega, .inr (by simpa using hflush)⟩
    · next hnone =>
      have hnil : rest = [] := length_eq_zero_iff.mp (by omega)
      subst hnil
      refine .inr ⟨none, ?_, by simp [maxLineBytes], .inl rfl⟩
      rw [← hpart]

theorem readRest_same (cfg : SourceConfig φ ε) (now : Int) (tf : TailedFile) (rest : Bytes) :
    (readRest cfg now tf rest).1.path = tf.path ∧ (readRest cfg now tf rest).1.gone = tf.gone := by
  unfold readRest emit
  split
  · exact ⟨rfl, rfl⟩
  · split
    · split <;> exact ⟨rfl, rfl⟩
    · exact ⟨rfl, rfl⟩

theorem read_closed (cfg : SourceConfig φ ε) (look : Look) (h : f.tf.gone = false) :
    (f.read cfg look).2.2 = false := by
  have hrewind : (f.rewind look.size).tf.gone = false := by
    unfold OpenFile.rewind
    split <;> exact h
  simp only [OpenFile.read, emitLines_eq, drained]
  rw [(readRest_same _ _ _ _).2]
  simp [hrewind]

/-- A call on a file that was not truncated, by the lines and the rest of what it has
in memory. -/
theorem read_eq (cfg : SourceConfig φ ε) (hfit : f.tf.offset + f.tf.part.length ≤ look.size)
    (hsplit : splitLines (f.tf.part ++ f.readFull look.data) = (lines, rest)) :
    let tf := { f.tf with part := [], offset := f.tf.offset + (joinLines lines).length }
    f.read cfg look =
      (⟨(readRest cfg look.now tf rest).1, f.pos + (f.readFull look.data).length⟩,
        (linesAt f.tf.offset lines).map (fun x => emission cfg f.tf x.1 x.2 (x.2.length + 1)) ++
          [(readRest cfg look.now tf rest).2],
        drained (readRest cfg look.now tf rest).1 (f.readFull look.data).length) := by
  have hrewind : f.rewind look.size = f := if_neg (Nat.not_lt.mpr hfit)
  simp only [OpenFile.read, hrewind, hsplit, emitLines_eq]
  rfl

/-- The switch moves the offset over what it hands on and keeps the rest. -/
theorem readRest_end (now : Int) (tf : TailedFile) (rest : Bytes) (hpart : tf.part = []) :
    (readRest cfg now tf rest).1.offset + (readRest cfg now tf rest).1.part.length =
      tf.offset + rest.length := by
  rcases readRest_eq cfg now tf rest hpart with ⟨partAt, h, -⟩ | ⟨partAt, h, -⟩
  · simp [h, hpart]
  · simp [h]

theorem length_splitLines {data : Bytes} (h : splitLines data = (lines, rest)) :
    (joinLines lines).length + rest.length = data.length := by
  have hjoin := joinLines_splitLines data
  rw [h] at hjoin
  rw [← hjoin, length_append]

/-- The descriptor stands behind the part that is kept, whatever the file holds. -/
theorem read_pos (cfg : SourceConfig φ ε) (look : Look) (h : f.pos = f.tf.offset + f.tf.part.length) :
    (f.read cfg look).1.pos =
      (f.read cfg look).1.tf.offset + (f.read cfg look).1.tf.part.length := by
  have hrewind : (f.rewind look.size).pos =
      (f.rewind look.size).tf.offset + (f.rewind look.size).tf.part.length := by
    unfold OpenFile.rewind
    split
    · rfl
    · exact h
  generalize hg : f.rewind look.size = g at hrewind
  have hlen := length_splitLines (rfl : splitLines (g.tf.part ++ g.readFull look.data) = _)
  simp only [OpenFile.read, hg, emitLines_eq]
  rw [readRest_end look.now _ _ rfl]
  simp only [length_append] at hlen ⊢
  omega

end Call

/-! ## The goroutine makes this call -/

/-- Steps of the goroutine, each with what it meets, and what they do outside. -/
def sourceRun (cfg : SourceConfig φ ε) :
    Source → List (Env φ × Positions × Str) → Option (Source × List (Effect ε))
  | src, [] => some (src, [])
  | src, (env, pos, pick) :: ms =>
    (sourceStep cfg env pos pick src).bind fun (src, effect) =>
      (sourceRun cfg src ms).map fun (src, effects) => (src, effect :: effects)

section Steps
variable {cfg : SourceConfig φ ε} {src : Source} {p : Str} {todo : List Str} {tf : TailedFile}
  {ms : List (Env φ × Positions × Str)}

theorem sourceRun_append (src : Source) (a b : List (Env φ × Positions × Str)) :
    sourceRun cfg src (a ++ b) =
      (sourceRun cfg src a).bind fun (src, ea) =>
        (sourceRun cfg src b).map fun (src, eb) => (src, ea ++ eb) := by
  induction a generalizing src with
  | nil => simp [sourceRun]
  | cons m a ih =>
    simp only [cons_append, sourceRun, ih]
    cases sourceStep cfg m.1 m.2.1 m.2.2 src with
    | none => rfl
    | some r => cases h : sourceRun cfg r.1 a <;> simp [h, Function.comp_def]

theorem emitting_steps (cfg : SourceConfig φ ε) {n : Nat}
    (hc : src.control = .emitting p lines rest n todo) (hp : src.file? p = some tf)
    (hlen : ms.length = lines.length) :
    ∃ src', sourceRun cfg src ms = some (src', (emitLines cfg tf lines).2) ∧
      src'.control = .emitting p [] rest n todo ∧
      src'.file? p = some (emitLines cfg tf lines).1 := by
  induction lines generalizing src tf ms with
  | nil =>
    cases length_eq_zero_iff.mp hlen
    exact ⟨src, rfl, hc, hp⟩
  | cons line lines ih =>
    obtain ⟨⟨env, pos, pick⟩, ms, rfl⟩ := exists_cons_of_length_eq_add_one hlen
    obtain rfl := findFile_path hp
    let tf' : TailedFile := { tf with offset := tf.offset + (line.length + 1) }
    let next : Source :=
      { src with files := src.put tf', control := .emitting tf.path lines rest n todo }
    have hp' : next.file? tf.path = some tf' := findFile_put_self hp rfl
    have hlen' : ms.length = lines.length := by simpa using hlen
    obtain ⟨src', hrun, hend⟩ := ih rfl hp' hlen'
    refine ⟨src', ?_, hend⟩
    simp only [sourceRun, sourceStep, hc, hp, map_some, bind_some, emitNext, emit]
    rw [hrun]
    rfl

/-- The file with its descriptor behind the kept part. -/
def TailedFile.behind (tf : TailedFile) : OpenFile := ⟨tf, tf.offset + tf.part.length⟩

theorem behind_rewind (size : Nat) (tf : TailedFile) :
    tf.behind.rewind size = (Logs.rewind size tf).behind := by
  unfold OpenFile.rewind Logs.rewind
  split
  · next h => rw [if_pos (show size < tf.offset + tf.part.length from h)]; rfl
  · next h => rw [if_neg (show ¬ size < tf.offset + tf.part.length from h)]

/-- The call through such a descriptor, in the words of the goroutine. -/
theorem behind_read {tf1 : TailedFile} (hrewind : rewind look.size tf = tf1)
    (hsplit : splitLines (tf1.part ++ fill look.data tf1) = (lines, rest)) :
    let emitted := emitLines cfg { tf1 with part := [] } lines
    let last := readRest cfg look.now emitted.1 rest
    (tf.behind.read cfg look).1.tf = last.1 ∧
      (tf.behind.read cfg look).2.1 = emitted.2 ++ [last.2] := by
  simp only [OpenFile.read, behind_rewind, hrewind]
  rw [show tf1.behind.tf.part ++ tf1.behind.readFull look.data = tf1.part ++ fill look.data tf1
    from rfl, hsplit]
  exact ⟨rfl, rfl⟩

/-- The steps of the goroutine from `reading` to `closing` are one call of `read`. -/
theorem read_steps {m1 m2 m3 : Env φ × Positions × Str} (hc : src.control = .reading (p :: todo))
    (hp : src.file? p = some tf) (hsize : look.size = (m1.1.data tf.inode).length)
    (hdata : look.data = m2.1.data tf.inode) (hnow : look.now = m3.1.now)
    (hsplit : splitLines ((rewind look.size tf).part ++ fill look.data (rewind look.size tf)) =
      (lines, rest)) (hlen : ms.length = lines.length) :
    ∃ src' : Source, sourceRun cfg src (m1 :: m2 :: (ms ++ [m3])) =
        some (src', .quiet :: .quiet :: (tf.behind.read cfg look).2.1) ∧
      src'.control = .closing p (fill look.data (rewind look.size tf)).length todo ∧
      src'.file? p = some (tf.behind.read cfg look).1.tf := by
  obtain rfl := findFile_path hp
  rw [← (rewind_same look.size tf).2.1] at hdata
  obtain ⟨tf1, hrewind⟩ : ∃ tf1, rewind look.size tf = tf1 := ⟨_, rfl⟩
  rw [hrewind] at hdata hsplit ⊢
  rw [(behind_read hrewind hsplit).1, (behind_read hrewind hsplit).2]
  -- after `Stat`
  let src1 : Source := { src with files := src.put tf1, control := .filling tf.path todo }
  have hp1 : src1.file? tf.path = some tf1 :=
    findFile_put_self hp (hrewind ▸ (rewind_same look.size tf).1)
  have h1 : sourceStep cfg m1.1 m1.2.1 m1.2.2 src = some (src1, .quiet) := by
    simp only [sourceStep, hc, hp, map_some, ← hsize, hrewind]
    rfl
  -- after `ReadFull`
  let src2 : Source :=
    { src1 with
      files := src1.put { tf1 with part := [] }
      control := .emitting tf.path lines rest (fill look.data tf1).length todo }
  have hp2 : src2.file? tf.path = some { tf1 with part := [] } := findFile_put_self hp1 rfl
  have h2 : sourceStep cfg m2.1 m2.2.1 m2.2.2 src1 = some (src2, .quiet) := by
    simp only [sourceStep, hp1, map_some, ← hdata, hsplit, src1]
    rfl
  -- after the lines
  obtain ⟨src3, hrun, hc3, hp3⟩ := emitting_steps cfg (rfl : src2.control = _) hp2 hlen
  let last := readRest cfg look.now (emitLines cfg { tf1 with part := [] } lines).1 rest
  let src4 : Source :=
    { src3 with
      files := src3.put last.1, control := .closing tf.path (fill look.data tf1).length todo }
  have h3 : sourceRun cfg src3 [m3] = some (src4, [last.2]) := by
    simp only [sourceRun, sourceStep, hc3, hp3, map_some, bind_some, emitNext,
      ← hnow, findFile_path hp3]
    rfl
  refine ⟨src4, ?_, rfl, findFile_put_self hp3 (readRest_same cfg look.now _ rest).1⟩
  have htail : sourceRun cfg src2 (ms ++ [m3]) =
      some (src4, (emitLines cfg { tf1 with part := [] } lines).2 ++ [last.2]) := by
    simp only [sourceRun_append, hrun, bind_some, h3, map_some]
  simp only [sourceRun, h1, h2, htail, bind_some, map_some]
  rfl

/-- A line and the beginning of the next. -/
theorem read_line_and_part :
    let cfg : SourceConfig Unit Bytes :=
      ⟨⟨fun _ _ => [], fun _ _ => false, fun _ _ => none, fun _ _ => true, fun _ p => p, by simp⟩,
        [], [], fun _ _ line => line⟩
    let tf : TailedFile := ⟨[], ⟨[], [], [], [], []⟩, 7, 0, [], none, false, []⟩
    let look : Look := ⟨false, 3, [97, 10, 98], 0⟩
    let m : Env Unit × Positions × Str := (⟨0, (), fun _ => look.data⟩, .load ⟨fun _ => none, []⟩, [])
    ∃ src', sourceRun cfg ⟨[tf], none, 0, .reading [[]]⟩ (m :: m :: ([m] ++ [m])) =
        some (src', .quiet :: .quiet :: (tf.behind.read cfg look).2.1) ∧
      src'.control = .closing [] 3 [] ∧ src'.file? [] = some (tf.behind.read cfg look).1.tf := by
  intro cfg tf look m
  exact read_steps rfl rfl rfl rfl rfl rfl rfl

end Steps

end YominsAgent.Logs
