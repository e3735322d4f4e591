import YominsAgent.Logs.FileTree
import YominsAgent.Logs.Read

/- The lines of a file that is only appended to.

   However the appends fall into rounds and the content into chunks, what has been
   read is cut at its newlines alone (`Framed`): the complete lines have been handed
   on, each with the offset behind its newline, and the rest is kept. -/
namespace YominsAgent.Logs
open Go Lib List

variable {φ ε : Type} {cfg : SourceConfig φ ε} {a b n : Nat} {lines : List Bytes}

/-! ## The content and what is read of it -/

/-- The bytes of `data` from the offset `a` up to the offset `b`. -/
def between (data : Bytes) (a b : Nat) : Bytes := (data.drop a).take (b - a)

theorem between_append {data : Bytes} {c : Nat} (hab : a ≤ b) (hbc : b ≤ c) :
    between data a b ++ between data b c = between data a c := by
  unfold between
  have hb : data.drop b = (data.drop a).drop (b - a) := by
    rw [drop_drop, Nat.add_sub_cancel' hab]
  rw [hb, ← take_add, show b - a + (c - b) = c - a by omega]

theorem between_drop (data : Bytes) (a b n : Nat) :
    (between data a b).drop n = between data (a + n) b := by
  rw [between, drop_take, drop_drop, between, Nat.sub_sub]

theorem length_between {data : Bytes} (hb : b ≤ data.length) :
    (between data a b).length = b - a := by
  simp only [between, length_take, length_drop]
  omega

theorem between_prefix {data file : Bytes} (h : data <+: file) (hb : b ≤ data.length) :
    between data a b = between file a b := by
  obtain ⟨more, rfl⟩ := h
  unfold between
  by_cases ha : a ≤ data.length
  · rw [drop_append_of_le_length ha, take_append_of_le_length]
    rw [length_drop]
    omega
  · rw [show b - a = 0 by omega]
    simp

/-- The descriptor's position after a round that finds the content `data`. -/
def nextPos (data : Bytes) (pos : Nat) : Nat := min data.length (pos + readChunk)

theorem readFull_eq {data : Bytes} {f : OpenFile} :
    f.readFull data = between data f.pos (nextPos data f.pos) := by
  unfold OpenFile.readFull between nextPos
  by_cases h : f.pos + readChunk ≤ data.length
  · rw [Nat.min_eq_right h, Nat.add_sub_cancel_left]
  · rw [Nat.min_eq_left (by omega), take_of_length_le, take_of_length_le]
    · simp
    · rw [length_drop]
      omega

def readTo (pos : Nat) (looks : List Look) : Nat :=
  looks.foldl (fun pos look => nextPos look.data pos) pos

/-- The rounds find a file that is only appended to: at each of its looks it holds at
least what it held before, the first `n` bytes at the start, and `file` in the end. -/
def Appended (file : Bytes) : Nat → List Look → Prop
  | _, [] => True
  | n, look :: looks =>
    n ≤ look.size ∧ look.size ≤ look.data.length ∧ look.data <+: file ∧
      Appended file look.data.length looks

/-- As `open` leaves a file of `n` bytes. -/
structure JustOpened (f : OpenFile) (n : Nat) : Prop where
  part : f.tf.part = []
  partAt : f.tf.partAt = none
  gone : f.tf.gone = false
  pos : f.pos = f.tf.offset
  le : f.pos ≤ n

/-- Every line is shorter than `MaxLineBytes`, the last one also if its newline is
missing. -/
def Short (data : Bytes) : Prop :=
  (∀ line ∈ (splitLines data).1, line.length < maxLineBytes) ∧
    (splitLines data).2.length < maxLineBytes

instance (data : Bytes) : Decidable (Short data) := inferInstanceAs (Decidable (_ ∧ _))

theorem Short.left {a b : Bytes} (h : Short (a ++ b)) : Short a := by
  obtain ⟨hlines, hrest⟩ := h
  rw [splitLines_append] at hlines hrest
  refine ⟨fun line hl => hlines line (mem_append_left _ hl), ?_⟩
  have hfree := (newline_notMem_splitLines a).2
  generalize (splitLines a).2 = r at hfree hlines hrest ⊢
  -- the unfinished line of `a` goes on in `b`, up to a newline or to the end
  by_cases hb : 10 ∈ b
  · obtain ⟨u, v, rfl, hu⟩ := eq_append_cons_of_mem hb
    have hru : 10 ∉ r ++ u := by simp [hfree, hu]
    have hlen := hlines (r ++ u) (by
      rw [← append_assoc, splitLines_line hru]
      simp)
    rw [length_append] at hlen
    omega
  · have hrb : 10 ∉ r ++ b := by simp [hfree, hb]
    rw [splitLines_of_notMem hrb, length_append] at hrest
    omega

/-! ## What is in memory -/

/-- The kept part is what stands in the file before the descriptor. -/
structure InPlace (f : OpenFile) (file : Bytes) (s : Tailing ε) : Prop where
  path : s.file.tf.path = f.tf.path
  spec : s.file.tf.spec = f.tf.spec
  inode : s.file.tf.inode = f.tf.inode
  pos : s.file.pos = s.file.tf.offset + s.file.tf.part.length
  part : s.file.tf.part = between file s.file.tf.offset s.file.pos

/-- What a round hands on of the lines it has in memory. -/
def linesOut (cfg : SourceConfig φ ε) (tf : TailedFile) (o : Nat) (lines : List Bytes) :
    List (Effect ε) :=
  (linesAt o lines).map fun x => emission cfg tf x.1 x.2 (x.2.length + 1)

/-- A round that has the lines `lines` and behind them `rest` in memory. -/
structure RoundOf (cfg : SourceConfig φ ε) (f : OpenFile) (look : Look) (lines : List Bytes)
    (rest : Bytes) (s s' : Tailing ε) : Prop where
  pos : s'.file.pos = nextPos look.data s.file.pos
  gone : s'.file.tf.gone = (s.file.tf.gone || look.gone)
  closed : (s.file.tf.gone || look.gone) = false → s'.closed = false
  /-- The rest is kept, or it is handed on since it is too long or waits no longer. -/
  last : (s'.file.tf.offset = s.file.tf.offset + (joinLines lines).length ∧
      s'.file.tf.part = rest ∧ rest.length < maxLineBytes ∧
      s'.out = s.out ++ (linesOut cfg f.tf s.file.tf.offset lines ++ [.quiet])) ∨
    (s'.file.tf.offset = s'.file.pos ∧
      (maxLineBytes ≤ rest.length ∨ rest ≠ [] ∧
        ((s.file.tf.gone || look.gone) || overdue look.now s.file.tf) = true) ∧
      s'.out = s.out ++ (linesOut cfg f.tf s.file.tf.offset lines ++
        [emission cfg f.tf (s.file.tf.offset + (joinLines lines).length) rest rest.length]))

variable {f : OpenFile} {file : Bytes} {s s' : Tailing ε} {look : Look}

theorem inPlace_opened (h : JustOpened f n) : InPlace f file (⟨f, [], false⟩ : Tailing ε) := by
  refine ⟨rfl, rfl, rfl, ?_, ?_⟩
  · simp [h.pos, h.part]
  · simp [h.part, h.pos, between]

theorem emission_congr {tf tf' : TailedFile} (hpath : tf'.path = tf.path)
    (hspec : tf'.spec = tf.spec) (hinode : tf'.inode = tf.inode) :
    emission cfg tf' = emission cfg tf := by
  funext lo line n
  simp [emission, emit, hpath, hspec, hinode]

section
variable (h : InPlace f file s) (hsize : s.file.pos ≤ look.size)
  (hdata : look.size ≤ look.data.length) (hpre : look.data <+: file)
include h hsize hdata

theorem InPlace.bounds : s.file.tf.offset ≤ s.file.pos ∧
    s.file.pos ≤ nextPos look.data s.file.pos ∧ nextPos look.data s.file.pos ≤ look.data.length := by
  have hpos := h.pos
  unfold nextPos
  omega

include hpre

theorem InPlace.memory : s.file.tf.part ++ s.file.readFull look.data =
      between file s.file.tf.offset (nextPos look.data s.file.pos) := by
  obtain ⟨hoff, hpos, hnext⟩ := h.bounds hsize hdata
  rw [readFull_eq, between_prefix hpre hnext, h.part, between_append hoff hpos]

theorem InPlace.round (hs : round cfg s look = some s') {rest : Bytes}
    (hsplit : splitLines (between file s.file.tf.offset (nextPos look.data s.file.pos)) = (lines, rest))
    :
    InPlace f file s' ∧ RoundOf cfg f look lines rest s s' := by
  obtain ⟨hoff, hpos, hnext⟩ := h.bounds hsize hdata
  have hmemory := h.memory hsize hdata hpre
  have hend : s.file.pos + (s.file.readFull look.data).length =
      nextPos look.data s.file.pos := by
    rw [readFull_eq, length_between hnext]
    omega
  have hlen := length_splitLines hsplit
  rw [length_between (hnext.trans hpre.length_le)] at hlen
  let g := s.file.mark look.gone
  have hread : g.read cfg look = _ := read_eq cfg (show g.tf.offset + g.tf.part.length ≤ look.size
    from h.pos ▸ hsize) (show splitLines (g.tf.part ++ g.readFull look.data) = (lines, rest) from
    (congrArg splitLines hmemory).trans hsplit)
  have hsame : emission cfg g.tf = emission cfg f.tf := emission_congr h.path h.spec h.inode
  have hbehind := read_pos cfg look (show g.pos = g.tf.offset + g.tf.part.length from h.pos)
  let tf : TailedFile := { g.tf with part := [], offset := g.tf.offset + (joinLines lines).length }
  have hrest : s.file.tf.offset + (joinLines lines).length + rest.length =
      nextPos look.data s.file.pos := by omega
  have hclosed : g.tf.gone = false → _ := read_closed cfg look
  simp only [Logs.round] at hs
  split at hs
  · cases hs
  rw [show (s.file.mark look.gone).read cfg look = g.read cfg look from rfl, hread] at hs
  rw [hread] at hbehind hclosed
  rcases readRest_eq cfg look.now tf rest rfl with ⟨partAt, hk, hwhy⟩ | ⟨partAt, hk, hshort, -⟩
  · rw [hk] at hs hbehind hclosed
    cases hs
    refine ⟨⟨h.path, h.spec, h.inode, hbehind, ?_⟩, hend, rfl, hclosed, .inr ⟨?_, hwhy, ?_⟩⟩
    · show [] = between file (s.file.tf.offset + (joinLines lines).length + rest.length)
        (s.file.pos + (s.file.readFull look.data).length)
      rw [hrest, hend]
      simp [between]
    · exact hrest.trans hend.symm
    · rw [hsame, show emission cfg tf = emission cfg f.tf from hsame]
      rfl
  · rw [hk] at hs hbehind hclosed
    cases hs
    refine ⟨⟨h.path, h.spec, h.inode, hbehind, ?_⟩, hend, rfl, hclosed, .inl ⟨rfl, rfl, hshort, ?_⟩⟩
    · show rest = between file (s.file.tf.offset + (joinLines lines).length)
        (s.file.pos + (s.file.readFull look.data).length)
      rw [hend, ← between_drop, ← joinLines_splitLines (between file _ _), hsplit, drop_left]
    · rw [hsame]
      rfl

end

/-- What every round keeps, the rounds keep. -/
theorem rounds_keep {P : Tailing ε → Prop} {guard : Tailing ε → Look → Bool}
    (hstep : ∀ {s s' : Tailing ε} {look : Look}, InPlace f file s → P s → s.file.pos ≤ look.size →
      look.size ≤ look.data.length → look.data <+: file → guard s look = true →
      round cfg s look = some s' → P s') :
    ∀ {looks : List Look} {n : Nat} {s : Tailing ε}, InPlace f file s → P s → s.file.pos ≤ n →
      Appended file n looks → run (guarded guard (round cfg)) s looks = some s' →
      P s' ∧ s'.file.pos = readTo s.file.pos looks := by
  intro looks
  induction looks with
  | nil =>
    intro n s _ hP _ _ hrun
    cases hrun
    exact ⟨hP, rfl⟩
  | cons look looks ih =>
    intro n s h hP hn ⟨hsize, hdata, hpre, hrest⟩ hrun
    obtain ⟨s1, hs, hrun⟩ := run_cons.mp hrun
    obtain ⟨hguard, hs⟩ := guarded_eq_some.mp hs
    obtain ⟨h1, hround⟩ := h.round (hn.trans hsize) hdata hpre hs rfl
    have hP1 := hstep h hP (hn.trans hsize) hdata hpre hguard hs
    obtain ⟨hP', hread⟩ := ih h1 hP1 (hround.pos ▸ Nat.min_le_left _ _) hrest hrun
    refine ⟨hP', ?_⟩
    rw [hread, hround.pos]
    rfl

/-! ## What is handed on -/

/-- The entry of a complete line that starts at `lo`: its bytes without carriage
returns at the end, at the offset behind its newline. -/
def lineEntry (cfg : SourceConfig φ ε) (tf : TailedFile) : Nat × Bytes → Option (Entry ε)
  | (lo, line) =>
    if isBlank line then none
    else some ⟨cfg.parse tf.spec tf.path (trimCR line),
      .file ⟨tf.path, tf.inode, lo, lo + line.length + 1⟩⟩

theorem length_trimCR_le (line : Bytes) : (trimCR line).length ≤ line.length :=
  (List.rdropWhile_prefix _ line).length_le

theorem cutLine_short {line : Bytes} (h : line.length ≤ maxLineBytes) : cutLine line = line :=
  if_neg (Nat.not_lt.mpr h)

theorem sends_emission (tf : TailedFile) (lo : Nat) (line : Bytes) (n : Nat) :
    sends [emission cfg tf lo line n] =
      if isBlank line then []
      else [⟨cfg.parse tf.spec tf.path (cutLine (trimCR line)),
        .file ⟨tf.path, tf.inode, lo, lo + n⟩⟩] := by
  unfold emission emit sends
  by_cases hb : isBlank line = true <;> simp [hb]

theorem sends_lines (cfg : SourceConfig φ ε) (tf : TailedFile)
    (hshort : ∀ line ∈ lines, line.length < maxLineBytes) (o : Nat) :
    sends ((linesAt o lines).map fun x => emission cfg tf x.1 x.2 (x.2.length + 1)) =
      (linesAt o lines).filterMap (lineEntry cfg tf) := by
  induction lines generalizing o with
  | nil => rfl
  | cons line lines ih =>
    have hcut : cutLine (trimCR line) = trimCR line :=
      cutLine_short (by have := length_trimCR_le line; have := hshort line (by simp); omega)
    have htail := ih (fun l hl => hshort l (mem_cons_of_mem line hl)) (o + (line.length + 1))
    simp only [linesAt, map_cons]
    rw [← singleton_append, sends_append, htail, sends_emission, hcut]
    by_cases hb : isBlank line = true
    · simp [lineEntry, hb]
    · simp [lineEntry, hb, Nat.add_assoc]

/-! ## The rounds -/

/-- Neither is the file gone nor has its last line waited too long for its newline. -/
def onTime (s : Tailing ε) (look : Look) : Bool := !look.gone && !overdue look.now s.file.tf

/-- What holds after the rounds of a file that was opened as `f`. -/
structure Framed (cfg : SourceConfig φ ε) (f : OpenFile) (file : Bytes) (s : Tailing ε) :
    Prop where
  place : InPlace f file s
  gone : s.file.tf.gone = false
  le : f.pos ≤ s.file.pos
  part : (splitLines (between file f.pos s.file.pos)).2 = s.file.tf.part
  offset : s.file.tf.offset =
    f.pos + (joinLines (splitLines (between file f.pos s.file.pos)).1).length
  sent : sends s.out =
    (linesAt f.pos (splitLines (between file f.pos s.file.pos)).1).filterMap (lineEntry cfg f.tf)

theorem framed_opened (h : JustOpened f n) : Framed cfg f file ⟨f, [], false⟩ := by
  have hnone : between file f.pos f.pos = [] := by simp [between]
  refine ⟨inPlace_opened h, h.gone, Nat.le_refl _, ?_, ?_, ?_⟩
  · simp [hnone, splitLines, h.part]
  · simp [hnone, splitLines, ← h.pos]
  · simp [hnone, splitLines, sends, linesAt]

theorem Framed.step (h : Framed cfg f file s) (hshort : Short (file.drop f.pos))
    (hsize : s.file.pos ≤ look.size) (hdata : look.size ≤ look.data.length)
    (hpre : look.data <+: file) (hon : onTime s look = true)
    (hs : round cfg s look = some s') : Framed cfg f file s' := by
  simp only [onTime, Bool.and_eq_true, Bool.not_eq_true'] at hon
  obtain ⟨hgone, hwait⟩ := hon
  obtain ⟨lines, rest, hsplit⟩ : ∃ lines rest, splitLines
      (between file s.file.tf.offset (nextPos look.data s.file.pos)) = (lines, rest) := ⟨_, _, rfl⟩
  obtain ⟨hplace, hround⟩ := h.place.round hsize hdata hpre hs hsplit
  have hpos : s.file.pos ≤ nextPos look.data s.file.pos := by
    unfold nextPos
    omega
  have hoff : s.file.tf.offset ≤ s.file.pos := h.place.pos ▸ Nat.le_add_right _ _
  have hseen : splitLines (between file f.pos s'.file.pos) =
      ((splitLines (between file f.pos s.file.pos)).1 ++ lines, rest) := by
    rw [hround.pos, ← between_append h.le hpos, splitLines_append, h.part, h.place.part,
      between_append hoff hpos, hsplit]
  obtain ⟨hlines, hrest⟩ : Short (between file f.pos s'.file.pos) := by
    refine Short.left (b := (file.drop f.pos).drop (s'.file.pos - f.pos)) ?_
    rwa [between, take_append_drop]
  rw [hseen] at hlines hrest
  -- the rest is short and waits for its newline
  rcases hround.last with ⟨ho, hpart, -, hout⟩ | ⟨-, hlong | ⟨-, hflush⟩, -⟩
  · refine ⟨hplace, ?_, by rw [hround.pos]; exact h.le.trans hpos, ?_, ?_, ?_⟩
    · rw [hround.gone, h.gone, hgone]
      rfl
    · rw [hseen, hpart]
    · rw [hseen, ho, joinLines_append, length_append, h.offset]
      omega
    · have hnew : sends (linesOut cfg f.tf s.file.tf.offset lines) =
          (linesAt s.file.tf.offset lines).filterMap (lineEntry cfg f.tf) :=
        sends_lines cfg f.tf (fun line hl => hlines line (mem_append_right _ hl)) _
      rw [hout, hseen, linesAt_append, filterMap_append, ← h.offset, ← h.sent, sends_append,
        sends_append, hnew, show sends ([.quiet] : List (Effect ε)) = [] from rfl, append_nil]
  · exact absurd hrest (Nat.not_lt.mpr hlong)
  · rw [h.gone, hgone, hwait] at hflush
    cases hflush

/-- The messages handed to the parser are the complete lines of what was read, each once
and in order, and the descriptor stands where the kept part ends. Every prefix of a run
is a run, so this holds after every round. -/
theorem line_framing {n : Nat} {looks : List Look} (hopen : JustOpened f n)
    (happended : Appended file n looks) (hshort : Short (file.drop f.pos))
    (hrun : run (guarded onTime (round cfg)) ⟨f, [], false⟩ looks = some s) :
    sends s.out =
        (linesAt f.pos (splitLines (between file f.pos s.file.pos)).1).filterMap
          (lineEntry cfg f.tf) ∧
      s.file.tf.offset + s.file.tf.part.length = s.file.pos ∧
      s.file.pos = readTo f.pos looks := by
  obtain ⟨h, hread⟩ := rounds_keep (P := Framed cfg f file) (fun _ h => h.step hshort)
    (inPlace_opened hopen) (framed_opened hopen) hopen.le happended hrun
  exact ⟨h.sent, h.place.pos.symm, hread⟩

def newLog : OpenFile :=
  { tf :=
      { path := aLog, spec := ⟨[], [], [], [], []⟩, inode := 7, offset := 0
        part := [], partAt := none, gone := false, real := aLog }
    pos := 0 }

theorem newLog_opened : JustOpened newLog 0 := ⟨rfl, rfl, rfl, rfl, Nat.le_refl 0⟩

/-- `ab`, CR LF, a blank line and `c` come in two rounds, the first in the middle of a
line. -/
theorem two_rounds_framed : ∃ s : Tailing Bytes,
    run (guarded onTime (round aPipeline.source)) ⟨newLog, [], false⟩
      [⟨false, 1, [97], 0⟩, ⟨false, 1, [97, 98, 13, 10, 32, 10, 99], 1000000000⟩] = some s ∧
    sends s.out = [⟨[97, 98], .file ⟨aLog, 7, 0, 4⟩⟩] ∧
    s.file.tf.offset + s.file.tf.part.length = 7 := by
  have happended : Appended [97, 98, 13, 10, 32, 10, 99] 0
      [⟨false, 1, [97], 0⟩, ⟨false, 1, [97, 98, 13, 10, 32, 10, 99], 1000000000⟩] := by
    simp [Appended]
  refine ⟨_, rfl, ?_⟩
  obtain ⟨hsent, hpart, -⟩ := line_framing newLog_opened happended (by decide) rfl
  exact ⟨hsent.trans rfl, hpart⟩

end YominsAgent.Logs
