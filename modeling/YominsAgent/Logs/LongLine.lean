import YominsAgent.Logs.Framing

/- A line longer than `MaxLineBytes`.

   `emit` cuts the piece it is given, and `read` gives it what is in memory: a read that
   ends inside the line makes a piece of what it has once that is `MaxLineBytes` long, or
   when it does not wait for the newline any more. As long as no round does that
   (`uncut`), the line is one piece and one entry. -/
namespace YominsAgent.Logs
open Go Lib List Bool

variable {φ ε : Type} {cfg : SourceConfig φ ε}

/-- The entries that were read from bytes between the offsets `a` and `b`. -/
def entriesOf (a b : Nat) (out : List (Effect ε)) : List (Entry ε) :=
  (sends out).filter fun e =>
    match e.ack with
    | .file sp => sp.lo < b && a < sp.hi
    | .journal _ => false

@[simp] theorem entriesOf_append (a b : Nat) (x y : List (Effect ε)) :
    entriesOf a b (x ++ y) = entriesOf a b x ++ entriesOf a b y := by
  simp [entriesOf]

/-- Without its newline, the line `line` stands at the offset `a`. -/
def LineAt (file : Bytes) (a : Nat) (line : Bytes) : Prop :=
  ∃ before after, file = before ++ (line ++ 10 :: after) ∧ before.length = a ∧
    (before = [] ∨ before.getLast? = some 10) ∧ 10 ∉ line

/-- The round does not hand on a part of the line that starts at `a`: it ends before the
line or behind its newline, or it has less than `MaxLineBytes` of the line in memory and
waits for the rest. -/
def uncut (a : Nat) (line : Bytes) (s : Tailing ε) (look : Look) : Bool :=
  let pos := nextPos look.data s.file.pos
  decide (pos ≤ a) || decide (a + line.length < pos) ||
    (decide (pos - a < maxLineBytes) && !look.gone && !s.file.tf.gone &&
      !overdue look.now s.file.tf)

def longEntry (cfg : SourceConfig φ ε) (tf : TailedFile) (a : Nat) (line : Bytes) : Entry ε :=
  ⟨cfg.parse tf.spec tf.path (line.take maxLineBytes ++ toBytes "…[truncated]".toList),
    .file ⟨tf.path, tf.inode, a, a + line.length + 1⟩⟩

/-! ## Pieces outside the line, and the line -/

section Pieces
variable {a b lo n : Nat} {tf : TailedFile} {line : Bytes}

theorem entriesOf_emission_outside (h : b ≤ lo ∨ lo + n ≤ a) :
    entriesOf a b [emission cfg tf lo line n] = [] := by
  rw [entriesOf, sends_emission]
  split
  · rfl
  · rcases h with h | h
    · simp [Nat.not_lt.mpr h]
    · simp [Nat.not_lt.mpr h]

theorem entriesOf_emission_inside (hlo : lo < b) (hhi : a < lo + n) (hblank : isBlank line = false) :
    entriesOf a b [emission cfg tf lo line n] = [⟨cfg.parse tf.spec tf.path (cutLine (trimCR line)),
        .file ⟨tf.path, tf.inode, lo, lo + n⟩⟩] := by
  rw [entriesOf, sends_emission, hblank]
  simp [hlo, hhi]

theorem entriesOf_lines_outside {o : Nat} {lines : List Bytes}
    (h : b ≤ o ∨ o + (joinLines lines).length ≤ a) :
    entriesOf a b
      ((linesAt o lines).map fun x => emission cfg tf x.1 x.2 (x.2.length + 1)) = [] := by
  induction lines generalizing o with
  | nil => rfl
  | cons line lines ih =>
    rw [joinLines_cons, length_append, length_cons] at h
    rw [linesAt, map_cons, ← singleton_append, entriesOf_append,
      entriesOf_emission_outside (show b ≤ o ∨ o + (line.length + 1) ≤ a by omega),
      ih (by omega), nil_append]

theorem trimCR_of_notMem (h : 13 ∉ line) : trimCR line = line := by
  rw [trimCR, rdropWhile_eq_self_iff]
  intro hne hlast
  have : line.getLast hne = 13 := by simpa using hlast
  exact h (this ▸ getLast_mem hne)

theorem entriesOf_long (hcr : 13 ∉ line) (hlong : maxLineBytes < line.length)
    (hblank : isBlank line = false) :
    entriesOf a (a + line.length + 1) [emission cfg tf a line (line.length + 1)] =
      [longEntry cfg tf a line] := by
  have hcut : cutLine (trimCR line) = line.take maxLineBytes ++ toBytes "…[truncated]".toList := by
    rw [trimCR_of_notMem hcr, cutLine, if_pos hlong]
  rw [entriesOf_emission_inside (by omega) (by omega) hblank, hcut, ← Nat.add_assoc]
  rfl

end Pieces

/-! ## Where the line stands -/

section Line
variable {f : OpenFile} {file line : Bytes} {a : Nat} {s s' : Tailing ε} {look : Look}

section
variable (h : LineAt file a line)
include h

theorem LineAt.notMem : 10 ∉ line := by
  obtain ⟨_, _, _, _, _, hfree⟩ := h
  exact hfree

theorem LineAt.complete_before {o : Nat} (ho : o ≤ a) :
    (splitLines (between file o a)).2 = [] := by
  obtain ⟨before, after, rfl, rfl, hlast, -⟩ := h
  have hbetween : between (before ++ (line ++ 10 :: after)) o before.length = before.drop o := by
    rw [between, drop_append_of_le_length ho, take_append_of_le_length (by simp),
      take_of_length_le (by simp)]
  rw [hbetween]
  rcases hlast with rfl | hlast
  · simp [splitLines]
  · obtain ⟨init, rfl⟩ := getLast?_eq_some_iff.mp hlast
    by_cases hlt : o ≤ init.length
    · rw [drop_append_of_le_length hlt, splitLines_append,
        splitLines_line (newline_notMem_splitLines _).2]
      rfl
    · rw [drop_of_length_le (by simp; omega)]
      rfl

theorem LineAt.inside {p : Nat} (hp : p ≤ a + line.length) :
    between file a p = line.take (p - a) := by
  obtain ⟨before, after, rfl, rfl, -, -⟩ := h
  rw [between, drop_left, take_append_of_le_length (by omega)]

theorem LineAt.through {p : Nat} (hp : a + line.length < p) :
    ∃ more, between file a p = line ++ 10 :: more := by
  obtain ⟨before, after, rfl, rfl, -, -⟩ := h
  refine ⟨after.take (p - before.length - line.length - 1), ?_⟩
  rw [between, drop_left, take_append, take_of_length_le (by omega),
    show p - before.length - line.length = p - before.length - line.length - 1 + 1 by omega,
    take_succ_cons]
  rfl

end

/-- Nothing of the line has been handed on, or all of it as one entry. -/
def Stage (cfg : SourceConfig φ ε) (f : OpenFile) (a : Nat) (line : Bytes) (s : Tailing ε) :
    Prop :=
  (s.file.tf.offset ≤ a ∧ s.file.pos ≤ a + line.length ∧
      entriesOf a (a + line.length + 1) s.out = []) ∨
    (a + line.length < s.file.tf.offset ∧ a + line.length < s.file.pos ∧
      entriesOf a (a + line.length + 1) s.out = [longEntry cfg f.tf a line])

theorem entriesOf_quiet (a b : Nat) : entriesOf a b ([.quiet] : List (Effect ε)) = [] := rfl

/-- A round whose pieces all lie outside the line adds no entry of it. -/
theorem RoundOf.outside {lines : List Bytes} {rest : Bytes} {b : Nat}
    (h : RoundOf cfg f look lines rest s s')
    (hout : b ≤ s.file.tf.offset ∨ s.file.tf.offset + (joinLines lines).length + rest.length ≤ a) :
    entriesOf a b s'.out = entriesOf a b s.out := by
  have hlines : entriesOf a b (linesOut cfg f.tf s.file.tf.offset lines) = [] :=
    entriesOf_lines_outside (by omega)
  rcases h.last with ⟨-, -, -, hs⟩ | ⟨-, -, hs⟩
  · rw [hs, entriesOf_append, entriesOf_append, hlines, entriesOf_quiet]
    simp
  · rw [hs, entriesOf_append, entriesOf_append, hlines, entriesOf_emission_outside (by omega)]
    simp

/-- The lines in memory when the line has been read to its newline. -/
theorem entriesOf_line {before after : List Bytes} {o : Nat} (hcr : 13 ∉ line)
    (hlong : maxLineBytes < line.length) (hblank : isBlank line = false)
    (hbefore : o + (joinLines before).length = a) :
    entriesOf a (a + line.length + 1) (linesOut cfg f.tf o (before ++ line :: after)) =
      [longEntry cfg f.tf a line] := by
  have hsplit : linesOut cfg f.tf o (before ++ line :: after) =
      linesOut cfg f.tf o before ++ ([emission cfg f.tf a line (line.length + 1)] ++
        linesOut cfg f.tf (a + (line.length + 1)) after) := by
    rw [linesOut, linesAt_append, hbefore, linesAt, map_append, map_cons]
    rfl
  have hfirst : entriesOf a (a + line.length + 1) (linesOut cfg f.tf o before) = [] :=
    entriesOf_lines_outside (.inr (by omega))
  have hrest : entriesOf a (a + line.length + 1)
      (linesOut cfg f.tf (a + (line.length + 1)) after) = [] :=
    entriesOf_lines_outside (.inl (by omega))
  rw [hsplit, entriesOf_append, entriesOf_append, hfirst, hrest, entriesOf_long hcr hlong hblank]
  rfl

section
variable (hat : LineAt file a line) (hcr : 13 ∉ line) (hlong : maxLineBytes < line.length)
  (hblank : isBlank line = false)
include hat hcr hlong hblank

theorem Stage.step (hplace : InPlace f file s) (h : Stage cfg f a line s)
    (hsize : s.file.pos ≤ look.size) (hdata : look.size ≤ look.data.length)
    (hpre : look.data <+: file) (huncut : uncut a line s look = true)
    (hs : round cfg s look = some s') : Stage cfg f a line s' := by
  obtain ⟨lines, rest, hsplit⟩ : ∃ lines rest, splitLines
      (between file s.file.tf.offset (nextPos look.data s.file.pos)) = (lines, rest) := ⟨_, _, rfl⟩
  obtain ⟨hplace', hround⟩ := hplace.round hsize hdata hpre hs hsplit
  have hnext : nextPos look.data s.file.pos ≤ file.length :=
    (Nat.min_le_left _ _).trans hpre.length_le
  have hlen := length_splitLines hsplit
  rw [length_between hnext] at hlen
  have hmono : s.file.pos ≤ nextPos look.data s.file.pos := by
    unfold nextPos
    omega
  have hoff' : s'.file.tf.offset ≤ s'.file.pos := hplace'.pos ▸ Nat.le_add_right _ _
  have hpos := hround.pos
  rcases h with ⟨hbefore, hin, hnone⟩ | ⟨hafter, hbehind, hone⟩
  · by_cases hshort : nextPos look.data s.file.pos ≤ a
    · exact .inl ⟨by omega, by omega, by rw [hround.outside (.inr (by omega)), hnone]⟩
    -- the lines before it are complete, and then comes the line
    have hX := hat.complete_before hbefore
    have hlenX := length_splitLines (rfl : splitLines (between file s.file.tf.offset a) = _)
    rw [hX, length_between (by omega), List.length_nil] at hlenX
    have hmemory : splitLines (between file s.file.tf.offset (nextPos look.data s.file.pos)) =
        ((splitLines (between file s.file.tf.offset a)).1 ++
          (splitLines (between file a (nextPos look.data s.file.pos))).1,
          (splitLines (between file a (nextPos look.data s.file.pos))).2) := by
      rw [← between_append hbefore (by omega), splitLines_append, hX, List.nil_append]
    by_cases hinside : nextPos look.data s.file.pos ≤ a + line.length
    · have hfree : 10 ∉ line.take (nextPos look.data s.file.pos - a) :=
        fun hm => hat.notMem (List.mem_of_mem_take hm)
      rw [hat.inside hinside, splitLines_of_notMem hfree, hsplit, List.append_nil] at hmemory
      obtain ⟨rfl, rfl⟩ := Prod.mk.inj hmemory
      simp only [uncut, hshort, Nat.not_lt.mpr hinside, decide_false, Bool.false_or,
        Bool.and_eq_true, Bool.not_eq_true', decide_eq_true_eq] at huncut
      obtain ⟨⟨⟨hless, hgone⟩, hgone'⟩, hwait⟩ := huncut
      rcases hround.last with ⟨ho, -, -, hout⟩ | ⟨-, hlate | ⟨-, hflush⟩, -⟩
      · refine .inl ⟨by omega, by omega, ?_⟩
        have hnew : entriesOf a (a + line.length + 1) (linesOut cfg f.tf s.file.tf.offset
            (splitLines (between file s.file.tf.offset a)).1) = [] :=
          entriesOf_lines_outside (.inr (by omega))
        rw [hout, entriesOf_append, entriesOf_append, hnone, hnew]
        rfl
      · rw [List.length_take] at hlate
        omega
      · rw [hgone, hgone', hwait] at hflush
        cases hflush
    · obtain ⟨more, hmore⟩ := hat.through (Nat.lt_of_not_le hinside)
      rw [hmore, splitLines_line hat.notMem, hsplit] at hmemory
      obtain ⟨rfl, rfl⟩ : lines = (splitLines (between file s.file.tf.offset a)).1 ++
          line :: (splitLines more).1 ∧ rest = (splitLines more).2 := Prod.mk.inj hmemory
      have hline : entriesOf a (a + line.length + 1) (linesOut cfg f.tf s.file.tf.offset
          ((splitLines (between file s.file.tf.offset a)).1 ++ line :: (splitLines more).1)) =
            [longEntry cfg f.tf a line] :=
        entriesOf_line hcr hlong hblank (by omega)
      have hbehind : a + line.length + 1 ≤ s.file.tf.offset +
          (joinLines ((splitLines (between file s.file.tf.offset a)).1 ++
            line :: (splitLines more).1)).length := by
        rw [joinLines_append, joinLines_cons, List.length_append, List.length_append,
          List.length_cons]
        omega
      refine .inr ⟨?_, by omega, ?_⟩
      · rcases hround.last with ⟨ho, -⟩ | ⟨ho, -, -⟩ <;> omega
      · rcases hround.last with ⟨-, -, -, hout⟩ | ⟨-, -, hout⟩
        · rw [hout, entriesOf_append, entriesOf_append, hnone, hline]
          rfl
        · rw [hout, entriesOf_append, entriesOf_append, hnone, hline,
            entriesOf_emission_outside (.inl hbehind)]
          rfl
  · -- the line is done: the pieces of this round start behind it
    refine .inr ⟨?_, by omega, ?_⟩
    · rcases hround.last with ⟨ho, -⟩ | ⟨ho, -, -⟩ <;> omega
    · rw [hround.outside (.inl hafter), hone]

end

/-- A line longer than `MaxLineBytes`, of which no round hands on a part before its newline
is read, becomes exactly one entry: its first `MaxLineBytes` bytes and the mark. Until the
newline is read there is none. -/
theorem long_line_marked {n : Nat} {looks : List Look} (hopen : JustOpened f n)
    (happended : Appended file n looks) (hat : LineAt file a line) (hstart : f.pos ≤ a)
    (hcr : 13 ∉ line) (hlong : maxLineBytes < line.length) (hblank : isBlank line = false)
    (hrun : run (guarded (uncut a line) (round cfg)) ⟨f, [], false⟩ looks = some s) :
    entriesOf a (a + line.length + 1) s.out =
      if a + line.length < s.file.pos then [longEntry cfg f.tf a line] else [] := by
  have hstage : Stage cfg f a line (⟨f, [], false⟩ : Tailing ε) :=
    Or.inl ⟨hopen.pos ▸ hstart, hstart.trans (Nat.le_add_right _ _), rfl⟩
  have hkeep := rounds_keep (P := Stage cfg f a line) (Stage.step hat hcr hlong hblank)
    (inPlace_opened hopen) hstage hopen.le happended hrun
  rcases hkeep.1 with ⟨-, hpos, hnone⟩ | ⟨-, hpos, hone⟩
  · rw [if_neg (Nat.not_lt.mpr hpos), hnone]
  · rw [if_pos hpos, hone]

end Line

theorem isBlank_eq_false {line : Bytes} (h : 13 ∉ line) (hhead : line.head? = some 97) :
    isBlank line = false := by
  obtain ⟨rest, rfl⟩ := head?_eq_some_iff.mp hhead
  rw [isBlank, trimCR_of_notMem h]
  rfl

/-- 65536 letters `a`, and one more. -/
def longPart : Bytes := 97 :: List.replicate 65535 97
def longLine : Bytes := longPart ++ [97]

theorem notMem_longLine {b : UInt8} (h : b ≠ 97) : b ∉ longLine := by
  intro hm
  rcases mem_append.mp hm with he | he
  · rcases mem_cons.mp he with he | he
    · exact h he
    · exact h (eq_of_mem_replicate he)
  · exact h (mem_singleton.mp he)

theorem length_longPart : longPart.length = 65536 := by
  rw [longPart, length_cons, length_replicate]

theorem length_longLine : longLine.length = 65537 := by
  rw [longLine, length_append, length_longPart]
  rfl

theorem lineAt_longLine : LineAt (longLine ++ [10]) 0 longLine :=
  ⟨[], [], rfl, rfl, .inl rfl, notMem_longLine (by decide)⟩

theorem exists_round (cfg : SourceConfig φ ε) {s : Tailing ε} (h : s.closed = false) (look : Look) :
    ∃ s', round cfg s look = some s' := by
  unfold round
  rw [h]
  exact ⟨_, rfl⟩

/-- The line is read to its newline in one round. -/
theorem one_round_marked : ∃ s,
    run (guarded (uncut 0 longLine) (round aPipeline.source)) ⟨newLog, [], false⟩
        [⟨false, (longLine ++ [10]).length, longLine ++ [10], 0⟩] = some s ∧
      entriesOf 0 (0 + longLine.length + 1) s.out = [longEntry aPipeline.source newLog.tf 0 longLine] := by
  have hat := lineAt_longLine
  have hcr : 13 ∉ longLine := notMem_longLine (by decide)
  have hblank := isBlank_eq_false hcr rfl
  have hlen := length_longLine
  -- nothing else of the line matters
  obtain ⟨line, hline⟩ : ∃ line, longLine = line := ⟨_, rfl⟩
  rw [hline] at hat hcr hblank hlen ⊢
  have hfile : (line ++ [10]).length = 65538 := by
    rw [List.length_append, hlen]
    rfl
  have hpos : nextPos (line ++ [10]) newLog.pos = 65538 := by
    rw [nextPos, hfile]
    decide
  let look : Look := ⟨false, (line ++ [10]).length, line ++ [10], 0⟩
  let start : Tailing Bytes := ⟨newLog, [], false⟩
  have happended : Appended (line ++ [10]) 0 [look] :=
    ⟨Nat.zero_le _, Nat.le_refl _, List.prefix_refl _, trivial⟩
  have huncut : uncut 0 line start look = true := by
    have hlt : 0 + line.length < nextPos look.data start.file.pos := by
      rw [show nextPos look.data start.file.pos = 65538 from hpos, hlen]
      decide
    simp only [uncut, hlt, decide_true, Bool.or_true, Bool.true_or]
  obtain ⟨s, hs⟩ := exists_round aPipeline.source (rfl : start.closed = false) look
  have hrun : run (guarded (uncut 0 line) (round aPipeline.source)) start [look] = some s :=
    run_cons.mpr ⟨s, guarded_eq_some.mpr ⟨huncut, hs⟩, rfl⟩
  have hend : s.file.pos = 65538 := by
    rw [((inPlace_opened newLog_opened).round (Nat.zero_le _) (Nat.le_refl _)
      (List.prefix_refl _) hs rfl).2.pos]
    exact hpos
  refine ⟨s, hrun, ?_⟩
  rw [long_line_marked newLog_opened happended hat (Nat.le_refl 0) hcr (by rw [hlen]; decide) hblank
    hrun, hend, hlen]
  rfl

/-- The first 65536 bytes of a line are read without its end: they become an entry without
the mark, and the last byte of the line becomes one of its own. -/
theorem split_at_limit {part : Bytes} (hfree : 10 ∉ part) (hcr : 13 ∉ part)
    (hblank : isBlank part = false) (hlen : part.length = 65536) : ∃ s,
    run (round aPipeline.source) ⟨newLog, [], false⟩ [⟨false, part.length, part, 0⟩,
          ⟨false, (part ++ [97] ++ [10]).length, part ++ [97] ++ [10], 0⟩] = some s ∧
      s.file.pos = 65538 ∧
      (entriesOf 0 65538 s.out).map (·.body) = [part, [97]] := by
  have hfile : (part ++ [97] ++ [10]).length = 65538 := by
    rw [length_append, length_append, hlen]
    rfl
  have hpre : part <+: part ++ [97] ++ [10] := ⟨[97, 10], by simp⟩
  let start : Tailing Bytes := ⟨newLog, [], false⟩
  let look1 : Look := ⟨false, part.length, part, 0⟩
  let look2 : Look := ⟨false, (part ++ [97] ++ [10]).length, part ++ [97] ++ [10], 0⟩
  -- the first round has the part in memory and hands it on
  have hnext1 : nextPos part newLog.pos = part.length := by
    rw [nextPos, hlen]
    decide
  have hsplit1 : splitLines (between (part ++ [97] ++ [10]) newLog.tf.offset
      (nextPos part newLog.pos)) = ([], part) := by
    rw [hnext1, ← between_prefix hpre (Nat.le_refl _),
      show between part newLog.tf.offset part.length = part from take_length]
    exact splitLines_of_notMem hfree
  obtain ⟨s1, hs1⟩ := exists_round aPipeline.source (rfl : start.closed = false) look1
  obtain ⟨hplace1, hround1⟩ := (inPlace_opened newLog_opened).round (Nat.zero_le _)
    (Nat.le_refl _) hpre hs1 hsplit1
  have hpos1 : s1.file.pos = 65536 := by rw [hround1.pos, ← hlen]; exact hnext1
  obtain ⟨hoff1, hout1⟩ : s1.file.tf.offset = 65536 ∧
      s1.out = [emission aPipeline.source newLog.tf 0 part part.length] := by
    rcases hround1.last with ⟨-, -, hshort, -⟩ | ⟨hoff, -, hout⟩
    · rw [hlen] at hshort
      exact absurd hshort (by decide)
    · exact ⟨hoff.trans hpos1, hout⟩
  have hopen1 : s1.closed = false := hround1.closed rfl
  -- the second has the last byte and the newline
  have hnext2 : nextPos (part ++ [97] ++ [10]) s1.file.pos = 65538 := by
    rw [nextPos, hfile, hpos1]
    decide
  have hsplit2 : splitLines (between (part ++ [97] ++ [10]) s1.file.tf.offset
      (nextPos (part ++ [97] ++ [10]) s1.file.pos)) = ([[97]], []) := by
    rw [hnext2, hoff1, between, ← hlen, append_assoc, drop_left, hlen]
    rfl
  obtain ⟨s2, hs2⟩ := exists_round aPipeline.source hopen1 look2
  obtain ⟨-, hround2⟩ := hplace1.round (show s1.file.pos ≤ look2.size by
    rw [hpos1, show look2.size = _ from hfile]; decide) (Nat.le_refl _) (prefix_refl _) hs2
    hsplit2
  have hout2 : s2.out = s1.out ++ ([emission aPipeline.source newLog.tf 65536 [97] 2] ++ [.quiet]) := by
    rcases hround2.last with ⟨-, -, -, hout⟩ | ⟨-, hlate | ⟨hne, -⟩, -⟩
    · rw [hoff1] at hout
      exact hout
    · exact absurd hlate (by decide)
    · exact absurd rfl hne
  refine ⟨s2, run_cons.mpr ⟨s1, hs1, run_cons.mpr ⟨s2, hs2, rfl⟩⟩, hround2.pos.trans hnext2, ?_⟩
  have hfirst : entriesOf 0 65538 [emission aPipeline.source newLog.tf 0 part part.length] = _ :=
    entriesOf_emission_inside (by decide) (by rw [hlen]; decide) hblank
  have hlast : entriesOf 0 65538 [emission aPipeline.source newLog.tf 65536 [97] 2] = _ :=
    entriesOf_emission_inside (by decide) (by decide) (by decide)
  have hpart : cutLine (trimCR part) = part := by
    rw [trimCR_of_notMem hcr]
    exact cutLine_short (by rw [hlen]; decide)
  rw [hout2, hout1, entriesOf_append, entriesOf_append, hfirst, hlast, entriesOf_quiet, hpart]
  rfl

/-- The writer of a long line stops for a moment after 65536 bytes. -/
theorem long_line_split : ∃ s,
    run (round aPipeline.source) ⟨newLog, [], false⟩
        [⟨false, longPart.length, longPart, 0⟩,
          ⟨false, (longLine ++ [10]).length, longLine ++ [10], 0⟩] = some s ∧
      LineAt (longLine ++ [10]) 0 longLine ∧ 13 ∉ longLine ∧ maxLineBytes < longLine.length ∧
      s.file.pos = (longLine ++ [10]).length ∧
      (entriesOf 0 (longLine ++ [10]).length s.out).map (·.body) = [longPart, [97]] := by
  have hcr : 13 ∉ longPart := fun h => notMem_longLine (by decide) (mem_append_left _ h)
  have hfree : 10 ∉ longPart := fun h => notMem_longLine (by decide) (mem_append_left _ h)
  obtain ⟨s, hs, hpos, hbodies⟩ :=
    split_at_limit hfree hcr (isBlank_eq_false hcr rfl) length_longPart
  have hlen : (longLine ++ [10]).length = 65538 := by
    rw [length_append, length_longLine]
    rfl
  refine ⟨s, hs, lineAt_longLine, notMem_longLine (by decide), ?_, by rw [hpos, hlen], ?_⟩
  · rw [length_longLine]
    decide
  · rw [hlen, hbodies]

end YominsAgent.Logs
