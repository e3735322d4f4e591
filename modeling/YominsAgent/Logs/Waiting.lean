import YominsAgent.Logs.Drain

/- How long the last line of a file waits for its newline.

   `read` keeps an unfinished line and hands it on once it has waited for `partialFlush`. The
   waiting time is that of the file (`partAt`), not of the line: a round that completes the kept
   line and ends inside the next one leaves it running. In rounds that do not (`sameLine`) a line is
   handed on unfinished only when its first byte was in the kept part after a round more than
   `partialFlush` before: `partial_waits`. -/
namespace YominsAgent.Logs
open Go Lib List Bool

variable {φ ε : Type} {tf : TailedFile}

/-- Where the line begins that the offset `o` is in, of what was read from `a` on. -/
def lineStart (file : Bytes) (a o : Nat) : Nat :=
  a + (joinLines (splitLines (between file a o)).1).length

section Lines
variable {file : Bytes} {a o p : Nat}

theorem lineStart_add_rest (ho : o ≤ file.length) (hao : a ≤ o) :
    lineStart file a o + (splitLines (between file a o)).2.length = o := by
  have hlen := length_splitLines (rfl : splitLines (between file a o) = _)
  rw [length_between ho] at hlen
  unfold lineStart
  omega

theorem lineStart_of_free (hao : a ≤ o) (hop : o ≤ p) (h : 10 ∉ between file o p) :
    lineStart file a p = lineStart file a o := by
  have hfree : 10 ∉ (splitLines (between file a o)).2 ++ between file o p := by
    simp [(newline_notMem_splitLines (between file a o)).2, h]
  rw [lineStart, ← between_append hao hop, splitLines_append, splitLines_of_notMem hfree,
    append_nil, lineStart]

theorem lineStart_of_newline (hp : p ≤ file.length) (hao : a ≤ o) (hop : o ≤ p)
    {lines : List Bytes} (h : between file o p = joinLines lines) (hne : lines ≠ [])
    (hlines : ∀ line ∈ lines, 10 ∉ line) : lineStart file a p = p := by
  have hmem : 10 ∈ joinLines lines := by
    obtain ⟨line, more, rfl⟩ := exists_cons_of_ne_nil hne
    simp
  have hrest : (splitLines (between file a p)).2 = [] := by
    rw [← between_append hao hop, h, splitLines_rest_of_newline hmem,
      splitLines_joinLines hlines]
  have hadd := lineStart_add_rest hp (hao.trans hop)
  rwa [hrest, length_nil, Nat.add_zero] at hadd

/-- What is in memory behind the last newline is no longer than the line it is in. -/
theorem length_rest_le (x m : Bytes) :
    (splitLines m).2.length ≤ (splitLines (x ++ m)).2.length := by
  by_cases h : 10 ∈ m
  · rw [splitLines_rest_of_newline h]
  · have hfree : 10 ∉ (splitLines x).2 ++ m := by
      simp [(newline_notMem_splitLines x).2, h]
    rw [splitLines_append, splitLines_of_notMem hfree, splitLines_of_notMem h]
    simp

theorem at_between (ho : a ≤ file.length) : At file a (between file a o) := by
  refine ⟨file.take a, by simp [ho], ?_⟩
  rw [between, ← take_add]
  exact take_prefix _ _

theorem At.getElem? {b : UInt8} {more : Bytes} (h : At file o (b :: more)) : file[o]? = some b := by
  obtain ⟨before, rfl, rest, rfl⟩ := h
  simp

theorem linesOut_terminated {cfg : SourceConfig φ ε} {lines : List Bytes}
    (h : At file o (joinLines lines)) :
    ∀ e ∈ sends (linesOut cfg tf o lines), ∀ sp, e.ack = .file sp → file[sp.hi - 1]? = some 10 := by
  induction lines generalizing o with
  | nil => exact nofun
  | cons line lines ih =>
    rw [joinLines_cons] at h
    have hcons : linesOut cfg tf o (line :: lines) = [emission cfg tf o line (line.length + 1)] ++
          linesOut cfg tf (o + (line.length + 1)) lines := rfl
    have hnext : At file (o + (line.length + 1)) (joinLines lines) := by
      rw [← singleton_append] at h
      have := h.right.right
      rwa [length_singleton, Nat.add_assoc] at this
    rw [hcons, sends_append]
    intro e he sp hsp
    rcases mem_append.mp he with he | he
    · rw [sends_emission] at he
      split at he
      · cases he
      · rw [mem_singleton.mp he] at hsp
        cases hsp
        exact h.right.getElem?
    · exact ih hnext e he sp hsp

end Lines

section Rounds
variable {cfg : SourceConfig φ ε} {f : OpenFile} {file : Bytes} {s s' : Tailing ε} {look : Look}
  {looks : List Look} {t now : Int} {l : Nat}

theorem readRest_partAt (cfg : SourceConfig φ ε) (now : Int) {rest : Bytes}
    (hgone : tf.gone = false) (hrest : rest.length < maxLineBytes) :
    (readRest cfg now tf rest).1.partAt =
      if rest = [] ∨ overdue now tf = true then none else tf.partAt.or (some now) := by
  unfold readRest
  rw [if_neg (Nat.not_le.mpr hrest), hgone, Bool.false_or]
  by_cases hnil : rest = []
  · simp [hnil]
  · rw [if_pos (List.length_pos_of_ne_nil hnil)]
    by_cases hover : overdue now tf = true
    · rw [if_pos hover, if_pos (.inr hover)]
    · rw [if_neg hover, if_neg (by simp [hnil, hover])]

/-- The time `partAt` after a round that finds the file not gone and a short rest. -/
theorem round_partAt (hgone : (s.file.tf.gone || look.gone) = false)
    (hfit : s.file.tf.offset + s.file.tf.part.length ≤ look.size)
    (hs : round cfg s look = some s') {lines : List Bytes} {rest : Bytes}
    (hsplit : splitLines (s.file.tf.part ++ s.file.readFull look.data) = (lines, rest))
    (hrest : rest.length < maxLineBytes) :
    s'.file.tf.partAt =
      if rest = [] ∨ overdue look.now s.file.tf = true then none
      else s.file.tf.partAt.or (some look.now) := by
  let g := s.file.mark look.gone
  have hread : g.read cfg look = _ := read_eq cfg hfit hsplit
  simp only [round] at hs
  split at hs
  · cases hs
  rw [show (s.file.mark look.gone).read cfg look = g.read cfg look from rfl, hread] at hs
  cases hs
  exact readRest_partAt cfg look.now hgone hrest

/-- The round does not complete the kept line and end inside another one. -/
def sameLine (s : Tailing ε) (look : Look) : Bool :=
  s.file.tf.part.isEmpty || !(s.file.readFull look.data).contains 10 ||
    (s.file.readFull look.data).getLast? == some 10

/-- After one of the rounds, at the time `t`, the byte at `l` was in the kept part. -/
def KeptAt (cfg : SourceConfig φ ε) (f : OpenFile) (looks : List Look) (t : Int) (l : Nat) : Prop :=
  ∃ pre look post s, looks = pre ++ look :: post ∧ look.now = t ∧
    run (round cfg) ⟨f, [], false⟩ (pre ++ [look]) = some s ∧
    s.file.tf.offset ≤ l ∧ l < s.file.tf.offset + s.file.tf.part.length

theorem KeptAt.mono (h : KeptAt cfg f looks t l) (look : Look) :
    KeptAt cfg f (looks ++ [look]) t l := by
  obtain ⟨pre, k, post, s, rfl, h⟩ := h
  exact ⟨pre, k, post ++ [look], s, by simp, h⟩

theorem KeptAt.time_le (h : KeptAt cfg f looks t l) (htimes : ∀ k ∈ looks, k.now ≤ now) :
    t ≤ now := by
  obtain ⟨pre, k, post, s, rfl, rfl, -⟩ := h
  exact htimes k (by simp)

/-- What holds after rounds that stay in a line. -/
structure Waits (cfg : SourceConfig φ ε) (f : OpenFile) (file : Bytes) (looks : List Look)
    (s : Tailing ε) : Prop where
  ran : run (round cfg) ⟨f, [], false⟩ looks = some s
  place : InPlace f file s
  gone : s.file.tf.gone = false
  le : f.pos ≤ s.file.tf.offset
  free : 10 ∉ s.file.tf.part
  unset : s.file.tf.part = [] → s.file.tf.partAt = none
  /-- the waiting time is not longer than that of the line -/
  since : ∀ t, s.file.tf.partAt = some t →
    ∃ t' ≤ t, KeptAt cfg f looks t' (lineStart file f.pos s.file.tf.offset)
  /-- the beginning of a line that was handed on was kept before -/
  begun : lineStart file f.pos s.file.tf.offset < s.file.tf.offset →
    ∃ t, KeptAt cfg f looks t (lineStart file f.pos s.file.tf.offset)

theorem waits_opened {n : Nat} (h : JustOpened f n) : Waits cfg f file [] ⟨f, [], false⟩ := by
  have hnone : between file f.pos f.pos = [] := by simp [between]
  refine ⟨rfl, inPlace_opened h, h.gone, by rw [h.pos], by simp [h.part], fun _ => h.partAt, ?_, ?_⟩
  · intro t ht
    rw [h.partAt] at ht
    cases ht
  · intro hlt
    rw [← h.pos, lineStart, hnone] at hlt
    simp [splitLines] at hlt

/-- An entry that does not end in a newline had waited. -/
def Waited (cfg : SourceConfig φ ε) (f : OpenFile) (file : Bytes) (looks : List Look) (now : Int)
    (out : List (Effect ε)) : Prop :=
  ∀ e ∈ sends out, ∀ sp, e.ack = .file sp → file[sp.hi - 1]? ≠ some 10 →
    ∃ t, KeptAt cfg f looks t (lineStart file f.pos sp.lo) ∧ partialFlush < now - t

theorem mem_append_of_free {part chunk : Bytes} (hpart : 10 ∉ part) {lines : List Bytes}
    {rest : Bytes} (hsplit : splitLines (part ++ chunk) = (lines, rest)) (hlines : lines ≠ []) :
    10 ∈ chunk := by
  by_contra hchunk
  have hfree : 10 ∉ part ++ chunk := by simp [hpart, hchunk]
  rw [splitLines_of_notMem hfree] at hsplit
  exact hlines (Prod.mk.inj hsplit).1.symm

/-- A round that completes a line and ends inside another one has found nothing kept. -/
theorem part_nil_of_sameLine (hsame : sameLine s look = true) (hfree : 10 ∉ s.file.tf.part)
    {lines : List Bytes} {rest : Bytes}
    (hsplit : splitLines (s.file.tf.part ++ s.file.readFull look.data) = (lines, rest))
    (hlines : lines ≠ []) (hrest : rest ≠ []) : s.file.tf.part = [] := by
  have hmem : 10 ∈ s.file.readFull look.data := mem_append_of_free hfree hsplit hlines
  simp only [sameLine, Bool.or_eq_true, List.isEmpty_iff, Bool.not_eq_true', beq_iff_eq] at hsame
  rcases hsame with (h | h) | h
  · exact h
  · simp [hmem] at h
  · -- what ends in a newline leaves no rest
    obtain ⟨init, hinit⟩ := List.getLast?_eq_some_iff.mp h
    rw [hinit, ← List.append_assoc, splitLines_append,
      splitLines_line (newline_notMem_splitLines _).2] at hsplit
    exact absurd (Prod.mk.inj hsplit).2.symm hrest

/-- A round, from a state after rounds that stay in a line: it has `lines` and then `rest`
in memory. -/
structure WaitRound (cfg : SourceConfig φ ε) (f : OpenFile) (file : Bytes) (looks : List Look)
    (look : Look) (lines : List Bytes) (rest : Bytes) (s s' : Tailing ε) : Prop where
  waits : Waits cfg f file looks s
  times : ∀ k ∈ looks, k.now ≤ look.now
  ran : run (round cfg) ⟨f, [], false⟩ (looks ++ [look]) = some s'
  place : InPlace f file s'
  round : RoundOf cfg f look lines rest s s'
  alive : (s.file.tf.gone || look.gone) = false
  le : s.file.tf.offset ≤ s'.file.pos
  within : s'.file.pos ≤ file.length
  bytes : between file s.file.tf.offset s'.file.pos = joinLines lines ++ rest
  linesFree : ∀ line ∈ lines, 10 ∉ line
  restFree : 10 ∉ rest
  short : rest.length < maxLineBytes
  fresh : lines ≠ [] → rest ≠ [] → s.file.tf.part = []
  partAt : s'.file.tf.partAt =
    if rest = [] ∨ overdue look.now s.file.tf = true then none
    else s.file.tf.partAt.or (some look.now)

theorem Waits.round (h : Waits cfg f file looks s) (hshort : Short (file.drop f.pos))
    (hsize : s.file.pos ≤ look.size) (hdata : look.size ≤ look.data.length)
    (hpre : look.data <+: file) (hgone : look.gone = false)
    (htimes : ∀ k ∈ looks, k.now ≤ look.now) (hsame : sameLine s look = true)
    (hs : Logs.round cfg s look = some s') :
    ∃ lines rest, WaitRound cfg f file looks look lines rest s s' := by
  obtain ⟨lines, rest, hsplit⟩ : ∃ lines rest, splitLines
      (between file s.file.tf.offset (nextPos look.data s.file.pos)) = (lines, rest) := ⟨_, _, rfl⟩
  obtain ⟨hplace, hround⟩ := h.place.round hsize hdata hpre hs hsplit
  have hsplit' : splitLines (s.file.tf.part ++ s.file.readFull look.data) = (lines, rest) := by
    rw [h.place.memory hsize hdata hpre, hsplit]
  have halive : (s.file.tf.gone || look.gone) = false := by
    rw [h.gone, hgone]
    rfl
  have hnext : nextPos look.data s.file.pos ≤ file.length :=
    (Nat.min_le_left _ _).trans hpre.length_le
  have hle : s.file.tf.offset ≤ nextPos look.data s.file.pos := by
    have hpos := h.place.pos
    unfold nextPos
    omega
  have hfree := newline_notMem_splitLines
    (between file s.file.tf.offset (nextPos look.data s.file.pos))
  have hbytes := joinLines_splitLines
    (between file s.file.tf.offset (nextPos look.data s.file.pos))
  rw [hsplit] at hfree hbytes
  -- the rest belongs to a line of the file
  have hrest : rest.length < maxLineBytes := by
    have hseen : Short (between file f.pos (nextPos look.data s.file.pos)) := by
      refine Short.left (b := (file.drop f.pos).drop (nextPos look.data s.file.pos - f.pos)) ?_
      rwa [between, take_append_drop]
    have hlen := length_rest_le (between file f.pos s.file.tf.offset)
      (between file s.file.tf.offset (nextPos look.data s.file.pos))
    rw [between_append h.le hle, hsplit] at hlen
    exact Nat.lt_of_le_of_lt hlen hseen.2
  refine ⟨lines, rest, h, htimes, ?_, hplace, hround, halive, ?_, ?_, ?_, hfree.1, hfree.2, hrest,
    part_nil_of_sameLine hsame h.free hsplit',
    round_partAt halive (h.place.pos ▸ hsize) hs hsplit' hrest⟩
  · rw [run_append, h.ran]
    simp only [Option.bind_some, run, hs]
  · rwa [hround.pos]
  · rwa [hround.pos]
  · rw [hround.pos, hbytes]

theorem waited_quiet : Waited cfg f file looks look.now [.quiet] := nofun

theorem Waited.append {a b : List (Effect ε)} (ha : Waited cfg f file looks now a)
    (hb : Waited cfg f file looks now b) : Waited cfg f file looks now (a ++ b) := by
  intro e he
  rw [sends_append] at he
  rcases mem_append.mp he with he | he
  · exact ha e he
  · exact hb e he

section Step
variable {lines : List Bytes} {rest : Bytes}

section
variable (h : WaitRound cfg f file looks look lines rest s s')
include h

theorem WaitRound.keptAt (hlo : s'.file.tf.offset ≤ l) (hhi : l < s'.file.tf.offset + s'.file.tf.part.length) :
    KeptAt cfg f (looks ++ [look]) look.now l :=
  ⟨looks, look, [], s', rfl, rfl, h.ran, hlo, hhi⟩

theorem WaitRound.gone : s'.file.tf.gone = false := by
  rw [h.round.gone, h.alive]

/-- The lines that a round completes end in their newlines. -/
theorem WaitRound.waited_lines :
    Waited cfg f file looks look.now (linesOut cfg f.tf s.file.tf.offset lines) := by
  have hat : At file s.file.tf.offset (joinLines lines ++ rest) :=
    h.bytes ▸ at_between (h.le.trans h.within)
  intro e he sp hsp hne
  exact absurd (linesOut_terminated hat.left e he sp hsp) hne

end

/-- The round reads no newline: the line goes on, and waits or is handed on. -/
theorem WaitRound.inside (h : WaitRound cfg f file looks look [] rest s s') :
    Waits cfg f file (looks ++ [look]) s' ∧
      ∃ new, s'.out = s.out ++ new ∧ Waited cfg f file looks look.now new := by
  have hbytes : between file s.file.tf.offset s'.file.pos = rest := h.bytes
  have hline : lineStart file f.pos s'.file.pos = lineStart file f.pos s.file.tf.offset :=
    lineStart_of_free h.waits.le h.le (hbytes ▸ h.restFree)
  rcases h.round.last with ⟨hoff, hpart, -, hout⟩ | ⟨hoff, hwhy, hout⟩
  · -- the line is kept
    rw [joinLines_nil, List.length_nil, Nat.add_zero] at hoff
    refine ⟨⟨h.ran, h.place, h.gone, ?_, ?_, ?_, fun t ht => ?_, fun hlt => ?_⟩,
      [.quiet], hout, waited_quiet⟩
    · rw [hoff]
      exact h.waits.le
    · rw [hpart]
      exact h.restFree
    · intro hnil
      rw [h.partAt, if_pos (.inl (hpart.symm.trans hnil))]
    · rw [h.partAt] at ht
      split at ht
      · cases ht
      next hkeep =>
      rw [hoff]
      cases hat : s.file.tf.partAt with
      | some =>
        rw [hat] at ht
        cases ht
        obtain ⟨t', hle, hkept⟩ := h.waits.since _ hat
        exact ⟨t', hle, hkept.mono look⟩
      | none =>
        -- it begins here, or its beginning was handed on before
        rw [hat] at ht
        cases ht
        by_cases hlt : lineStart file f.pos s.file.tf.offset < s.file.tf.offset
        · obtain ⟨t', hkept⟩ := h.waits.begun hlt
          exact ⟨t', hkept.time_le h.times, hkept.mono look⟩
        · have hadd := lineStart_add_rest (h.le.trans h.within) h.waits.le
          have hne : rest ≠ [] := fun hnil => hkeep (.inl hnil)
          have hlen := List.length_pos_of_ne_nil hne
          refine ⟨look.now, le_refl _, h.keptAt ?_ ?_⟩
          · rw [hoff]
            omega
          · rw [hoff, hpart]
            omega
    · rw [hoff] at hlt ⊢
      obtain ⟨t, hkept⟩ := h.waits.begun hlt
      exact ⟨t, hkept.mono look⟩
  · -- it has waited long enough
    obtain ⟨hne, hover⟩ : rest ≠ [] ∧ overdue look.now s.file.tf = true := by
      rcases hwhy with hlong | ⟨hne, hflush⟩
      · exact absurd h.short (Nat.not_lt.mpr hlong)
      · rw [h.alive, Bool.false_or] at hflush
        exact ⟨hne, hflush⟩
    obtain ⟨t0, hat, hlate⟩ : ∃ t0, s.file.tf.partAt = some t0 ∧ partialFlush < look.now - t0 := by
      cases hat : s.file.tf.partAt with
      | none => simp [overdue, hat] at hover
      | some t0 => exact ⟨t0, rfl, by simpa [overdue, hat] using hover⟩
    obtain ⟨t, hle, hkept⟩ := h.waits.since t0 hat
    have hpart : s'.file.tf.part = [] := by
      have hpos := h.place.pos
      rw [← List.length_eq_zero_iff]
      omega
    have hnone : s'.file.tf.partAt = none := by rw [h.partAt, if_pos (.inr hover)]
    refine ⟨⟨h.ran, h.place, h.gone, ?_, ?_, fun _ => hnone, fun t' ht' => ?_, fun _ => ?_⟩,
      _, hout, fun e he sp hsp _ => ⟨t, ?_, by omega⟩⟩
    · rw [hoff]
      exact h.waits.le.trans h.le
    · rw [hpart]
      exact nofun
    · rw [hnone] at ht'
      cases ht'
    · rw [hoff, hline]
      exact ⟨t, hkept.mono look⟩
    · have hlo : sp.lo = s.file.tf.offset := by
        have hone : sends ([] ++ [emission cfg f.tf (s.file.tf.offset + (joinLines []).length) rest
            rest.length]) = sends [emission cfg f.tf s.file.tf.offset rest rest.length] := rfl
        rw [show linesOut cfg f.tf s.file.tf.offset [] = [] from rfl, hone, sends_emission] at he
        split at he
        · cases he
        · rw [List.mem_singleton.mp he] at hsp
          cases hsp
          rfl
      rwa [hlo]

/-- The round reads a newline: what follows the last one begins to wait. -/
theorem WaitRound.behind (h : WaitRound cfg f file looks look lines rest s s') (hne : lines ≠ []) :
    Waits cfg f file (looks ++ [look]) s' ∧
      ∃ new, s'.out = s.out ++ new ∧ Waited cfg f file looks look.now new := by
  have hunset : rest ≠ [] → s.file.tf.partAt = none := fun hrest => h.waits.unset (h.fresh hne hrest)
  rcases h.round.last with ⟨hoff, hpart, -, hout⟩ | ⟨-, hwhy, -⟩
  · have hpos := h.place.pos
    have hend : between file s.file.tf.offset s'.file.tf.offset = joinLines lines := by
      have hsplit : between file s.file.tf.offset s'.file.tf.offset ++
          between file s'.file.tf.offset s'.file.pos = joinLines lines ++ rest := by
        rw [between_append (by omega) (by omega), h.bytes]
      have hwithin := h.within
      refine List.append_inj_left hsplit ?_
      rw [length_between (by omega)]
      omega
    have hline : lineStart file f.pos s'.file.tf.offset = s'.file.tf.offset := by
      have hwithin := h.within
      exact lineStart_of_newline (by omega) h.waits.le (by omega) hend hne h.linesFree
    refine ⟨⟨h.ran, h.place, h.gone, ?_, ?_, ?_, fun t ht => ?_, fun hlt => ?_⟩,
      _, hout, h.waited_lines.append waited_quiet⟩
    · have hle := h.waits.le
      omega
    · rw [hpart]
      exact h.restFree
    · intro hnil
      rw [h.partAt, if_pos (.inl (hpart.symm.trans hnil))]
    · rw [h.partAt] at ht
      split at ht
      · cases ht
      next hkeep =>
      have hrest : rest ≠ [] := fun hnil => hkeep (.inl hnil)
      rw [hunset hrest] at ht
      cases ht
      have hlen := List.length_pos_of_ne_nil hrest
      rw [hline]
      exact ⟨look.now, le_refl _, h.keptAt (le_refl _) (by rw [hpart]; omega)⟩
    · omega
  · -- the rest has not waited at all
    rcases hwhy with hlong | ⟨hrest, hflush⟩
    · exact absurd h.short (Nat.not_lt.mpr hlong)
    · rw [h.alive, Bool.false_or, overdue, hunset hrest] at hflush
      cases hflush

theorem WaitRound.step (h : WaitRound cfg f file looks look lines rest s s') :
    Waits cfg f file (looks ++ [look]) s' ∧ s'.file.pos = nextPos look.data s.file.pos ∧
      ∃ new, s'.out = s.out ++ new ∧ Waited cfg f file looks look.now new := by
  cases lines with
  | nil => exact ⟨h.inside.1, h.round.pos, h.inside.2⟩
  | cons line lines =>
    have hstep := h.behind (cons_ne_nil line lines)
    exact ⟨hstep.1, h.round.pos, hstep.2⟩

end Step

theorem Waits.run (hshort : Short (file.drop f.pos)) {last : Look} {s1 : Tailing ε} :
    ∀ {looks done : List Look} {n : Nat} {s : Tailing ε}, Waits cfg f file done s →
      s.file.pos ≤ n → Appended file n (looks ++ [last]) →
      (done ++ (looks ++ [last])).Pairwise (fun a b => a.now ≤ b.now) →
      (∀ k ∈ looks ++ [last], k.gone = false) →
      Lib.run (guarded sameLine (Logs.round cfg)) s looks = some s1 →
      guarded sameLine (Logs.round cfg) s1 last = some s' →
      ∃ new, s'.out = s1.out ++ new ∧ Waited cfg f file (done ++ looks) last.now new := by
  intro looks
  induction looks with
  | nil =>
    intro done n s h hn ⟨hsize, hdata, hpre, _⟩ htimes hgone hrun hlast
    cases hrun
    obtain ⟨hsame, hlast⟩ := guarded_eq_some.mp hlast
    rw [append_nil]
    obtain ⟨_, _, hround⟩ := h.round hshort (hn.trans hsize) hdata hpre (hgone last (by simp))
      (fun k hk => (pairwise_append.mp htimes).2.2 k hk last (by simp)) hsame hlast
    exact hround.step.2.2
  | cons look looks ih =>
    intro done n s h hn ⟨hsize, hdata, hpre, hrest⟩ htimes hgone hrun hlast
    obtain ⟨s2, hstep, hrun⟩ := run_cons.mp hrun
    obtain ⟨hsame, hstep⟩ := guarded_eq_some.mp hstep
    have hbefore : ∀ k ∈ done, k.now ≤ look.now := fun k hk =>
      (pairwise_append.mp htimes).2.2 k hk look (by simp)
    obtain ⟨_, _, hround⟩ := h.round hshort (hn.trans hsize) hdata hpre (hgone look (by simp))
      hbefore hsame hstep
    obtain ⟨h2, hpos, -⟩ := hround.step
    have htail := ih h2 (hpos ▸ Nat.min_le_left _ _) hrest (by simpa using htimes)
      (fun k hk => hgone k (mem_cons_of_mem look hk)) hrun hlast
    simpa using htail

/-- For every sequence of appends and rounds at increasing times, on a file that is not
gone and whose lines are short, in which no round completes a kept line and ends inside
another one: a round hands on a line without its newline only if the first byte of that
line was kept after a round more than `partialFlush` before. -/
theorem partial_waits {n : Nat} {looks : List Look} {look : Look} (hopen : JustOpened f n)
    (happended : Appended file n (looks ++ [look])) (hshort : Short (file.drop f.pos))
    (htimes : (looks ++ [look]).Pairwise fun a b => a.now ≤ b.now)
    (hgone : ∀ k ∈ looks ++ [look], k.gone = false)
    (hrun : run (guarded sameLine (round cfg)) ⟨f, [], false⟩ looks = some s)
    (hlast : guarded sameLine (round cfg) s look = some s') :
    ∃ new, s'.out = s.out ++ new ∧
      ∀ e ∈ sends new, ∀ sp, e.ack = .file sp → file[sp.hi - 1]? ≠ some 10 →
        ∃ t, KeptAt cfg f looks t (lineStart file f.pos sp.lo) ∧ partialFlush < look.now - t := by
  have hopened : Waits cfg f file [] ⟨f, [], false⟩ := waits_opened hopen
  have hwaits := Waits.run hshort hopened hopen.le happended (by simpa using htimes) hgone hrun
    hlast
  simpa [Waited] using hwaits

end Rounds

/-- The line `a`, looked at after so many seconds. -/
def lookAt (seconds : Int) : Look := ⟨false, 1, [97], seconds * second⟩

/-- It is kept at 0 s and at 4 s, and handed on at 6 s. -/
theorem waited_six_seconds : ∃ s s' : Tailing Bytes,
    run (guarded sameLine (round aPipeline.source)) ⟨newLog, [], false⟩ [lookAt 0, lookAt 4] = some s ∧
    guarded sameLine (round aPipeline.source) s (lookAt 6) = some s' ∧
    ∃ new, s'.out = s.out ++ new ∧
      sends new = [⟨[97], .file ⟨aLog, 7, 0, 1⟩⟩] ∧
      ∃ t, KeptAt aPipeline.source newLog [lookAt 0, lookAt 4] t 0 ∧
        partialFlush < 6 * second - t := by
  obtain ⟨s, s', hs, hs', hsent⟩ : ∃ s s' : Tailing Bytes,
      run (guarded sameLine (round aPipeline.source)) ⟨newLog, [], false⟩ [lookAt 0, lookAt 4] =
        some s ∧ guarded sameLine (round aPipeline.source) s (lookAt 6) = some s' ∧
      s'.out = s.out ++ [.send ⟨[97], .file ⟨aLog, 7, 0, 1⟩⟩] := ⟨_, _, rfl, rfl, rfl⟩
  have happended : Appended [97] 0 ([lookAt 0, lookAt 4] ++ [lookAt 6]) := by simp [Appended, lookAt]
  obtain ⟨new, hout, hwaited⟩ := partial_waits newLog_opened happended (by decide) (by decide)
    (by decide) hs hs'
  rw [hsent, append_cancel_left_eq] at hout
  subst hout
  exact ⟨s, s', hs, hs', _, hsent, rfl, hwaited _ (mem_singleton_self _) _ rfl (by decide)⟩

/-- `a` is kept at 0 s; at 4 s it is complete and `b` follows; at 6 s `b` is handed on,
two seconds after it was first read. -/
theorem waited_two_seconds : ∃ s : Tailing Bytes,
    run (round aPipeline.source) ⟨newLog, [], false⟩ [⟨false, 1, [97], 0⟩,
      ⟨false, 3, [97, 10, 98], 4 * second⟩, ⟨false, 3, [97, 10, 98], 6 * second⟩] = some s ∧
    sends s.out = [⟨[97], .file ⟨aLog, 7, 0, 2⟩⟩,
      ⟨[98], .file ⟨aLog, 7, 2, 3⟩⟩] ∧
    lineStart [97, 10, 98] 0 2 = 2 ∧
    ¬ ∃ t, KeptAt aPipeline.source newLog [⟨false, 1, [97], 0⟩, ⟨false, 3, [97, 10, 98], 4 * second⟩] t 2 ∧
      partialFlush < 6 * second - t := by
  refine ⟨_, rfl, rfl, rfl, ?_⟩
  rintro ⟨t, ⟨pre, look, post, s, hlooks, rfl, hrun, hlo, hhi⟩, hlate⟩
  match pre, hlooks with
  | [], hlooks =>
    -- the first round keeps `a` only
    obtain ⟨rfl, -⟩ := cons.inj hlooks
    cases hrun
    exact absurd hhi (by decide)
  | [_], hlooks =>
    obtain ⟨-, hlooks⟩ := cons.inj hlooks
    obtain ⟨rfl, -⟩ := cons.inj hlooks
    exact absurd hlate (by decide)
  | _ :: _ :: _, hlooks => simp at hlooks

end YominsAgent.Logs
