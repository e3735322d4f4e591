import YominsAgent.Logs.Framing

/- The rounds that drain a file which is gone.

   Such a file is read a chunk a round until a round reads less than a chunk, and every
   round hands on what follows its last newline as well. So the chunks are taken apart
   one by one (`drainParts`): a line that goes on in the next chunk is cut in two, and its
   message survives only where the cut does not show (`Harmless`). -/
namespace YominsAgent.Logs
open Go Lib List

variable {φ ε : Type} {a b : Bytes} {lines : List Bytes}

/-! ## Blank pieces -/

theorem all_isSpace_append (ha : (toText a).all isSpace = true) (hb : (toText b).all isSpace = true) :
    (toText (a ++ b)).all isSpace = true := by
  have hfree : Char.ofNat 0xFFFD ∉ toText a := by
    intro hm
    have hspace := all_eq_true.mp ha _ hm
    revert hspace
    decide
  rw [toText_append hfree, all_append, ha, hb]
  rfl

theorem all_isSpace_replicate (n : Nat) :
    (toText (List.replicate n 13)).all isSpace = true := by
  induction n with
  | zero => rfl
  | succ n ih =>
    rw [replicate_succ, ← singleton_append]
    exact all_isSpace_append (by decide) ih

theorem trimCR_append_replicate (line : Bytes) :
    ∃ n, line = trimCR line ++ List.replicate n 13 := by
  induction line using reverseRecOn with
  | nil => exact ⟨0, rfl⟩
  | append_singleton line b ih =>
    by_cases hb : b = 13
    · obtain ⟨n, hn⟩ := ih
      refine ⟨n + 1, ?_⟩
      rw [hb, trimCR, rdropWhile_concat_pos _ _ _ (by decide), replicate_succ', ← append_assoc]
      exact congrArg (· ++ [13]) hn
    · refine ⟨0, ?_⟩
      rw [trimCR, rdropWhile_concat_neg _ _ _ (by simpa using hb)]
      simp

theorem all_isSpace_of_isBlank {line : Bytes} (h : isBlank line = true) :
    (toText line).all isSpace = true := by
  obtain ⟨n, hn⟩ := trimCR_append_replicate line
  rw [hn]
  exact all_isSpace_append h (all_isSpace_replicate n)

/-- What is cut off a line is its end, or all of it is carriage returns. -/
theorem trimCR_append (a b : Bytes) :
    trimCR (a ++ b) = if b.all (· == 13) then trimCR a else a ++ trimCR b := by
  unfold trimCR
  induction b using reverseRecOn with
  | nil => simp
  | append_singleton b x ih =>
    rw [← append_assoc]
    by_cases hx : x = 13
    · rw [rdropWhile_concat_pos _ _ _ (by simpa using hx), ih,
        rdropWhile_concat_pos _ _ _ (by simpa using hx)]
      simp [hx]
    · rw [rdropWhile_concat_neg _ _ _ (by simpa using hx),
        rdropWhile_concat_neg _ _ _ (by simpa using hx)]
      simp [hx]

theorem isBlank_of_all_cr {line : Bytes} (h : line.all (· == 13) = true) : isBlank line = true := by
  have htrim := trimCR_append [] line
  rw [h, nil_append] at htrim
  rw [isBlank, htrim]
  rfl

theorem isBlank_append (ha : isBlank a = true) (hb : isBlank b = true) :
    isBlank (a ++ b) = true := by
  rw [isBlank, trimCR_append]
  split
  · exact ha
  · exact all_isSpace_append (all_isSpace_of_isBlank ha) hb

/-! ## What the rounds make of the content -/

/-- The messages of lines: blank ones have none. -/
def messages (lines : List Bytes) : List Bytes :=
  (lines.filter fun line => !isBlank line).map trimCR

@[simp] theorem messages_nil : messages [] = [] := rfl

@[simp] theorem messages_append (a b : List Bytes) :
    messages (a ++ b) = messages a ++ messages b := by
  simp [messages]

theorem messages_cons (line : Bytes) (lines : List Bytes) :
    messages (line :: lines) = messages [line] ++ messages lines :=
  messages_append [line] lines

theorem messages_of_blank {line : Bytes} (h : isBlank line = true) : messages [line] = [] := by
  simp [messages, h]

theorem messages_of_not_blank {line : Bytes} (h : isBlank line = false) :
    messages [line] = [trimCR line] := by
  simp [messages, h]

/-- What a round hands on of the bytes in memory: the lines, and what follows them. -/
def parts (data : Bytes) : List Bytes :=
  (splitLines data).1 ++ if (splitLines data).2 = [] then [] else [(splitLines data).2]

/-- What `k + 1` rounds hand on of the part that was kept and the bytes not yet read. -/
def drainParts : Nat → Bytes → Bytes → List Bytes
  | 0, part, unread => parts (part ++ unread)
  | k + 1, part, unread =>
    parts (part ++ unread.take readChunk) ++ drainParts k [] (unread.drop readChunk)

/-- The part before the offset `i` of the line in which it falls. -/
def lineBefore (data : Bytes) (i : Nat) : Bytes := (splitLines (data.take i)).2

/-- The part of that line behind the offset, without the newline. -/
def lineAfter (data : Bytes) (i : Nat) : Bytes := (data.drop i).takeWhile (· != 10)

/-- A cut at the offset `i` does not show in the messages: it falls between two lines, or
before nothing but carriage returns, or between two blank parts. -/
def Harmless (data : Bytes) (i : Nat) : Prop :=
  lineBefore data i = [] ∨ (lineAfter data i).all (· == 13) = true ∨
    isBlank (lineBefore data i) = true ∧ isBlank (lineAfter data i) = true

/-- No border of the chunks shows. -/
def CleanCuts (part unread : Bytes) : Prop :=
  ∀ k, 0 < k → k * readChunk < unread.length →
    Harmless (part ++ unread) (part.length + k * readChunk)

/-- All lines are complete and shorter than `MaxLineBytes`. -/
structure Whole (data : Bytes) : Prop where
  complete : (splitLines data).2 = []
  short : ∀ line ∈ (splitLines data).1, line.length < maxLineBytes

/-- A line and its two parts give the same messages in front of `rest` and `rest'` exactly
if the cut between them is harmless and the rests agree, as long as the rest behind the
parts is not the shorter one. -/
theorem messages_cut_iff {l r : Bytes} (hl : l ≠ []) {rest rest' : List Bytes}
    (hlen : rest.length ≤ rest'.length) :
    messages [l] ++ (messages [r] ++ rest') = messages [l ++ r] ++ rest ↔
      (r.all (· == 13) = true ∨ isBlank l = true ∧ isBlank r = true) ∧ rest' = rest := by
  have hcr : r.all (· == 13) = true → isBlank r = true := isBlank_of_all_cr
  have htrim := trimCR_append l r
  cases hbl : isBlank l with
  | true =>
    cases hbr : isBlank r with
    | true =>
      simp [messages_of_blank hbl, messages_of_blank hbr,
        messages_of_blank (isBlank_append hbl hbr)]
    | false =>
      have hno : r.all (· == 13) = false := by
        rw [← Bool.not_eq_true]
        intro h
        rw [hcr h] at hbr
        cases hbr
      rw [hno, if_neg (by simp)] at htrim
      rw [messages_of_blank hbl, messages_of_not_blank hbr]
      constructor
      · intro h
        exfalso
        cases hblr : isBlank (l ++ r) with
        | true =>
          rw [messages_of_blank hblr] at h
          have := congrArg length h
          simp at this
          omega
        | false =>
          -- the message lacks the first part
          rw [messages_of_not_blank hblr, htrim] at h
          have hhead : trimCR r = l ++ trimCR r := by simpa using (cons.inj h).1
          have := congrArg length hhead
          rw [length_append] at this
          exact hl (length_eq_zero_iff.mp (by omega))
      · simp [hno]
  | false =>
    rw [messages_of_not_blank hbl]
    cases hall : r.all (· == 13) with
    | true =>
      rw [hall, if_pos rfl] at htrim
      have hblr : isBlank (l ++ r) = false := by rw [isBlank, htrim]; exact hbl
      rw [messages_of_blank (hcr hall), messages_of_not_blank hblr, htrim]
      simp
    | false =>
      rw [hall, if_neg (by simp)] at htrim
      constructor
      · intro h
        exfalso
        have hcount := congrArg length h
        cases hbr : isBlank r with
        | false =>
          rw [messages_of_not_blank hbr] at hcount
          have : (messages [l ++ r]).length ≤ 1 := by
            cases hblr : isBlank (l ++ r) with
            | true => simp [messages_of_blank hblr]
            | false => simp [messages_of_not_blank hblr]
          simp at hcount
          omega
        | true =>
          rw [messages_of_blank hbr] at h hcount
          cases hblr : isBlank (l ++ r) with
          | true =>
            rw [messages_of_blank hblr] at hcount
            simp at hcount
            omega
          | false =>
            -- the message lacks the second part
            rw [messages_of_not_blank hblr, htrim] at h
            have hhead : trimCR l = l ++ trimCR r := by simpa using (cons.inj h).1
            have := congrArg length hhead
            rw [length_append] at this
            have := length_trimCR_le l
            have hnil : trimCR r = [] := length_eq_zero_iff.mp (by omega)
            obtain ⟨n, hn⟩ := trimCR_append_replicate r
            rw [hn, hnil] at hall
            simp at hall
      · simp

theorem length_messages_append_le (l r : Bytes) :
    (messages [l ++ r]).length ≤ (messages [l]).length + (messages [r]).length := by
  by_cases hb : isBlank l = true ∧ isBlank r = true
  · simp [messages_of_blank (isBlank_append hb.1 hb.2)]
  · have hone : (messages [l ++ r]).length ≤ 1 := by
      cases h : isBlank (l ++ r) with
      | true => simp [messages_of_blank h]
      | false => simp [messages_of_not_blank h]
    have hsum : 1 ≤ (messages [l]).length + (messages [r]).length := by
      cases hl : isBlank l with
      | false => simp [messages_of_not_blank hl]
      | true =>
        cases hr : isBlank r with
        | false => simp [messages_of_not_blank hr]
        | true => exact absurd ⟨hl, hr⟩ hb
    omega

/-! ## Borders -/

section Borders
variable {l r y z part unread : Bytes}

theorem splitLines_rest_of_newline (h : 10 ∈ z) : (splitLines (l ++ z)).2 = (splitLines z).2 := by
  obtain ⟨u, v, rfl, hu⟩ := eq_append_cons_of_mem h
  have hl : 10 ∉ (splitLines l).2 ++ u := by
    simp [(newline_notMem_splitLines l).2, hu]
  rw [splitLines_append, ← append_assoc, splitLines_line hl, splitLines_line hu]

theorem Whole.first (h : Whole y) (hne : y ≠ []) :
    ∃ r z, y = r ++ 10 :: z ∧ 10 ∉ r ∧ r.length < maxLineBytes := by
  have hmem : 10 ∈ y := by
    by_contra hno
    have := h.complete
    rw [splitLines_of_notMem hno] at this
    exact hne this
  obtain ⟨r, z, rfl, hr⟩ := eq_append_cons_of_mem hmem
  refine ⟨r, z, rfl, hr, h.short r ?_⟩
  rw [splitLines_line hr]
  exact mem_cons_self

theorem Whole.newline_mem_take (h : Whole y) {i : Nat} (hi : maxLineBytes ≤ i) (hy : i < y.length) :
    10 ∈ y.take i := by
  obtain ⟨r, z, rfl, hr, hlen⟩ := h.first (ne_nil_of_length_pos (by omega))
  rw [take_append, mem_append]
  refine .inr ?_
  rw [show i - r.length = i - r.length - 1 + 1 by omega, take_succ_cons]
  exact mem_cons_self

/-- What follows a complete line, or the part of a line, is whole. -/
theorem Whole.right (h : Whole (l ++ y)) : Whole y := by
  obtain ⟨hcomplete, hshort⟩ := h
  rw [splitLines_append] at hcomplete hshort
  have hfree := (newline_notMem_splitLines l).2
  by_cases hy : 10 ∈ y
  · obtain ⟨u, v, rfl, hu⟩ := eq_append_cons_of_mem hy
    have hlu : 10 ∉ (splitLines l).2 ++ u := by simp [hfree, hu]
    rw [← append_assoc, splitLines_line hlu] at hcomplete hshort
    refine ⟨by rw [splitLines_line hu]; exact hcomplete, fun line hline => ?_⟩
    rw [splitLines_line hu] at hline
    rcases mem_cons.mp hline with rfl | hline
    · have := hshort ((splitLines l).2 ++ line) (by simp)
      rw [length_append] at this
      omega
    · exact hshort line (by simp [hline])
  · have hly : 10 ∉ (splitLines l).2 ++ y := by simp [hfree, hy]
    rw [splitLines_of_notMem hly] at hcomplete
    cases (append_eq_nil_iff.mp hcomplete).2
    exact ⟨rfl, by simp [splitLines]⟩

theorem lineBefore_border : lineBefore (part ++ unread) (part.length + readChunk) =
    (splitLines (part ++ unread.take readChunk)).2 := by
  rw [lineBefore, take_append, take_of_length_le (by omega), Nat.add_sub_cancel_left]

theorem lineAfter_border : lineAfter (part ++ unread) (part.length + readChunk) =
    (unread.drop readChunk).takeWhile (· != 10) := by
  rw [lineAfter, drop_append, drop_of_length_le (by omega), Nat.add_sub_cancel_left, nil_append]

/-- The borders of the later chunks fall into what the first chunk leaves. -/
theorem harmless_later (h : Whole (unread.drop readChunk)) {j : Nat} (hj : 0 < j)
    (hlt : j * readChunk < (unread.drop readChunk).length) :
    Harmless (part ++ unread) (part.length + (j + 1) * readChunk) ↔
      Harmless (unread.drop readChunk) (j * readChunk) := by
  have hmul : (j + 1) * readChunk = readChunk + j * readChunk := by
    rw [Nat.succ_mul, Nat.add_comm]
  have hafter : lineAfter (part ++ unread) (part.length + (j + 1) * readChunk) =
      lineAfter (unread.drop readChunk) (j * readChunk) := by
    rw [lineAfter, drop_append, drop_of_length_le (by omega), Nat.add_sub_cancel_left,
      nil_append, lineAfter, drop_drop, hmul]
  have hbefore : lineBefore (part ++ unread) (part.length + (j + 1) * readChunk) =
      lineBefore (unread.drop readChunk) (j * readChunk) := by
    have hchunk : maxLineBytes ≤ j * readChunk :=
      (show maxLineBytes ≤ readChunk by decide).trans (Nat.le_mul_of_pos_left _ hj)
    rw [lineBefore, take_append, take_of_length_le (by omega), Nat.add_sub_cancel_left,
      hmul, take_add, ← append_assoc,
      splitLines_rest_of_newline (h.newline_mem_take hchunk hlt), lineBefore]
  rw [Harmless, hafter, hbefore, Harmless]

theorem cleanCuts_iff (h : Whole (unread.drop readChunk)) :
    CleanCuts part unread ↔
      (readChunk < unread.length → Harmless (part ++ unread) (part.length + readChunk)) ∧
        CleanCuts [] (unread.drop readChunk) := by
  constructor
  · intro hc
    refine ⟨fun hlt => ?_, fun j hj hlt => ?_⟩
    · have := hc 1 Nat.one_pos (by omega)
      rwa [Nat.one_mul] at this
    · rw [nil_append, length_nil, Nat.zero_add]
      refine (harmless_later h hj hlt).mp (hc (j + 1) (Nat.succ_pos j) ?_)
      rw [length_drop] at hlt
      rw [Nat.succ_mul]
      omega
  · rintro ⟨hfirst, hlater⟩ k hk hlt
    obtain ⟨j, rfl⟩ := Nat.exists_eq_succ_of_ne_zero (Nat.pos_iff_ne_zero.mp hk)
    rw [Nat.succ_eq_add_one] at hlt ⊢
    cases j with
    | zero =>
      rw [Nat.zero_add, Nat.one_mul] at hlt ⊢
      exact hfirst hlt
    | succ j =>
      have hlt' : (j + 1) * readChunk < (unread.drop readChunk).length := by
        rw [length_drop]
        rw [Nat.succ_mul] at hlt
        omega
      have := hlater (j + 1) (Nat.succ_pos j) hlt'
      rw [nil_append, length_nil, Nat.zero_add] at this
      exact (harmless_later h (Nat.succ_pos j) hlt').mpr this

/-- A line that ends in the first chunk is handed on first. -/
theorem drainParts_line (hr : 10 ∉ r) (hlen : r.length < readChunk) (k : Nat) :
    ∃ later, drainParts k [] (r ++ 10 :: z) = r :: later := by
  cases k with
  | zero => exact ⟨_, by rw [drainParts, nil_append, parts, splitLines_line hr]; rfl⟩
  | succ =>
    have htake : (r ++ 10 :: z).take readChunk = r ++ 10 :: z.take (readChunk - r.length - 1) := by
      rw [take_append, take_of_length_le (Nat.le_of_lt hlen),
        show readChunk - r.length = readChunk - r.length - 1 + 1 by omega, take_succ_cons]
      rfl
    exact ⟨_, by rw [drainParts, nil_append, htake, parts, splitLines_line hr]; rfl⟩

/-- The rounds give at least as many messages as there are lines with one, and the
messages of the lines exactly if no border shows. -/
theorem drainParts_iff (k : Nat) (hk : unread.length / readChunk = k)
    (h : Whole (part ++ unread)) :
    (messages (splitLines (part ++ unread)).1).length ≤
        (messages (drainParts k part unread)).length ∧
      (messages (drainParts k part unread) = messages (splitLines (part ++ unread)).1 ↔
        CleanCuts part unread) := by
  -- the induction is over the chunks; the first is the only one with a kept part before it
  induction k generalizing part unread with
  | zero =>
    have hparts : drainParts 0 part unread = (splitLines (part ++ unread)).1 := by
      rw [drainParts, parts, if_pos h.complete, append_nil]
    have hlt : unread.length < readChunk := by
      rcases Nat.div_eq_zero_iff.mp hk with hz | hlt
      · exact absurd hz (by decide)
      · exact hlt
    rw [hparts]
    refine ⟨Nat.le_refl _, fun _ j hj hjlt => ?_, fun _ => rfl⟩
    have := Nat.le_mul_of_pos_left readChunk hj
    omega
  | succ k ih =>
    have hle : readChunk ≤ unread.length := by
      by_contra hlt
      rw [Nat.div_eq_of_lt (by omega)] at hk
      cases hk
    have hkdrop : (unread.drop readChunk).length / readChunk = k := by
      have := Nat.div_eq_sub_div (show 0 < readChunk by decide) hle
      rw [length_drop]
      omega
    have hjoin : part ++ unread =
        (part ++ unread.take readChunk) ++ unread.drop readChunk := by
      rw [append_assoc, take_append_drop]
    have hdrop : Whole (unread.drop readChunk) := (hjoin ▸ h).right
    obtain ⟨hcount, hiff⟩ := ih hkdrop (show Whole ([] ++ unread.drop readChunk) from hdrop)
    rw [nil_append] at hcount hiff
    rw [cleanCuts_iff hdrop, ← hiff, Harmless, lineBefore_border, lineAfter_border, hjoin,
      splitLines_append, drainParts, parts]
    obtain ⟨lines, l, hsplit⟩ : ∃ lines l,
        splitLines (part ++ unread.take readChunk) = (lines, l) := ⟨_, _, rfl⟩
    simp only [hsplit, messages_append, append_assoc, append_cancel_left_eq,
      length_append, Nat.add_le_add_iff_left]
    generalize hy : unread.drop readChunk = y at *
    by_cases hl : l = []
    · simp [hl, hcount]
    · -- the line goes on in the next chunk, where it ends
      have hwhole : Whole (l ++ y) := by
        rw [hjoin] at h
        obtain ⟨hcomplete, hshort⟩ := h
        rw [splitLines_append, hsplit] at hcomplete hshort
        exact ⟨hcomplete, fun line hline => hshort line (mem_append_right _ hline)⟩
      have hfree : 10 ∉ l := by
        have := (newline_notMem_splitLines (part ++ unread.take readChunk)).2
        rwa [hsplit] at this
      have hmem : 10 ∈ y := by
        by_contra hno
        have hcomplete := hwhole.complete
        rw [splitLines_of_notMem (by simp [hfree, hno])] at hcomplete
        exact hl (append_eq_nil_iff.mp hcomplete).1
      obtain ⟨r, z, rfl, hr⟩ := eq_append_cons_of_mem hmem
      have hline := splitLines_line hr z
      have hlen : r.length < readChunk := by
        have := hdrop.short r (by rw [hline]; exact mem_cons_self)
        have : maxLineBytes ≤ readChunk := by decide
        omega
      obtain ⟨later, hlater⟩ := drainParts_line (z := z) hr hlen k
      have hafter : (r ++ 10 :: z).takeWhile (· != 10) = r := by
        rw [takeWhile_append_of_pos]
        · simp
        · intro b hb
          simpa using fun he : b = 10 => hr (he ▸ hb)
      have hlr : 10 ∉ l ++ r := by simp [hfree, hr]
      have hboth := messages_cons r later
      have hlines := messages_cons r (splitLines z).1
      rw [hline, hlater, hboth, hlines, length_append, length_append] at hcount
      have hcut : messages [l] ++ (messages [r] ++ messages later) =
          messages [l ++ r] ++ messages (splitLines z).1 ↔ _ := messages_cut_iff hl (by omega)
      have hlt : readChunk < unread.length := by
        have := congrArg length hy
        rw [length_drop, length_append, length_cons] at this
        omega
      rw [hlater, hline, hafter, ← append_assoc l, splitLines_line hlr, if_neg hl, hboth,
        messages_cons (l ++ r), hcut, hlines, append_cancel_left_eq]
      refine ⟨?_, ?_⟩
      · have := length_messages_append_le l r
        simp only [length_append]
        omega
      · simp [hl, hlt]

end Borders

/-! ## The rounds -/

/-- The source whose entries are the messages handed to the parser. -/
def SourceConfig.raw (cfg : SourceConfig φ ε) : SourceConfig φ Bytes :=
  { cfg with parse := fun _ _ message => message }

def bodies (out : List (Effect Bytes)) : List Bytes := (sends out).map (·.body)

@[simp] theorem bodies_append (a b : List (Effect Bytes)) :
    bodies (a ++ b) = bodies a ++ bodies b := by
  simp [bodies]

/-- What a round meets that finds the file gone. -/
def goneLook (file : Bytes) (now : Int) : Look := ⟨true, file.length, file, now⟩

/-- A file that is gone and holds nothing but complete lines, up to the end of `file`. -/
structure Draining (file : Bytes) (s : Tailing Bytes) : Prop where
  opened : s.closed = false
  gone : s.file.tf.gone = true
  pos : s.file.pos = s.file.tf.offset + s.file.tf.part.length
  le : s.file.pos ≤ file.length
  whole : Whole (s.file.tf.part ++ file.drop s.file.pos)

section Rounds
variable {cfg : SourceConfig φ ε} {file : Bytes} {s : Tailing Bytes}

theorem bodies_emission {line : Bytes} (h : line.length < maxLineBytes) (tf : TailedFile)
    (lo n : Nat) : bodies [emission cfg.raw tf lo line n] = messages [line] := by
  have hcut : cutLine (trimCR line) = trimCR line :=
    cutLine_short (by have := length_trimCR_le line; omega)
  rw [bodies, sends_emission, hcut]
  cases hb : isBlank line with
  | true => simp [messages_of_blank hb]
  | false => simp [messages_of_not_blank hb, SourceConfig.raw]

theorem bodies_lines (h : ∀ line ∈ lines, line.length < maxLineBytes) (tf : TailedFile) (o : Nat) :
    bodies ((linesAt o lines).map fun x => emission cfg.raw tf x.1 x.2 (x.2.length + 1)) =
      messages lines := by
  induction lines generalizing o with
  | nil => rfl
  | cons line lines ih =>
    have htail := ih (fun l hl => h l (mem_cons_of_mem line hl)) (o + (line.length + 1))
    rw [linesAt, map_cons, ← singleton_append, bodies_append, htail,
      bodies_emission (h line mem_cons_self), ← messages_cons]

theorem gone_round (cfg : SourceConfig φ ε) (h : Draining file s) (now : Int) :
    ∃ s', round cfg.raw s (goneLook file now) = some s' ∧
      s'.file.tf.gone = true ∧ s'.file.tf.part = [] ∧
      s'.file.pos = s'.file.tf.offset + s'.file.tf.part.length ∧
      s'.file.pos = nextPos file s.file.pos ∧
      bodies s'.out =
        bodies s.out ++ messages (parts (s.file.tf.part ++ (file.drop s.file.pos).take readChunk)) ∧
      s'.closed = decide ((file.drop s.file.pos).length < readChunk) := by
  have hmark : s.file.mark true = s.file := OpenFile.mark_eq fun _ => h.gone
  obtain ⟨lines, rest, hsplit⟩ : ∃ lines rest,
      splitLines (s.file.tf.part ++ (file.drop s.file.pos).take readChunk) = (lines, rest) :=
    ⟨_, _, rfl⟩
  obtain ⟨hlines, hrest⟩ : Short (s.file.tf.part ++ (file.drop s.file.pos).take readChunk) := by
    refine Short.left (b := (file.drop s.file.pos).drop readChunk) ?_
    rw [append_assoc, take_append_drop]
    exact ⟨h.whole.short, by rw [h.whole.complete]; decide⟩
  rw [hsplit] at hlines hrest
  have hread := read_eq cfg.raw (show _ ≤ (goneLook file now).size from h.pos ▸ h.le) hsplit
  let tf : TailedFile :=
    { s.file.tf with part := [], offset := s.file.tf.offset + (joinLines lines).length }
  -- nothing is kept: the rest is empty or handed on
  obtain ⟨tf', last, hswitch, hpart, hgone, hlast⟩ : ∃ tf' last,
      readRest cfg.raw now tf rest = (tf', last) ∧ tf'.part = [] ∧ tf'.gone = true ∧
        bodies [last] = messages (if rest = [] then [] else [rest]) := by
    rcases readRest_eq cfg.raw now tf rest rfl with
      ⟨partAt, hs, hlong | ⟨hne, -⟩⟩ | ⟨partAt, hs, -, hnil | hflush⟩
    · exact absurd hrest (Nat.not_lt.mpr hlong)
    · exact ⟨_, _, hs, rfl, h.gone, by rw [if_neg hne]; exact bodies_emission hrest tf _ _⟩
    · exact ⟨_, _, hs, hnil, h.gone, by rw [if_pos hnil]; rfl⟩
    · rw [show tf.gone = true from h.gone] at hflush
      cases hflush
  have hround : round cfg.raw s (goneLook file now) =
      some ⟨⟨tf', s.file.pos + ((file.drop s.file.pos).take readChunk).length⟩,
        s.out ++ ((linesAt s.file.tf.offset lines).map
          (fun x => emission cfg.raw s.file.tf x.1 x.2 (x.2.length + 1)) ++ [last]),
        drained tf' ((file.drop s.file.pos).take readChunk).length⟩ := by
    simp only [round, h.opened, show (goneLook file now).gone = true from rfl, hmark,
      Bool.false_eq_true, if_false]
    rw [hread, show (goneLook file now).now = now from rfl, hswitch]
    rfl
  have hpos := read_pos cfg.raw (goneLook file now) h.pos
  rw [hread, show (goneLook file now).now = now from rfl, hswitch] at hpos
  refine ⟨_, hround, hgone, hpart, hpos, ?_, ?_, ?_⟩
  · have hle := h.le
    simp only [length_take, length_drop, nextPos]
    omega
  · rw [bodies_append, bodies_append, bodies_lines hlines, hlast, parts, hsplit, messages_append]
  · rw [Bool.eq_iff_iff]
    simp [drained, hgone, hpart]

theorem drain_run (cfg : SourceConfig φ ε) {k : Nat} {times : List Int} (h : Draining file s)
    (hk : (file.drop s.file.pos).length / readChunk = k) (htimes : times.length = k + 1) :
    ∃ s', run (round cfg.raw) s (times.map (goneLook file)) = some s' ∧ s'.closed = true ∧
      bodies s'.out =
        bodies s.out ++ messages (drainParts k s.file.tf.part (file.drop s.file.pos)) := by
  induction k generalizing s times with
  | zero =>
    obtain ⟨now, rfl⟩ := length_eq_one_iff.mp htimes
    obtain ⟨s', hs, -, -, -, -, hbodies, hclosed⟩ := gone_round cfg h now
    have hlt : (file.drop s.file.pos).length < readChunk := by
      rcases Nat.div_eq_zero_iff.mp hk with hz | hlt
      · exact absurd hz (by decide)
      · exact hlt
    refine ⟨s', by simp [run, hs], by rw [hclosed]; exact decide_eq_true hlt, ?_⟩
    rw [hbodies, take_of_length_le (Nat.le_of_lt hlt), drainParts]
  | succ k ih =>
    obtain ⟨now, times, rfl⟩ := exists_cons_of_length_eq_add_one htimes
    obtain ⟨s1, hs, hgone, hpart, hpos, hnext, hbodies, hclosed⟩ := gone_round cfg h now
    have hle : readChunk ≤ (file.drop s.file.pos).length := by
      by_contra hlt
      rw [Nat.div_eq_of_lt (by omega)] at hk
      cases hk
    have hat : s1.file.pos = s.file.pos + readChunk := by
      rw [length_drop] at hle
      rw [hnext, nextPos]
      have := h.le
      omega
    have hdrop : file.drop s1.file.pos = (file.drop s.file.pos).drop readChunk := by
      rw [drop_drop, hat]
    have hdraining : Draining file s1 := by
      refine ⟨?_, hgone, hpos, hnext ▸ Nat.min_le_left _ _, ?_⟩
      · rw [hclosed]
        exact decide_eq_false (by omega)
      · have hwhole := h.whole
        rw [← take_append_drop readChunk (file.drop s.file.pos), ← append_assoc] at hwhole
        rw [hpart, hdrop]
        exact hwhole.right
    have hk1 : (file.drop s1.file.pos).length / readChunk = k := by
      have := Nat.div_eq_sub_div (show 0 < readChunk by decide) hle
      rw [hdrop, length_drop]
      omega
    obtain ⟨s', hrun, hshut, hsent⟩ := ih hdraining hk1 (by simpa using htimes)
    refine ⟨s', run_cons.mpr ⟨s1, hs, hrun⟩, hshut, ?_⟩
    rw [hsent, hbodies, hpart, hdrop, drainParts, messages_append, append_assoc]

end Rounds

/-- The rounds that drain a gone file, of which only complete lines are left to read, hand
on every line with a message once, whole and in order, exactly if no border of the chunks
falls inside a line where it shows. The file is closed after the last of them. -/
theorem drained_whole_iff (cfg : SourceConfig φ ε) (f : OpenFile) (file : Bytes)
    (hgone : f.tf.gone = true) (hpos : f.pos = f.tf.offset + f.tf.part.length)
    (hle : f.pos ≤ file.length) (hwhole : Whole (f.tf.part ++ file.drop f.pos))
    (times : List Int) (htimes : times.length = (file.drop f.pos).length / readChunk + 1) :
    ∃ s, run (round cfg.raw) ⟨f, [], false⟩ (times.map (goneLook file)) = some s ∧
      s.closed = true ∧
      (bodies s.out = messages (splitLines (f.tf.part ++ file.drop f.pos)).1 ↔
        CleanCuts f.tf.part (file.drop f.pos)) := by
  have hdraining : Draining file ⟨f, [], false⟩ := ⟨rfl, hgone, hpos, hle, hwhole⟩
  obtain ⟨s, hrun, hclosed, hsent⟩ := drain_run cfg hdraining rfl htimes
  refine ⟨s, hrun, hclosed, ?_⟩
  rw [hsent]
  exact (drainParts_iff _ rfl hwhole).2

/-- A log file that is gone; nothing of it has been read. -/
def goneLog : OpenFile := { newLog with tf := { newLog.tf with gone := true } }

/-- Two lines are drained whole in one round. -/
theorem two_lines_drained : ∃ s,
    run (round aPipeline.source.raw) ⟨goneLog, [], false⟩ ([0].map (goneLook [97, 10, 98, 10])) = some s ∧
      s.closed = true ∧ bodies s.out = [[97], [98]] := by
  have hwhole : Whole (goneLog.tf.part ++ [97, 10, 98, 10].drop goneLog.pos) :=
    ⟨by decide, by decide⟩
  obtain ⟨s, hs, hclosed, hiff⟩ := drained_whole_iff aPipeline.source goneLog [97, 10, 98, 10] rfl rfl
    (by decide) hwhole [0] (by decide)
  refine ⟨s, hs, hclosed, hiff.mpr fun k hk hlt => ?_⟩
  have hchunk := Nat.le_mul_of_pos_left readChunk hk
  have hlen : (([97, 10, 98, 10] : Bytes).drop goneLog.pos).length < readChunk := by decide
  exact absurd hlt (by omega)

theorem whole_joinLines (h : ∀ line ∈ lines, 10 ∉ line ∧ line.length < maxLineBytes) :
    Whole (joinLines lines) := by
  have hsplit := splitLines_joinLines fun line hline => (h line hline).1
  exact ⟨by rw [hsplit], fun line hline => (h line (by rwa [hsplit] at hline)).2⟩

theorem length_joinLines_replicate (n : Nat) (line : Bytes) :
    (joinLines (List.replicate n line)).length = n * (line.length + 1) := by
  induction n with
  | zero => simp
  | succ n ih =>
    rw [replicate_succ, joinLines_cons, length_append, length_cons, ih, Nat.succ_mul]
    omega

/-- Behind whole lines of one byte less than a chunk, the chunk ends one byte into the next
line, and the parts of that line are handed on as two messages. -/
theorem line_cut_at_border {prior : Bytes} (hlen : prior.length = 262143)
    (hwhole : Whole (prior ++ [49, 50, 51, 52, 53, 54, 10]))
    (hrest : (splitLines prior).2 = []) :
    ∃ s, run (round aPipeline.source.raw) ⟨goneLog, [], false⟩
        ([0, 1].map (goneLook (prior ++ [49, 50, 51, 52, 53, 54, 10]))) = some s ∧
      s.closed = true ∧
      bodies s.out ≠ messages (splitLines (prior ++ [49, 50, 51, 52, 53, 54, 10])).1 := by
  have hdraining : Draining (prior ++ [49, 50, 51, 52, 53, 54, 10]) ⟨goneLog, [], false⟩ :=
    ⟨rfl, rfl, rfl, Nat.zero_le _, hwhole⟩
  have hall : (prior ++ [49, 50, 51, 52, 53, 54, 10]).length = 262150 := by
    rw [length_append, hlen]
    rfl
  have hk : (prior ++ [49, 50, 51, 52, 53, 54, 10]).length / readChunk = 1 := by
    rw [hall]
    decide
  obtain ⟨s, hs, hclosed, hsent⟩ := drain_run aPipeline.source hdraining hk (show [0, 1].length = 2 from rfl)
  refine ⟨s, hs, hclosed, fun hsame => ?_⟩
  have hiff := (drainParts_iff 1 hk (show Whole ([] ++ _) from hwhole)).2
  rw [nil_append, ← hsame, hsent] at hiff
  have hcuts := hiff.mp rfl 1 Nat.one_pos (by rw [hall]; decide)
  rw [nil_append, Nat.one_mul, length_nil, Nat.zero_add] at hcuts
  have hchunk : readChunk = 262144 := rfl
  have hbefore : lineBefore (prior ++ [49, 50, 51, 52, 53, 54, 10]) readChunk = [49] := by
    rw [lineBefore, take_append, take_of_length_le (by omega), hlen,
      splitLines_append, hrest]
    rfl
  have hafter : lineAfter (prior ++ [49, 50, 51, 52, 53, 54, 10]) readChunk =
      [50, 51, 52, 53, 54] := by
    rw [lineAfter, drop_append, drop_of_length_le (by omega), hlen]
    rfl
  rw [Harmless, hbefore, hafter] at hcuts
  revert hcuts
  decide

/-- 37449 lines `123456`. -/
def priorLines : Bytes := joinLines (List.replicate 37449 [49, 50, 51, 52, 53, 54])

theorem length_priorLines : priorLines.length = 262143 := by
  rw [priorLines, length_joinLines_replicate]
  decide

theorem splitLines_priorLines :
    splitLines priorLines = (List.replicate 37449 [49, 50, 51, 52, 53, 54], []) := by
  refine splitLines_joinLines fun line hline => ?_
  rw [eq_of_mem_replicate hline]
  decide

theorem gone_line_cut : ∃ s,
    run (round aPipeline.source.raw) ⟨goneLog, [], false⟩
        ([0, 1].map (goneLook (priorLines ++ [49, 50, 51, 52, 53, 54, 10]))) = some s ∧
      s.closed = true ∧ Whole (priorLines ++ [49, 50, 51, 52, 53, 54, 10]) ∧
      bodies s.out ≠ messages (splitLines (priorLines ++ [49, 50, 51, 52, 53, 54, 10])).1 := by
  have hwhole : Whole (priorLines ++ [49, 50, 51, 52, 53, 54, 10]) := by
    have h : Whole (joinLines (replicate 37449 [49, 50, 51, 52, 53, 54] ++
        [[49, 50, 51, 52, 53, 54]])) := by
      refine whole_joinLines fun line hline => ?_
      have hsix : line = [49, 50, 51, 52, 53, 54] := by
        exact (mem_snoc.mp hline).elim eq_of_mem_replicate id
      rw [hsix]
      decide
    rwa [joinLines_append] at h
  obtain ⟨s, hs, hclosed, hne⟩ :=
    line_cut_at_border length_priorLines hwhole (by rw [splitLines_priorLines])
  exact ⟨s, hs, hclosed, hwhole, hne⟩

end YominsAgent.Logs
