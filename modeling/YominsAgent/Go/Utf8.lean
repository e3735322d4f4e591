import YominsAgent.Go.Strings

/- UTF-8 as Go reads and writes it: an invalid byte decodes to U+FFFD and is one byte long. -/
namespace YominsAgent.Go

open List

abbrev Bytes := List UInt8

/-- A continuation byte within the bounds for its place. -/
def isCont (lo hi : Nat) (b : UInt8) : Bool := lo ≤ b.toNat && b.toNat ≤ hi

/-- The six bits of a continuation byte. -/
def contBits (b : UInt8) : Nat := b.toNat % 64

/-- `utf8.DecodeRune`: the first character and how many bytes it takes. -/
def decodeRune : Bytes → Option (Char × Nat)
  | [] => none
  | a :: rest =>
    let n := a.toNat
    let bad := some (Char.ofNat 0xFFFD, 1)
    if n < 0x80 then some (Char.ofNat n, 1)
    else if 0xC2 ≤ n ∧ n ≤ 0xDF then
      match rest with
      | b :: _ =>
        if isCont 0x80 0xBF b then some (Char.ofNat ((n % 32) * 64 + contBits b), 2) else bad
      | _ => bad
    else if 0xE0 ≤ n ∧ n ≤ 0xEF then
      match rest with
      | b :: c :: _ =>
        let lo := if n = 0xE0 then 0xA0 else 0x80
        let hi := if n = 0xED then 0x9F else 0xBF
        if isCont lo hi b && isCont 0x80 0xBF c then
          some (Char.ofNat ((n % 16) * 4096 + contBits b * 64 + contBits c), 3)
        else bad
      | _ => bad
    else if 0xF0 ≤ n ∧ n ≤ 0xF4 then
      match rest with
      | b :: c :: d :: _ =>
        let lo := if n = 0xF0 then 0x90 else 0x80
        let hi := if n = 0xF4 then 0x8F else 0xBF
        if isCont lo hi b && isCont 0x80 0xBF c && isCont 0x80 0xBF d then
          some (Char.ofNat ((n % 8) * 262144 + contBits b * 4096 + contBits c * 64 + contBits d), 4)
        else bad
      | _ => bad
    else bad

/-- The characters of the first `fuel` runes. -/
def decodeRunes : Nat → Bytes → Str
  | 0, _ => []
  | fuel + 1, bs =>
    match decodeRune bs with
    | none => []
    | some (c, n) => c :: decodeRunes fuel (bs.drop n)

def toText (bs : Bytes) : Str := decodeRunes bs.length bs

/-- `utf8.AppendRune`: the bytes of a character. -/
def encodeRune (c : Char) : Bytes :=
  let n := c.toNat
  if n < 0x80 then [UInt8.ofNat n]
  else if n < 0x800 then [UInt8.ofNat (0xC0 + n / 64), UInt8.ofNat (0x80 + n % 64)]
  else if n < 0x10000 then
    [UInt8.ofNat (0xE0 + n / 4096), UInt8.ofNat (0x80 + n / 64 % 64), UInt8.ofNat (0x80 + n % 64)]
  else [UInt8.ofNat (0xF0 + n / 262144), UInt8.ofNat (0x80 + n / 4096 % 64),
    UInt8.ofNat (0x80 + n / 64 % 64), UInt8.ofNat (0x80 + n % 64)]

def toBytes (s : Str) : Bytes := s.flatMap encodeRune

/-! ## Decoding what is appended -/

variable {a : Bytes} {c : Char} {n : Nat}

theorem decodeRune_pos (h : decodeRune a = some (c, n)) : 0 < n := by
  unfold decodeRune at h
  split at h
  · cases h
  · simp only at h
    repeat' split at h
    all_goals
      cases h
      decide

/-- A rune that is not the replacement character is complete: what follows it does not
change how it is read. -/
theorem decodeRune_append (h : decodeRune a = some (c, n)) (hc : c ≠ Char.ofNat 0xFFFD) (b : Bytes) :
    decodeRune (a ++ b) = some (c, n) ∧ n ≤ a.length := by
  have hbad : some (Char.ofNat 0xFFFD, 1) ≠ some (c, n) := by
    intro he
    cases he
    exact hc rfl
  cases a with
  | nil => cases h
  | cons x rest =>
    simp only [decodeRune, cons_append] at h ⊢
    generalize (if x.toNat = 0xE0 then 0xA0 else 0x80) = lo3 at h ⊢
    generalize (if x.toNat = 0xED then 0x9F else 0xBF) = hi3 at h ⊢
    generalize (if x.toNat = 0xF0 then 0x90 else 0x80) = lo4 at h ⊢
    generalize (if x.toNat = 0xF4 then 0x8F else 0xBF) = hi4 at h ⊢
    -- one case for each length of an encoding
    repeat' split at h
    all_goals
      first
      | exact absurd h hbad
      | cases h
        simp [*]

theorem decodeRunes_of_le {fuel : Nat} {bs : Bytes} (h : bs.length ≤ fuel) :
    decodeRunes fuel bs = toText bs := by
  have hboth : ∀ m n (bs : Bytes), bs.length ≤ m → bs.length ≤ n →
      decodeRunes m bs = decodeRunes n bs := by
    intro m
    induction m with
    | zero =>
      intro n bs hm _
      cases length_eq_zero_iff.mp (Nat.le_zero.mp hm)
      cases n <;> rfl
    | succ m ih =>
      intro n bs hm hn
      cases n with
      | zero =>
        cases length_eq_zero_iff.mp (Nat.le_zero.mp hn)
        rfl
      | succ n =>
        simp only [decodeRunes]
        cases hd : decodeRune bs with
        | none => rfl
        | some x =>
          have hpos := decodeRune_pos hd
          have hlen : (bs.drop x.2).length ≤ m ∧ (bs.drop x.2).length ≤ n := by
            rw [length_drop]
            omega
          exact congrArg (x.1 :: ·) (ih n (bs.drop x.2) hlen.1 hlen.2)
  exact hboth fuel bs.length bs h (Nat.le_refl _)

theorem toText_of_decode (h : decodeRune a = some (c, n)) : toText a = c :: toText (a.drop n) := by
  cases a with
  | nil => cases h
  | cons x rest =>
    have hpos := decodeRune_pos h
    have hlen : ((x :: rest).drop n).length ≤ rest.length := by
      rw [length_drop, length_cons]
      omega
    rw [toText, length_cons, decodeRunes, h]
    exact congrArg (c :: ·) (decodeRunes_of_le hlen)

/-- Text without the replacement character is read the same when more follows. -/
theorem toText_append (h : Char.ofNat 0xFFFD ∉ toText a) (b : Bytes) :
    toText (a ++ b) = toText a ++ toText b := by
  induction hn : a.length using Nat.strongRecOn generalizing a with
  | ind n ih =>
    cases hd : decodeRune a with
    | none =>
      cases a with
      | nil => rfl
      | cons =>
        exfalso
        revert hd
        simp only [decodeRune]
        repeat' split
        all_goals exact nofun
    | some x =>
      obtain ⟨c, k⟩ := x
      rw [toText_of_decode hd] at h ⊢
      obtain ⟨hd', hk⟩ := decodeRune_append hd (fun he => h (by simp [he])) b
      have hpos := decodeRune_pos hd
      have hdrop := ih (a.drop k).length (by rw [length_drop]; omega)
        (fun hm => h (mem_cons_of_mem c hm)) rfl
      rw [toText_of_decode hd', drop_append_of_le_length hk, hdrop, cons_append]

/-! ## Decoding what was encoded -/

theorem toNat_ofNat_byte (h : n < 256) : (UInt8.ofNat n).toNat = n := by
  simp only [UInt8.toNat_ofNat']
  omega

/-- A character outside ASCII has two bytes or more, none of them ASCII. -/
theorem encodeRune_high (hc : ¬ c.toNat < 0x80) :
    2 ≤ (encodeRune c).length ∧ ∀ x ∈ encodeRune c, 0x80 ≤ x.toNat := by
  have hv : c.toNat < 0xD800 ∨ (0xDFFF < c.toNat ∧ c.toNat < 0x110000) := c.valid
  simp only [encodeRune, hc, if_false]
  repeat' split
  all_goals
    simp
    omega

/-- A rune is read back as it was written. -/
theorem decodeRune_encodeRune (c : Char) (r : Bytes) :
    decodeRune (encodeRune c ++ r) = some (c, (encodeRune c).length) := by
  have hv : c.toNat < 0xD800 ∨ (0xDFFF < c.toNat ∧ c.toNat < 0x110000) := c.valid
  have hchar : ∀ n, n = c.toNat → Char.ofNat n = c := fun n h => h ▸ Char.ofNat_toNat c
  unfold encodeRune
  simp only
  split
  · -- one byte
    have h0 := toNat_ofNat_byte (show c.toNat < 256 by omega)
    simp only [cons_append, nil_append, decodeRune, h0]
    rw [if_pos (by omega), hchar _ rfl]
    rfl
  split
  · -- two bytes
    have h0 := toNat_ofNat_byte (show 0xC0 + c.toNat / 64 < 256 by omega)
    have h1 := toNat_ofNat_byte (show 0x80 + c.toNat % 64 < 256 by omega)
    simp only [cons_append, nil_append, decodeRune, isCont, contBits, h0, h1]
    rw [if_neg (by omega), if_pos (by omega), if_pos (by simp; omega), hchar _ (by omega)]
    rfl
  split
  · -- three bytes; the second is bounded below after E0 and above after ED
    have h0 := toNat_ofNat_byte (show 0xE0 + c.toNat / 4096 < 256 by omega)
    have h1 := toNat_ofNat_byte (show 0x80 + c.toNat / 64 % 64 < 256 by omega)
    have h2 := toNat_ofNat_byte (show 0x80 + c.toNat % 64 < 256 by omega)
    simp only [cons_append, nil_append, decodeRune, isCont, contBits, h0, h1, h2]
    rw [if_neg (by omega), if_neg (by omega), if_pos (by omega), if_pos, hchar _ (by omega)]
    · rfl
    · simp only [Bool.and_eq_true, decide_eq_true_eq]
      split <;> split <;> omega
  · -- four bytes; the second is bounded below after F0 and above after F4
    have h0 := toNat_ofNat_byte (show 0xF0 + c.toNat / 262144 < 256 by omega)
    have h1 := toNat_ofNat_byte (show 0x80 + c.toNat / 4096 % 64 < 256 by omega)
    have h2 := toNat_ofNat_byte (show 0x80 + c.toNat / 64 % 64 < 256 by omega)
    have h3 := toNat_ofNat_byte (show 0x80 + c.toNat % 64 < 256 by omega)
    simp only [cons_append, nil_append, decodeRune, isCont, contBits, h0, h1, h2, h3]
    rw [if_neg (by omega), if_neg (by omega), if_neg (by omega), if_pos (by omega), if_pos,
      hchar _ (by omega)]
    · rfl
    · simp only [Bool.and_eq_true, decide_eq_true_eq]
      split <;> split <;> omega

/-- Text is read back as it was written. -/
theorem toText_toBytes (s : Str) : toText (toBytes s) = s := by
  induction s with
  | nil => rfl
  | cons c s ih =>
    have hd := decodeRune_encodeRune c (toBytes s)
    rw [show toBytes (c :: s) = encodeRune c ++ toBytes s from rfl, toText_of_decode hd,
      drop_left, ih]

theorem toBytes_inj {s t : Str} : toBytes s = toBytes t ↔ s = t := by
  constructor
  · intro h
    have htext := congrArg toText h
    rwa [toText_toBytes, toText_toBytes] at htext
  · rintro rfl
    rfl

/-! ## ASCII -/

theorem toNat_ofNat_char (h : n < 0xD800 ∨ (0xDFFF < n ∧ n < 0x110000)) :
    (Char.ofNat n).toNat = n := by
  rw [Char.ofNat, dif_pos h]
  rfl

/-- Only a byte below 0x80 is read as a character below it. -/
theorem decodeRune_ascii {a : UInt8} {rest : Bytes} (h : decodeRune (a :: rest) = some (c, n))
    (hc : c.toNat < 0x80) : n = 1 ∧ encodeRune c = [a] := by
  have hbad : some (Char.ofNat 0xFFFD, 1) ≠ some (c, n) := by
    intro he
    cases he
    exact absurd hc (by decide)
  have ha := a.toNat_lt
  simp only [decodeRune] at h
  split at h
  · next hlow =>
    cases h
    have hn := toNat_ofNat_char (n := a.toNat) (by omega)
    refine ⟨rfl, ?_⟩
    simp only [encodeRune, hn, hlow, if_true, UInt8.ofNat_toNat]
  exfalso
  -- every longer encoding is of a larger character
  simp only [isCont, contBits, Bool.and_eq_true, decide_eq_true_eq] at h
  repeat' split at h
  all_goals
    first
    | exact hbad h
    | cases h
      rw [toNat_ofNat_char (by omega)] at hc
      omega

/-- The bytes of an ASCII text are the only ones that are read as it. -/
theorem toBytes_toText_of_ascii {b : Bytes} (h : ∀ c ∈ toText b, c.toNat < 0x80) :
    toBytes (toText b) = b := by
  induction b with
  | nil => rfl
  | cons a rest ih =>
    cases hd : decodeRune (a :: rest) with
    | none =>
      exfalso
      revert hd
      simp only [decodeRune]
      repeat' split
      all_goals exact nofun
    | some x =>
      obtain ⟨c, n⟩ := x
      rw [toText_of_decode hd] at h ⊢
      rw [forall_mem_cons] at h
      obtain ⟨rfl, hc⟩ := decodeRune_ascii hd h.1
      rw [show toBytes (c :: toText ((a :: rest).drop 1)) =
        encodeRune c ++ toBytes (toText rest) from rfl, hc, ih h.2]
      rfl

end YominsAgent.Go
