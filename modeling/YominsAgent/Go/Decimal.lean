import YominsAgent.Go.Strings

/- Decimal numbers as text.

   Correspondence (Go ↔ Lean):
     `strconv.FormatInt(n, 10)`     ↔ `itoa`
     `strconv.ParseUint(s, 10, 64)` ↔ `parseUint`
     `strconv.ParseInt(s, 10, 64)`  ↔ `atoi` -/
namespace YominsAgent.Go

def itoa (n : Int) : Str :=
  if n < 0 then '-' :: Nat.toDigits 10 n.natAbs else Nat.toDigits 10 n.natAbs

def parseUint (s : Str) : Option Nat :=
  if s.isEmpty then none
  else match digitsVal 0 s with
    | some n => if n < 2 ^ 64 then some n else none
    | none => none

/-! ## Digits -/

theorem isDigit_of_mem_toDigits {n : Nat} {c : Char} (h : c ∈ Nat.toDigits 10 n) :
    c.isDigit = true :=
  Nat.isDigit_of_mem_toDigits (by decide) (by decide) h

theorem digitsVal_eq_some_iff {s : Str} {acc n : Nat} : digitsVal acc s = some n ↔
    (∀ c ∈ s, c.isDigit = true) ∧ n = Nat.ofDigitChars 10 s acc := by
  induction s generalizing acc with
  | nil => simpa [digitsVal] using eq_comm
  | cons c s ih =>
    rw [digitsVal, List.forall_mem_cons, Nat.ofDigitChars_cons]
    split
    · next hc => rw [ih, and_iff_right hc]
    · next hc => simp [hc]

theorem digitsVal_toDigits (n : Nat) : digitsVal 0 (Nat.toDigits 10 n) = some n :=
  digitsVal_eq_some_iff.mpr ⟨fun _ => isDigit_of_mem_toDigits, Nat.ofDigitChars_ten_toDigits.symm⟩

/-- Without a sign, `atoi` accepts the runs of digits whose value fits an `int`. -/
theorem atoi_unsigned_iff {s : Str} (h : '-' ∉ s ∧ '+' ∉ s) {n : Int} : atoi s = some n ↔
    s ≠ [] ∧ (∀ c ∈ s, c.isDigit = true) ∧ n = Nat.ofDigitChars 10 s 0 ∧ n < 2 ^ 63 := by
  simp only [atoi]
  split
  · exact absurd List.mem_cons_self h.1
  · exact absurd List.mem_cons_self h.2
  simp only [List.isEmpty_iff, Bool.false_eq_true, if_false]
  split
  · next hnil => simp [hnil]
  next hne =>
  cases hval : digitsVal 0 s with
  | none =>
    refine iff_of_false (by simp) ?_
    rintro ⟨-, hdigits, -⟩
    cases hval.symm.trans (digitsVal_eq_some_iff.mpr ⟨hdigits, rfl⟩)
  | some m =>
    obtain ⟨hdigits, rfl⟩ := digitsVal_eq_some_iff.mp hval
    have hlo : -2 ^ 63 ≤ (Nat.ofDigitChars 10 s 0 : Int) := by omega
    simp only [hne, hlo, true_and, ne_eq, not_false_eq_true, and_iff_right hdigits]
    split
    · next hfit =>
      rw [Option.some_inj]
      exact ⟨fun he => ⟨he.symm, he ▸ hfit⟩, fun he => he.1.symm⟩
    · next hbig =>
      refine iff_of_false (by simp) ?_
      rintro ⟨hn, hfit⟩
      exact hbig (hn ▸ hfit)

theorem exists_toDigits (n : Nat) : ∃ c r, Nat.toDigits 10 n = c :: r ∧ c.isDigit = true := by
  obtain ⟨c, r, h⟩ := List.exists_cons_of_ne_nil (Nat.toDigits_ne_nil (n := n) (b := 10))
  exact ⟨c, r, h, isDigit_of_mem_toDigits (h ▸ List.mem_cons_self)⟩

theorem head_toDigits {n : Nat} (h : n ≠ 0) : (Nat.toDigits 10 n).head? ≠ some '0' := by
  induction n using Nat.strongRecOn with
  | ind n ih =>
    cases Nat.lt_or_ge n 10 with
    | inl hn =>
      rw [Nat.toDigits_of_lt_base hn]
      have hdigit : ∀ m < 10, m ≠ 0 → [m.digitChar].head? ≠ some '0' := by decide
      exact hdigit n hn h
    | inr hn =>
      rw [Nat.toDigits_of_base_le (by decide) hn]
      obtain ⟨c, r, hr, -⟩ := exists_toDigits (n / 10)
      have hhead := ih (n / 10) (by omega) (by omega)
      rw [hr] at hhead ⊢
      exact hhead

/-! ## Numbers read back -/

theorem parseUint_toDigits {n : Nat} (h : n < 2 ^ 64) : parseUint (Nat.toDigits 10 n) = some n := by
  obtain ⟨c, r, hr, -⟩ := exists_toDigits n
  have hval := digitsVal_toDigits n
  rw [hr] at hval ⊢
  simp only [parseUint, List.isEmpty_cons, Bool.false_eq_true, if_false, hval, h, if_true]

theorem itoa_natCast (n : Nat) : itoa n = Nat.toDigits 10 n := if_neg (by omega)

theorem exists_itoa (n : Int) : ∃ c r, itoa n = c :: r ∧ (c = '-' ∨ c.isDigit = true) := by
  unfold itoa
  split
  · exact ⟨'-', _, rfl, .inl rfl⟩
  · obtain ⟨c, r, hr, hc⟩ := exists_toDigits n.natAbs
    exact ⟨c, r, hr, .inr hc⟩

theorem atoi_itoa {n : Int} (hlo : -2 ^ 63 ≤ n) (hhi : n < 2 ^ 63) : atoi (itoa n) = some n := by
  have hval := digitsVal_toDigits n.natAbs
  obtain ⟨c, r, hr, hc⟩ := exists_toDigits n.natAbs
  have hminus : c ≠ '-' := by
    rintro rfl
    cases hc
  have hplus : c ≠ '+' := by
    rintro rfl
    cases hc
  rw [hr] at hval
  unfold itoa
  split
  · next hneg =>
    have habs : -(n.natAbs : Int) = n := by omega
    rw [hr]
    simp only [atoi, hval, habs, List.isEmpty_cons, Bool.false_eq_true, if_false]
    exact if_pos ⟨hlo, hhi⟩
  · next hneg =>
    have habs : (n.natAbs : Int) = n := by omega
    rw [hr]
    simp [atoi, hminus, hplus, hval, habs]
    exact ⟨hlo, hhi⟩

end YominsAgent.Go
