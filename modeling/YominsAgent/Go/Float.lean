import Mathlib.Algebra.Order.Field.Power
import Mathlib.Data.List.TakeWhile
import Mathlib.Data.Nat.Log
import YominsAgent.Go.Decimal
import YominsAgent.Go.Duration

/- `float64` between JSON and text.

   A finite `float64` is its sign and its absolute value as a rational. A JSON number is
   read to the nearest one, and is an error beyond the largest (`parseFloat`). It is shown
   with the fewest digits that read back as it (`shortest`), with an exponent below 1e-4
   and from 1e6 on (`sprintFloat`). An integer up to 2^53 is shown by its digits if and
   only if it is below a million (`sprintFloat_int`).

   Correspondence (Go ↔ Lean):
     `strconv.ParseFloat` of a JSON number ↔ `parseFloat`
     `roundShortest`                       ↔ `shortest`
     `fmt.Sprint` of a float64 (`%g`)      ↔ `sprintFloat`, with `fmtE` and `fmtF` -/
namespace YominsAgent.Go

open List

/-- A finite `float64`; zero has both signs. -/
structure GoFloat where
  neg : Bool
  abs : ℚ
  nonneg : 0 ≤ abs

/-- The nearest multiple of the last place, for `0 ≤ q`; below 2^-1022 that is 2^-1074. -/
def nearestFloat (q : ℚ) : ℚ :=
  if q = 0 then 0
  else
    let ulp : ℚ := (2 : ℚ) ^ max (binaryExponent q - 52) (-1074)
    roundEven (q / ulp) * ulp

theorem roundEven_nonneg {q : ℚ} (h : 0 ≤ q) : 0 ≤ roundEven q := by
  have hfloor : 0 ≤ q.floor := Rat.le_floor_iff.mpr (by exact_mod_cast h)
  unfold roundEven
  simp only
  split <;> omega

theorem nearestFloat_nonneg {q : ℚ} (h : 0 ≤ q) : 0 ≤ nearestFloat q := by
  unfold nearestFloat
  split
  · exact le_refl 0
  · have hulp : (0 : ℚ) < 2 ^ max (binaryExponent q - 52) (-1074) := zpow_pos (by norm_num) _
    have hround := roundEven_nonneg (div_nonneg h hulp.le)
    exact mul_nonneg (by exact_mod_cast hround) hulp.le

/-! ## Reading -/

/-- The digits of an exponent; once it is large the rest of them are passed over. -/
def exponentVal : Nat → Str → Nat
  | e, [] => e
  | e, c :: s => exponentVal (if e < 10000 then 10 * e + digitVal c else e) s

/-- The exponent of a JSON number, from its `e` on. -/
def literalExponent : Str → Int
  | _ :: '-' :: s => -(exponentVal 0 s : Int)
  | _ :: '+' :: s => exponentVal 0 s
  | _ :: s => exponentVal 0 s
  | [] => 0

/-- The absolute value of a JSON number without its sign. -/
def literalAbs (s : Str) : ℚ :=
  let mantissa := s.takeWhile fun c => c != 'e' && c != 'E'
  let whole := mantissa.takeWhile Char.isDigit
  let fraction := (mantissa.dropWhile Char.isDigit).tail
  let e := literalExponent (s.dropWhile fun c => c != 'e' && c != 'E')
  Nat.ofDigitChars 10 (whole ++ fraction) 0 * (10 : ℚ) ^ (e - fraction.length)

theorem literalAbs_nonneg (s : Str) : 0 ≤ literalAbs s :=
  mul_nonneg (Nat.cast_nonneg _) (zpow_nonneg (by norm_num) _)

def parseFloat (literal : Str) : Option GoFloat :=
  let neg := literal.head? == some '-'
  let q := literalAbs (if neg then literal.tail else literal)
  if nearestFloat q < (2 : ℚ) ^ 1024 then
    some ⟨neg, nearestFloat q, nearestFloat_nonneg (literalAbs_nonneg _)⟩
  else none

/-! ## Showing -/

/-- The number of digits before the point of a positive `v`: `10 ^ (k - 1) ≤ v < 10 ^ k`. -/
def decimalPoint (v : ℚ) : Int :=
  let k : Int := (Nat.log 10 v.num.natAbs : Int) - Nat.log 10 v.den
  if v < (10 : ℚ) ^ k then k else k + 1

/-- The decimal of `n` digits or more that reads back as `v`, as digits and exponent. Of two
decimals of one length that do the nearer one is taken. -/
def shortestFrom (v : ℚ) (k : Int) : Nat → Nat → Int × Int
  | 0, n => (roundEven (v / (10 : ℚ) ^ (k - n)), k - n)
  | fuel + 1, n =>
    let scale : ℚ := (10 : ℚ) ^ (k - n)
    let low := (v / scale).floor
    if nearestFloat (low * scale) = v then
      (if nearestFloat ((low + 1) * scale) = v then roundEven (v / scale) else low, k - n)
    else if nearestFloat ((low + 1) * scale) = v then (low + 1, k - n)
    else shortestFrom v k fuel (n + 1)

/-- Seventeen digits are always enough. -/
def shortest (v : ℚ) : Int × Int := shortestFrom v (decimalPoint v) 17 1

/-- `d.ddde±dd`, with the point before the `dp`-th digit. -/
def fmtE (ds : Str) (dp : Int) : Str :=
  let e := dp - 1
  let es := Nat.toDigits 10 e.natAbs
  ds.take 1 ++ (if ds.length ≤ 1 then [] else '.' :: ds.drop 1) ++
    'e' :: (if e < 0 then '-' else '+') :: (if es.length < 2 then '0' :: es else es)

/-- The digits with the point in its place. -/
def fmtF (ds : Str) (dp : Int) : Str :=
  if dp ≤ 0 then '0' :: '.' :: (List.replicate dp.natAbs '0' ++ ds)
  else
    ds.take dp.toNat ++ List.replicate (dp.toNat - ds.length) '0' ++
      (if ds.length ≤ dp.toNat then [] else '.' :: ds.drop dp.toNat)

/-- `%g` of a positive value. -/
def fmtG (v : ℚ) : Str :=
  let (m, e) := shortest v
  let digits := Nat.toDigits 10 m.natAbs
  let dp : Int := digits.length + e
  let ds := (digits.reverse.dropWhile (· == '0')).reverse
  if dp - 1 < -4 ∨ 6 ≤ dp - 1 then fmtE ds dp else fmtF ds dp

def sprintFloat (f : GoFloat) : Str :=
  (if f.neg then ['-'] else []) ++ if f.abs = 0 then ['0'] else fmtG f.abs

/-! ## Integers are floats -/

theorem roundEven_int (n : Int) : roundEven n = n := by
  simp [roundEven]

theorem binaryExponent_nat {n : Nat} (hn : n ≠ 0) : binaryExponent n = Nat.log2 n := by
  have hle : (2 : ℚ) ^ Nat.log2 n ≤ n := by exact_mod_cast Nat.log2_self_le hn
  have hone : Nat.log2 1 = 0 := by decide
  simp [binaryExponent, hone, hle]

theorem nearestFloat_multiple {q : ℚ} {m : Int}
    (h : q = m * (2 : ℚ) ^ max (binaryExponent q - 52) (-1074)) : nearestFloat q = q := by
  unfold nearestFloat
  split
  · next hq => exact hq.symm
  · have hpos : (2 : ℚ) ^ max (binaryExponent q - 52) (-1074) ≠ 0 := zpow_ne_zero _ (by norm_num)
    simp only
    generalize (2 : ℚ) ^ max (binaryExponent q - 52) (-1074) = ulp at h hpos ⊢
    rw [h, mul_div_assoc, div_self hpos, mul_one, roundEven_int]

theorem nearestFloat_nat {n : Nat} (hn : n ≤ 2 ^ 53) : nearestFloat n = n := by
  cases Nat.eq_zero_or_pos n with
  | inl h0 =>
    subst h0
    rfl
  | inr hpos =>
    have hexp := binaryExponent_nat (Nat.ne_of_gt hpos)
    rcases Nat.lt_or_eq_of_le hn with hlt | heq
    · have hlog : Nat.log2 n < 53 := (Nat.log2_lt (Nat.ne_of_gt hpos)).mpr hlt
      refine nearestFloat_multiple (m := (n * 2 ^ (52 - Nat.log2 n) : Nat)) ?_
      have hmax : max ((Nat.log2 n : Int) - 52) (-1074) = -((52 - Nat.log2 n : Nat) : Int) := by
        omega
      rw [hexp, hmax, zpow_neg, zpow_natCast]
      push_cast
      field_simp
    · refine nearestFloat_multiple (m := (2 ^ 52 : Nat)) ?_
      have hlog : Nat.log2 n = 53 := by
        rw [heq]
        decide
      rw [hexp, hlog, heq]
      norm_num

/-! ## The digits of an integer -/

theorem decimalPoint_nat {n : Nat} (hn : n ≠ 0) :
    decimalPoint n = ((Nat.toDigits 10 n).length : Int) := by
  have hle : (10 : ℚ) ^ Nat.log 10 n ≤ n := by exact_mod_cast Nat.pow_log_le_self 10 hn
  have hlen : (Nat.toDigits 10 n).length = Nat.log 10 n + 1 := by
    have hlt := Nat.lt_pow_succ_log_self (b := 10) (by decide) n
    have hup := (Nat.length_toDigits_le_iff (b := 10) (by decide) (by omega)).mpr hlt
    rcases Nat.eq_zero_or_pos (Nat.log 10 n) with h0 | hpos
    · have := Nat.length_toDigits_pos (b := 10) (n := n)
      omega
    · have hno : ¬ (Nat.toDigits 10 n).length ≤ Nat.log 10 n := by
        rw [Nat.length_toDigits_le_iff (by decide) hpos, not_lt]
        exact Nat.pow_log_le_self 10 hn
      omega
  simp [decimalPoint, hle, hlen]

theorem roundEven_cases (q : ℚ) : roundEven q = q.floor ∨ roundEven q = q.floor + 1 := by
  unfold roundEven
  simp only
  split
  · exact .inl rfl
  · exact .inr rfl

/-- The search ends at the length of the integer, if not before. -/
theorem shortestFrom_nat {N k : Nat} (hN : N ≤ 2 ^ 53) (hlo : 10 ^ (k - 1) ≤ N) (hhi : N < 10 ^ k)
    (fuel n : Nat) (hn : 1 ≤ n) (hnk : n ≤ k) (hfuel : k < n + fuel) :
    ∃ m e : Nat, shortestFrom N k fuel n = ((m : Int), (e : Int)) ∧
      nearestFloat (m * 10 ^ e : Nat) = N ∧ 10 ^ (k - 1) ≤ m * 10 ^ e ∧ m * 10 ^ e ≤ 10 ^ k := by
  induction fuel generalizing n with
  | zero => omega
  | succ fuel ih =>
    obtain ⟨e, rfl⟩ : ∃ e, k = n + e := ⟨k - n, by omega⟩
    have hscale : (10 : ℚ) ^ (((n + e : Nat) : Int) - n) = ((10 ^ e : Nat) : ℚ) := by
      rw [Nat.cast_add, add_sub_cancel_left]
      push_cast
      rfl
    have hfloor : ((N : ℚ) / ((10 ^ e : Nat) : ℚ)).floor = ((N / 10 ^ e : Nat) : Int) :=
      Rat.floor_natCast_div_natCast N (10 ^ e)
    -- the two candidates
    have hpow : 0 < 10 ^ e := Nat.pow_pos (by decide)
    generalize hd : N / 10 ^ e = d at hfloor
    have hdlo : 10 ^ (n + e - 1) ≤ d * 10 ^ e := by
      have hsplit : 10 ^ (n + e - 1) = 10 ^ (n - 1) * 10 ^ e := by
        rw [← pow_add]
        congr 1
        omega
      rw [hsplit] at hlo ⊢
      exact Nat.mul_le_mul_right _ (hd ▸ (Nat.le_div_iff_mul_le hpow).mpr hlo)
    have hdhi : (d + 1) * 10 ^ e ≤ 10 ^ (n + e) := by
      rw [pow_add] at hhi ⊢
      exact Nat.mul_le_mul_right _ (hd ▸ Nat.div_lt_of_lt_mul (by rwa [mul_comm] at hhi))
    have hstep : d * 10 ^ e ≤ (d + 1) * 10 ^ e := Nat.mul_le_mul_right _ (Nat.le_succ d)
    have hlow : ((d : Int) : ℚ) * ((10 ^ e : Nat) : ℚ) = ((d * 10 ^ e : Nat) : ℚ) := by
      push_cast
      rfl
    have hhigh : (((d : Int) : ℚ) + 1) * ((10 ^ e : Nat) : ℚ) = (((d + 1) * 10 ^ e : Nat) : ℚ) := by
      push_cast
      rfl
    have hexp : ((n + e : Nat) : Int) - n = (e : Int) := by omega
    unfold shortestFrom
    simp only [hscale, hfloor, hlow, hhigh]
    split
    · next hok =>
      split
      · next hok' =>
        -- both read back: the nearer one
        rcases roundEven_cases ((N : ℚ) / ((10 ^ e : Nat) : ℚ)) with hr | hr
        · rw [hfloor] at hr
          exact ⟨d, e, by rw [hr, hexp], hok, hdlo, Nat.le_trans hstep hdhi⟩
        · rw [hfloor] at hr
          exact ⟨d + 1, e, by rw [hr, hexp]; rfl, hok', Nat.le_trans hdlo hstep, hdhi⟩
      · exact ⟨d, e, by rw [hexp], hok, hdlo, Nat.le_trans hstep hdhi⟩
    · next hno =>
      split
      · next hok' => exact ⟨d + 1, e, by rw [hexp]; rfl, hok', Nat.le_trans hdlo hstep, hdhi⟩
      · have hlt : n < n + e := by
          apply Nat.lt_of_le_of_ne hnk
          intro heq
          have he : e = 0 := by omega
          subst he
          have hdN : d * 10 ^ 0 = N := by
            rw [← hd]
            simp
          rw [hdN, nearestFloat_nat hN] at hno
          exact hno rfl
        exact ih (n + 1) (by omega) (by omega) (by omega)

/-- What is shown of an integer up to 2^53: digits and zeros whose value reads back as it. -/
theorem shortest_nat {N : Nat} (hpos : N ≠ 0) (hN : N ≤ 2 ^ 53) :
    ∃ m e : Nat, shortest N = ((m : Int), (e : Int)) ∧ nearestFloat (m * 10 ^ e : Nat) = N ∧
      10 ^ ((Nat.toDigits 10 N).length - 1) ≤ m * 10 ^ e ∧
      m * 10 ^ e ≤ 10 ^ (Nat.toDigits 10 N).length := by
  have hlen := Nat.length_toDigits_pos (b := 10) (n := N)
  have hhi : N < 10 ^ (Nat.toDigits 10 N).length :=
    (Nat.length_toDigits_le_iff (by decide) hlen).mp (Nat.le_refl _)
  have hlo : 10 ^ ((Nat.toDigits 10 N).length - 1) ≤ N := by
    rcases Nat.eq_zero_or_pos ((Nat.toDigits 10 N).length - 1) with h0 | h0
    · rw [h0]
      exact Nat.pos_of_ne_zero hpos
    · rw [← not_lt, ← Nat.length_toDigits_le_iff (by decide) h0]
      omega
  have h17 : (Nat.toDigits 10 N).length ≤ 16 := by
    rw [Nat.length_toDigits_le_iff (by decide) (by decide)]
    exact Nat.lt_of_le_of_lt hN (by decide)
  rw [shortest, decimalPoint_nat hpos]
  exact shortestFrom_nat hN hlo hhi 17 1 (Nat.le_refl _) hlen (by omega)

theorem toDigits_mul_pow {m : Nat} (hm : m ≠ 0) (e : Nat) :
    Nat.toDigits 10 (m * 10 ^ e) = Nat.toDigits 10 m ++ List.replicate e '0' := by
  induction e with
  | zero => simp
  | succ e ih =>
    have hpos : 0 < m * 10 ^ e := Nat.mul_pos (Nat.pos_of_ne_zero hm) (Nat.pow_pos (by decide))
    have hten : m * 10 ^ (e + 1) = 10 * (m * 10 ^ e) := by
      rw [pow_succ, ← Nat.mul_assoc, Nat.mul_comm]
    have hdiv : m * 10 ^ (e + 1) / 10 = m * 10 ^ e := by omega
    have hmod : m * 10 ^ (e + 1) % 10 = 0 := by omega
    rw [Nat.toDigits_of_base_le (by decide) (by omega), hdiv, hmod, ih, replicate_succ',
      append_assoc]
    rfl

/-- A text is what is left of it without its last zeros, and zeros. -/
theorem strip_zeros (l : Str) :
    ∃ z, l = (l.reverse.dropWhile (· == '0')).reverse ++ List.replicate z '0' := by
  refine ⟨(l.reverse.takeWhile (· == '0')).length, ?_⟩
  have hzeros : l.reverse.takeWhile (· == '0') =
      replicate (l.reverse.takeWhile (· == '0')).length '0' := by
    rw [eq_replicate_iff]
    refine ⟨rfl, fun c hc => ?_⟩
    exact beq_iff_eq.mp (all_eq_true.mp all_takeWhile c hc)
  have hsplit := congrArg reverse
    (takeWhile_append_dropWhile (p := (· == '0')) (l := l.reverse))
  rw [reverse_append, reverse_reverse] at hsplit
  rw [← reverse_replicate, ← hzeros, hsplit]

theorem fmtG_small {N : Nat} (hpos : N ≠ 0) (hN : N < 10 ^ 6) : fmtG N = Nat.toDigits 10 N := by
  obtain ⟨m, e, hshort, hfloat, hlo, hhi⟩ := shortest_nat hpos
    (Nat.le_of_lt (Nat.lt_trans hN (by decide)))
  have hlen : (Nat.toDigits 10 N).length ≤ 6 :=
    (Nat.length_toDigits_le_iff (by decide) (by decide)).mpr hN
  have hvalue : m * 10 ^ e = N := by
    have hle : m * 10 ^ e ≤ 2 ^ 53 := Nat.le_trans hhi
      (Nat.le_trans (Nat.pow_le_pow_right (by decide) hlen) (by decide))
    rw [nearestFloat_nat hle] at hfloat
    exact_mod_cast hfloat
  have hm : m ≠ 0 := by
    rintro rfl
    exact hpos (by simpa using hvalue.symm)
  have hdigits := toDigits_mul_pow hm e
  rw [hvalue] at hdigits
  obtain ⟨z, hz⟩ := strip_zeros (Nat.toDigits 10 m)
  simp only [fmtG, hshort, Int.natAbs_natCast]
  generalize ((Nat.toDigits 10 m).reverse.dropWhile (· == '0')).reverse = ds at hz ⊢
  have hdp : ((Nat.toDigits 10 m).length : Int) + e = ((ds.length + z + e : Nat) : Int) := by
    rw [hz]
    simp
  have hdp6 : ds.length + z + e ≤ 6 := by
    rw [hdigits, hz] at hlen
    simp only [length_append, length_replicate] at hlen
    exact hlen
  have hdp0 : 0 < ds.length + z + e := by
    have := Nat.length_toDigits_pos (b := 10) (n := N)
    rw [hdigits, hz] at this
    simp only [length_append, length_replicate] at this
    exact this
  rw [hdp, if_neg (by omega), fmtF, if_neg (by omega), Int.toNat_natCast, if_pos (by omega),
    take_of_length_le (by omega), hdigits, hz]
  have hzeros : ds.length + z + e - ds.length = z + e := by omega
  rw [hzeros, append_nil, append_assoc, replicate_append_replicate]

theorem fmtG_large {N : Nat} (hlo : 10 ^ 6 ≤ N) (hN : N ≤ 2 ^ 53) : 'e' ∈ fmtG N := by
  have hpos : N ≠ 0 := by
    rintro rfl
    exact absurd hlo (by decide)
  obtain ⟨m, e, hshort, -, hge, -⟩ := shortest_nat hpos hN
  have hseven : 6 < (Nat.toDigits 10 N).length := by
    rw [← not_le, Nat.length_toDigits_le_iff (by decide) (by decide)]
    omega
  have hmlen : m < 10 ^ (Nat.toDigits 10 m).length :=
    (Nat.length_toDigits_le_iff (by decide) Nat.length_toDigits_pos).mp (Nat.le_refl _)
  have hdp : 7 ≤ (Nat.toDigits 10 m).length + e := by
    have hlt : 10 ^ 6 < 10 ^ ((Nat.toDigits 10 m).length + e) := by
      calc 10 ^ 6 ≤ 10 ^ ((Nat.toDigits 10 N).length - 1) :=
            Nat.pow_le_pow_right (by decide) (by omega)
        _ ≤ m * 10 ^ e := hge
        _ < 10 ^ (Nat.toDigits 10 m).length * 10 ^ e :=
            Nat.mul_lt_mul_of_pos_right hmlen (Nat.pow_pos (by decide))
        _ = 10 ^ ((Nat.toDigits 10 m).length + e) := (pow_add _ _ _).symm
    exact (Nat.pow_lt_pow_iff_right (by decide)).mp hlt
  simp only [fmtG, hshort, Int.natAbs_natCast]
  rw [if_pos (by omega), fmtE]
  simp

/-- The value is the integer `n`. -/
def GoFloat.Is (f : GoFloat) (n : Int) : Prop := (if f.neg then -f.abs else f.abs) = n

theorem GoFloat.Is.abs_eq {f : GoFloat} {n : Int} (h : f.Is n) :
    f.abs = n.natAbs ∧ (f.neg = true → n ≤ 0) ∧ (f.neg = false → 0 ≤ n) := by
  have hval : (if f.neg then -f.abs else f.abs) = n := h
  have habs := f.nonneg
  cases hneg : f.neg with
  | true =>
    rw [hneg, if_pos rfl] at hval
    have hn : n ≤ 0 := by
      have : (n : ℚ) ≤ 0 := by rw [← hval]; exact neg_nonpos.mpr habs
      exact_mod_cast this
    refine ⟨?_, fun _ => hn, nofun⟩
    have hcast : ((n.natAbs : Int) : ℚ) = -n := by
      rw [Int.ofNat_natAbs_of_nonpos hn]
      rfl
    rw [Int.cast_natCast] at hcast
    rw [hcast, ← hval, neg_neg]
  | false =>
    rw [hneg, if_neg Bool.false_ne_true] at hval
    have hn : 0 ≤ n := by
      have : (0 : ℚ) ≤ n := hval ▸ habs
      exact_mod_cast this
    refine ⟨?_, nofun, fun _ => hn⟩
    have hcast : ((n.natAbs : Int) : ℚ) = n := by rw [Int.natAbs_of_nonneg hn]
    rw [Int.cast_natCast] at hcast
    rw [hcast, ← hval]

theorem not_mem_itoa (n : Int) : 'e' ∉ itoa n := by
  have hdigits : 'e' ∉ Nat.toDigits 10 n.natAbs :=
    fun he => absurd (isDigit_of_mem_toDigits he) (by decide)
  unfold itoa
  split
  · simpa using hdigits
  · exact hdigits

/-- An integer up to 2^53 is shown by its digits if and only if it is below a million and
not the negative zero. -/
theorem sprintFloat_int {f : GoFloat} {n : Int} (h : f.Is n) (hn : n.natAbs ≤ 2 ^ 53) :
    sprintFloat f = itoa n ↔ n.natAbs < 10 ^ 6 ∧ ¬ (f.neg = true ∧ n = 0) := by
  obtain ⟨habs, hneg, hpos⟩ := h.abs_eq
  by_cases hzero : n = 0
  · subst hzero
    have hshow : sprintFloat f = (if f.neg then ['-'] else []) ++ ['0'] := by
      simp [sprintFloat, habs]
    rw [hshow]
    cases f.neg <;> decide
  · have hne : n.natAbs ≠ 0 := by omega
    have hshow : sprintFloat f = (if f.neg then ['-'] else []) ++ fmtG n.natAbs := by
      have hcast : (n.natAbs : ℚ) ≠ 0 := by exact_mod_cast hne
      rw [sprintFloat, habs, if_neg hcast]
    rw [hshow]
    simp only [hzero, and_false, not_false_eq_true, and_true]
    constructor
    · intro heq
      apply Nat.lt_of_not_le
      intro hge
      apply not_mem_itoa n
      rw [← heq]
      exact mem_append_right _ (fmtG_large hge hn)
    · intro hlt
      rw [fmtG_small hne hlt, itoa]
      cases hs : f.neg with
      | true =>
        have : n < 0 := by
          have := hneg hs
          omega
        rw [if_pos this]
        rfl
      | false =>
        have : ¬ n < 0 := by
          have := hpos hs
          omega
        rw [if_neg this]
        rfl

theorem parseFloat_toDigits {n : Nat} (hn : n ≤ 2 ^ 53) :
    ∃ f, parseFloat (Nat.toDigits 10 n) = some f ∧ f.neg = false ∧ f.Is n := by
  obtain ⟨c, t, ht, hc⟩ := exists_toDigits n
  have hminus : ((Nat.toDigits 10 n).head? == some '-') = false := by
    rw [ht]
    simp only [head?_cons, beq_eq_false_iff_ne, ne_eq, Option.some.injEq]
    rintro rfl
    cases hc
  have hmantissa : ∀ c ∈ Nat.toDigits 10 n, (c != 'e' && c != 'E') = true := by
    intro c hc
    have hdigit := isDigit_of_mem_toDigits hc
    simp only [Bool.and_eq_true, bne_iff_ne]
    constructor <;> (rintro rfl; cases hdigit)
  have habs : literalAbs (Nat.toDigits 10 n) = n := by
    have htake := takeWhile_eq_self_iff.mpr hmantissa
    have hdrop := dropWhile_eq_nil_iff.mpr hmantissa
    have hwhole := takeWhile_eq_self_iff.mpr fun c => isDigit_of_mem_toDigits (n := n) (c := c)
    have hrest := dropWhile_eq_nil_iff.mpr fun c => isDigit_of_mem_toDigits (n := n) (c := c)
    simp [literalAbs, htake, hdrop, hwhole, hrest, literalExponent]
  have hlt : (n : ℚ) < 2 ^ 1024 := by
    have hle : (n : ℚ) ≤ 2 ^ 53 := by exact_mod_cast hn
    exact lt_of_le_of_lt hle (pow_lt_pow_right₀ (by norm_num) (by norm_num))
  refine ⟨⟨false, nearestFloat (literalAbs (Nat.toDigits 10 n)),
    nearestFloat_nonneg (literalAbs_nonneg _)⟩, ?_, rfl, ?_⟩
  · simp only [parseFloat, hminus, Bool.false_eq_true, if_false]
    rw [if_pos]
    rw [habs, nearestFloat_nat hn]
    exact hlt
  · show nearestFloat (literalAbs (Nat.toDigits 10 n)) = ((n : Int) : ℚ)
    rw [habs, nearestFloat_nat hn]
    rfl

end YominsAgent.Go
