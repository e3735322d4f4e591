import Mathlib.Data.Int.Init

/- The Gregorian calendar, without beginning or end.

   Days are counted from 1 January of the year 1. `dayNumber` is the number of a date, and
   also of a day beyond the end of its month. `dateOf` cuts off the cycles of 400, 100, 4
   and 1 years and then reads month and day from a table. The two are inverse on the
   dates that exist (`dateOf_dayNumber`, `dayNumber_dateOf`). -/
namespace YominsAgent.Lib.Calendar

def isLeap (y : Int) : Bool := y % 4 == 0 && (y % 100 != 0 || y % 400 == 0)

def daysBeforeYear (y : Int) : Int := 365 * (y - 1) + (y - 1) / 4 - (y - 1) / 100 + (y - 1) / 400

/-- The days of a year before its `m`-th month, without a leap day. -/
def daysBefore (m : Nat) : Nat :=
  [0, 0, 31, 59, 90, 120, 151, 181, 212, 243, 273, 304, 334, 365].getD m 0

def daysBeforeMonth (leap : Bool) (m : Nat) : Nat :=
  daysBefore m + if leap && 3 ≤ m then 1 else 0

def daysIn (leap : Bool) (m : Nat) : Nat :=
  daysBefore (m + 1) - daysBefore m + if leap && m == 2 then 1 else 0

def dayNumber (y : Int) (m : Nat) (d : Int) : Int :=
  daysBeforeYear y + daysBeforeMonth (isLeap y) m + (d - 1)

def yearOf (n : Int) : Int :=
  let n400 := n / 146097
  let n := n % 146097
  -- the last of four centuries, and of four years, has one day more
  let n100 := n / 36524 - n / 36524 / 4
  let n := n - 36524 * n100
  let n4 := n / 1461
  let n := n - 1461 * n4
  let n1 := n / 365 - n / 365 / 4
  400 * n400 + 100 * n100 + 4 * n4 + n1 + 1

/-- Month and day of the day of a year, the first being 0. -/
def monthDay (leap : Bool) (yday : Nat) : Nat × Nat :=
  if leap && yday == 59 then (2, 29)
  else
    -- behind the leap day: as if it had not been there
    let day := if leap && 59 < yday then yday - 1 else yday
    let m := day / 31 + 1
    if daysBefore (m + 1) ≤ day then (m + 1, day - daysBefore (m + 1) + 1)
    else (m, day - daysBefore m + 1)

def dateOf (n : Int) : Int × Nat × Nat :=
  let y := yearOf n
  (y, monthDay (isLeap y) (n - daysBeforeYear y).toNat)

def Valid (y : Int) (m d : Nat) : Prop := 1 ≤ m ∧ m ≤ 12 ∧ 1 ≤ d ∧ d ≤ daysIn (isLeap y) m

/-! ## Years -/

def yearLength (leap : Bool) : Nat := if leap then 366 else 365

theorem daysBeforeYear_succ (y : Int) :
    daysBeforeYear (y + 1) = daysBeforeYear y + yearLength (isLeap y) := by
  simp only [daysBeforeYear, yearLength, isLeap, Bool.and_eq_true, Bool.or_eq_true, beq_iff_eq,
    bne_iff_ne]
  split <;> omega

theorem daysBeforeYear_mono {y z : Int} (h : y ≤ z) : daysBeforeYear y ≤ daysBeforeYear z := by
  unfold daysBeforeYear
  omega

/-- The last year of four is leap, but for the one that ends a century other than the last
of four. -/
theorem isLeap_fourth {a b c : Int} (hc : 0 ≤ c ∧ c < 24 ∨ c = 24 ∧ b = 3) :
    isLeap (400 * a + 100 * b + 4 * c + 3 + 1) = true := by
  simp only [isLeap, Bool.and_eq_true, Bool.or_eq_true, beq_iff_eq, bne_iff_ne]
  omega

theorem yearOf_spec (n : Int) :
    daysBeforeYear (yearOf n) ≤ n ∧ n < daysBeforeYear (yearOf n + 1) := by
  unfold yearOf
  -- one cycle after the other: how many there are, and what is left
  have h400 : 146097 * (n / 146097) + n % 146097 = n ∧ 0 ≤ n % 146097 ∧ n % 146097 < 146097 := by
    omega
  generalize n / 146097 = a at h400 ⊢
  generalize n % 146097 = r at h400 ⊢
  have h100 : ∃ b, r / 36524 - r / 36524 / 4 = b ∧ 0 ≤ b ∧ b ≤ 3 ∧ 36524 * b ≤ r ∧
      (r < 36524 * b + 36524 ∨ b = 3 ∧ r = 36524 * b + 36524) := ⟨_, rfl, by omega⟩
  obtain ⟨b, hb, hb0, hb3, hlo, hhi⟩ := h100
  simp only [hb]
  have h4 : ∃ c, (r - 36524 * b) / 1461 = c ∧ 0 ≤ c ∧ c ≤ 24 ∧ 1461 * c ≤ r - 36524 * b ∧
      r - 36524 * b < 1461 * c + 1461 := ⟨_, rfl, by omega⟩
  obtain ⟨c, hc, hc0, hc24, hclo, hchi⟩ := h4
  simp only [hc]
  generalize hs : r - 36524 * b - 1461 * c = s
  have h1 : ∃ d, s / 365 - s / 365 / 4 = d ∧ 0 ≤ d ∧ d ≤ 3 ∧ 365 * d ≤ s ∧
      (s < 365 * d + 365 ∨ d = 3 ∧ s = 365 * d + 365) := ⟨_, rfl, by omega⟩
  obtain ⟨d, hd, hd0, hd3, hdlo, hdhi⟩ := h1
  simp only [hd]
  have hq4 : (400 * a + 100 * b + 4 * c + d) / 4 = 100 * a + 25 * b + c := by omega
  have hq100 : (400 * a + 100 * b + 4 * c + d) / 100 = 4 * a + b := by omega
  have hfirst : daysBeforeYear (400 * a + 100 * b + 4 * c + d + 1) = n - (s - 365 * d) := by
    unfold daysBeforeYear
    rw [Int.add_sub_cancel]
    omega
  have hlast : s - 365 * d < yearLength (isLeap (400 * a + 100 * b + 4 * c + d + 1)) := by
    rcases hdhi with hlt | ⟨rfl, heq⟩
    · unfold yearLength
      split <;> omega
    · rw [isLeap_fourth (by omega)]
      show _ < ((366 : Nat) : Int)
      omega
  have hnext := daysBeforeYear_succ (400 * a + 100 * b + 4 * c + d + 1)
  omega

theorem yearOf_eq {y n : Int} (hlo : daysBeforeYear y ≤ n) (hhi : n < daysBeforeYear (y + 1)) :
    yearOf n = y := by
  obtain ⟨hlo', hhi'⟩ := yearOf_spec n
  rcases Int.lt_trichotomy (yearOf n) y with h | h | h
  · have := daysBeforeYear_mono (Int.add_one_le_of_lt h)
    omega
  · exact h
  · have := daysBeforeYear_mono (Int.add_one_le_of_lt h)
    omega

theorem yearOf_mono {m n : Int} (h : m ≤ n) : yearOf m ≤ yearOf n := by
  obtain ⟨hlo, -⟩ := yearOf_spec m
  obtain ⟨-, hhi⟩ := yearOf_spec n
  apply Int.not_lt.mp
  intro hlt
  have := daysBeforeYear_mono (y := yearOf n + 1) (z := yearOf m) (by omega)
  omega

/-- Less than a year later it is the same year or the next. -/
theorem yearOf_le_succ {m n : Int} (h : n < m + 365) : yearOf n ≤ yearOf m + 1 := by
  obtain ⟨-, hhi⟩ := yearOf_spec m
  obtain ⟨hlo, -⟩ := yearOf_spec n
  apply Int.not_lt.mp
  intro hlt
  have hmono := daysBeforeYear_mono (y := yearOf m + 1 + 1) (z := yearOf n) (by omega)
  rw [daysBeforeYear_succ (yearOf m + 1)] at hmono
  have hlen : 365 ≤ yearLength (isLeap (yearOf m + 1)) := by
    unfold yearLength
    split <;> omega
  omega

/-! ## Months -/

theorem monthDay_spec : ∀ leap : Bool, ∀ yday < yearLength leap,
    1 ≤ (monthDay leap yday).1 ∧ (monthDay leap yday).1 ≤ 12 ∧ 1 ≤ (monthDay leap yday).2 ∧
    (monthDay leap yday).2 ≤ daysIn leap (monthDay leap yday).1 ∧
    daysBeforeMonth leap (monthDay leap yday).1 + (monthDay leap yday).2 = yday + 1 := by
  decide +kernel

theorem monthDay_eq : ∀ leap : Bool, ∀ m < 12, ∀ d < daysIn leap (m + 1),
    daysBeforeMonth leap (m + 1) + d < yearLength leap ∧
      monthDay leap (daysBeforeMonth leap (m + 1) + d) = (m + 1, d + 1) := by
  decide +kernel

/-! ## Dates -/

theorem valid_dateOf (n : Int) : Valid (dateOf n).1 (dateOf n).2.1 (dateOf n).2.2 ∧
    dayNumber (dateOf n).1 (dateOf n).2.1 (dateOf n).2.2 = n := by
  obtain ⟨hlo, hhi⟩ := yearOf_spec n
  rw [daysBeforeYear_succ] at hhi
  have hyday : (n - daysBeforeYear (yearOf n)).toNat < yearLength (isLeap (yearOf n)) := by omega
  obtain ⟨hm, hm', hd, hd', hsum⟩ := monthDay_spec _ _ hyday
  refine ⟨⟨hm, hm', hd, hd'⟩, ?_⟩
  simp only [dayNumber, dateOf]
  omega

theorem dateOf_dayNumber {y : Int} {m d : Nat} (h : Valid y m d) :
    dateOf (dayNumber y m d) = (y, m, d) := by
  obtain ⟨hm, hm', hd, hd'⟩ := h
  obtain ⟨k, rfl⟩ : ∃ k, m = k + 1 := ⟨m - 1, by omega⟩
  obtain ⟨e, rfl⟩ : ∃ e, d = e + 1 := ⟨d - 1, by omega⟩
  obtain ⟨hlt, hback⟩ := monthDay_eq (isLeap y) k (by omega) e (by omega)
  have hnum : dayNumber y (k + 1) ((e + 1 : Nat) : Int) =
      daysBeforeYear y + ((daysBeforeMonth (isLeap y) (k + 1) + e : Nat) : Int) := by
    simp only [dayNumber]
    omega
  have hyear : yearOf (dayNumber y (k + 1) ((e + 1 : Nat) : Int)) = y := by
    apply yearOf_eq
    · omega
    · rw [daysBeforeYear_succ]
      omega
  have hyday : (daysBeforeYear y + ((daysBeforeMonth (isLeap y) (k + 1) + e : Nat) : Int) -
      daysBeforeYear y).toNat = daysBeforeMonth (isLeap y) (k + 1) + e := by omega
  simp only [dateOf, hyear]
  rw [hnum, hyday, hback]

theorem dayNumber_succ (y : Int) (m : Nat) (d : Int) :
    dayNumber y m d + 365 ≤ dayNumber (y + 1) m d := by
  have hleap : ∀ leap : Bool, daysBeforeMonth leap m + 365 ≤ daysBefore m + yearLength leap := by
    intro leap
    cases leap with
    | false => simp [daysBeforeMonth, yearLength]
    | true =>
      simp only [daysBeforeMonth, yearLength, if_true]
      split <;> omega
  have hthis := hleap (isLeap y)
  have hnext : daysBefore m ≤ daysBeforeMonth (isLeap (y + 1)) m := Nat.le_add_right _ _
  simp only [dayNumber, daysBeforeYear_succ]
  omega

theorem Valid.other {y z : Int} {m d : Nat} (h : Valid y m d) (hleap : (m, d) ≠ (2, 29)) :
    Valid z m d := by
  obtain ⟨hm, hm', hd, hd'⟩ := h
  refine ⟨hm, hm', hd, ?_⟩
  by_cases h2 : m = 2
  · subst h2
    have hne : d ≠ 29 := fun he => hleap (he ▸ rfl)
    have hmax : ∀ leap : Bool, 28 ≤ daysIn leap 2 ∧ daysIn leap 2 ≤ 29 := by decide
    have := hmax (isLeap y)
    have := hmax (isLeap z)
    omega
  · simpa [daysIn, h2] using hd'

theorem isLeap_succ {y : Int} (h : isLeap y = true) : isLeap (y + 1) = false := by
  simp only [isLeap, Bool.and_eq_true, beq_iff_eq] at h
  simp only [isLeap, Bool.and_eq_false_iff, beq_eq_false_iff_ne]
  omega

theorem Valid.isLeap {y : Int} (h : Valid y 2 29) : isLeap y = true := by
  cases hl : Calendar.isLeap y with
  | true => rfl
  | false =>
    have := h.2.2.2
    rw [hl] at this
    exact absurd this (by decide)

end YominsAgent.Lib.Calendar
