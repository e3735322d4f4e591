import YominsAgent.Go.Time

/- The year of a timestamp without one (`yearless` of `parse.go`), with UTC as the local zone.

   The text is read into the year 0, which is a leap year, moved to the current year and, if that is
   more than a day ahead, one year back. A leap day moved to a year without one is 1 March, and
   stays 1 March on the way back (`leap_day_moved`). That is the only date for which a text at most
   363 days old comes out wrong (`yearless_iff`). -/
namespace YominsAgent.Logs
open Go Lib

/-- `time.Time{}`, 1 January of the year 1. -/
def zeroTime : Int := date 1 1 1 0

/-- `yearless("Jan _2 15:04:05", s)` with the clock at `now`. -/
def yearless (now : Int) (s : Str) : Int :=
  match parseStamp s with
  | none => zeroTime
  | some t =>
    let t := addDate t (year now) 0 0
    if now + 24 * 60 * minute < t then addDate t (-1) 0 0 else t

variable {t n : Int}

/-- To the second, the clock of a time is that of its text. -/
theorem clockOf_seconds (h : second ∣ t) : clockOf t / second * second = clockOf t := by
  have hday : second ∣ dayLength := by decide
  apply Int.ediv_mul_cancel
  rw [clockOf, Int.emod_def]
  exact Int.dvd_sub h (Int.dvd_trans hday (Int.dvd_mul_right _ _))

/-- The text of a time with its clock is read into the current year. -/
theorem stamp_moved (h : second ∣ t) (n : Int) :
    ∃ z, parseStamp (formatStamp t) = some z ∧
      addDate z (year n) 0 0 = date (year n) (dateOf t).2.1 (dateOf t).2.2 (clockOf t) := by
  refine ⟨_, parseStamp_formatStamp t, ?_⟩
  rw [clockOf_seconds h]
  -- every date is one of the leap year 0
  have hvalid : Calendar.Valid 0 (dateOf t).2.1 (dateOf t).2.2 := by
    obtain ⟨hm, hm', hd, hd'⟩ := valid_dateOf t
    exact ⟨hm, hm', hd, Nat.le_trans hd' (daysIn_le_leap _ _ (by omega)).1⟩
  obtain ⟨hdate, hclock⟩ := dateOf_date hvalid (clockOf_nonneg t) (clockOf_lt t)
  simp only [addDate, hdate, hclock, Int.zero_add, Int.add_zero]

/-- A time at most 363 days ago is of this year or the last. -/
theorem year_of_recent (hle : t ≤ n) (hago : n ≤ t + 363 * dayLength) :
    year n = year t ∨ year n = year t + 1 := by
  have hpos : (0 : Int) < dayLength := by decide
  have hlo : t / dayLength ≤ n / dayLength := Int.ediv_le_ediv hpos hle
  have hhi : n / dayLength ≤ t / dayLength + 363 := by
    have := Int.ediv_le_ediv hpos hago
    rwa [Int.add_mul_ediv_right _ _ (by omega)] at this
  have hmono := Calendar.yearOf_mono (Int.add_le_add_right hlo unixDay)
  have hsucc := Calendar.yearOf_le_succ (m := t / dayLength + unixDay)
    (n := n / dayLength + unixDay) (by omega)
  have hyear : ∀ u, year u = Calendar.yearOf (u / dayLength + unixDay) := fun _ => rfl
  rw [hyear, hyear]
  omega

/-- The date of a recent time moved to the next year is more than a day ahead. -/
theorem moved_ahead (hago : n ≤ t + 363 * dayLength) :
    n + 24 * 60 * minute < date (year t + 1) (dateOf t).2.1 (dateOf t).2.2 (clockOf t) := by
  have hmonth : 1 ≤ (dateOf t).2.1 ∧ (dateOf t).2.1 ≤ 12 :=
    ⟨(valid_dateOf t).1, (valid_dateOf t).2.1⟩
  have hnext := Calendar.dayNumber_succ (year t) (dateOf t).2.1 (dateOf t).2.2
  have hself : date (year t) (dateOf t).2.1 (dateOf t).2.2 (clockOf t) = t := date_dateOf t
  have hlen : dayLength = 86400000000000 := by decide
  have hday : 24 * 60 * minute = dayLength := rfl
  rw [date_eq hmonth] at hself ⊢
  rw [hlen] at hself hago
  rw [hlen]
  omega

/-- The leap day moved to the next year is 1 March, and still 1 March on the way back. -/
theorem leapDay_moved {y clock : Int} (h : Calendar.isLeap y = true) (hlo : 0 ≤ clock)
    (hhi : clock < dayLength) :
    addDate (date (y + 1) 2 29 clock) (-1) 0 0 = date y 2 29 clock + dayLength := by
  have hfeb : ∀ z, date z 2 29 clock =
      (Calendar.dayNumber z 2 29 - unixDay) * dayLength + clock :=
    fun z => date_eq (m := 2) (by decide) z 29 clock
  have hmar : ∀ z, date z 3 1 clock =
      (Calendar.dayNumber z 3 1 - unixDay) * dayLength + clock :=
    fun z => date_eq (m := 3) (by decide) z 1 clock
  have h2 : ∀ leap : Bool, Calendar.daysBeforeMonth leap 2 = 31 := by decide
  have h3 : Calendar.daysBeforeMonth false 3 = 59 ∧ Calendar.daysBeforeMonth true 3 = 60 := by
    decide
  have hnext : Calendar.dayNumber (y + 1) 2 29 = Calendar.dayNumber (y + 1) 3 1 := by
    simp only [Calendar.dayNumber, Calendar.isLeap_succ h, h2, h3]
    omega
  have hthis : Calendar.dayNumber y 3 1 = Calendar.dayNumber y 2 29 + 1 := by
    simp only [Calendar.dayNumber, h, h2, h3]
    omega
  have hvalid : Calendar.Valid (y + 1) 3 1 :=
    ⟨by decide, by decide, by decide, by cases Calendar.isLeap (y + 1) <;> decide⟩
  have hmarch : dateOf (date (y + 1) 3 1 clock) = (y + 1, 3, 1) ∧
      clockOf (date (y + 1) 3 1 clock) = clock := dateOf_date hvalid hlo hhi
  rw [hfeb, hnext, ← hmar]
  simp only [addDate, hmarch.1, hmarch.2, Int.add_zero, Int.add_neg_cancel_right]
  calc date y 3 1 clock
      = (Calendar.dayNumber y 2 29 + 1 - unixDay) * dayLength + clock := by rw [hmar, hthis]
    _ = (Calendar.dayNumber y 2 29 - unixDay) * dayLength + clock + dayLength := by
      rw [show Calendar.dayNumber y 2 29 + 1 - unixDay =
        Calendar.dayNumber y 2 29 - unixDay + 1 by omega, Int.add_mul]
      omega
    _ = date y 2 29 clock + dayLength := by rw [hfeb]

/-- A text of a time at most 363 days old gets its year back if and only if it is not that
of a leap day read in the next year. -/
theorem yearless_iff (t n : Int) (hsec : second ∣ t) (hle : t ≤ n)
    (hago : n ≤ t + 363 * dayLength) :
    yearless n (formatStamp t) = t ↔ ¬ ((dateOf t).2 = (2, 29) ∧ year n ≠ year t) := by
  obtain ⟨z, hparse, hmoved⟩ := stamp_moved hsec n
  have hself : date (year t) (dateOf t).2.1 (dateOf t).2.2 (clockOf t) = t := date_dateOf t
  simp only [yearless, hparse, hmoved]
  rcases year_of_recent hle hago with hyear | hyear
  · -- the same year: the text is not ahead
    rw [hyear, hself, if_neg]
    · simp
    · have : (0 : Int) < 24 * 60 * minute := by decide
      omega
  · rw [hyear, if_pos (moved_ahead hago)]
    have hne : year t + 1 ≠ year t := by omega
    simp only [hne, ne_eq, not_false_eq_true, and_true]
    have hvalid := valid_dateOf t
    by_cases hleap : (dateOf t).2 = (2, 29)
    · -- 1 March of the next year is 1 March of this one on the way back
      have hm : (dateOf t).2.1 = 2 := congrArg Prod.fst hleap
      have hd : (dateOf t).2.2 = 29 := congrArg Prod.snd hleap
      have hvalid' : Calendar.Valid (year t) 2 29 := hm ▸ hd ▸ valid_dateOf t
      have hback := leapDay_moved hvalid'.isLeap (clockOf_nonneg t) (clockOf_lt t)
      have hself' : date (year t) 2 29 (clockOf t) = t := by
        rw [hm, hd] at hself
        exact hself
      rw [hself'] at hback
      have hpos : (0 : Int) < dayLength := by decide
      rw [hm, hd]
      refine iff_of_false ?_ (fun hno => hno hleap)
      intro heq
      have : t + dayLength = t := hback.symm.trans heq
      omega
    · simp only [hleap, not_false_eq_true, iff_true]
      obtain ⟨hdate, hclock⟩ := dateOf_date (hvalid.other (z := year t + 1) hleap)
        (clockOf_nonneg t) (clockOf_lt t)
      simp only [addDate, hdate, hclock, Int.add_zero]
      rw [Int.add_neg_cancel_right, hself]

/-- A line from December read in January. -/
theorem december_in_january :
    yearless (date 2025 1 1 (3600 * second)) (formatStamp (date 2024 12 31 (82800 * second))) =
      date 2024 12 31 (82800 * second) :=
  (yearless_iff (date 2024 12 31 (82800 * second)) (date 2025 1 1 (3600 * second))
    (by decide) (by decide) (by decide)).mpr (by decide)

/-- A line from the leap day read in the next January is dated 1 March. -/
theorem leap_day_moved :
    second ∣ date 2024 2 29 (43200 * second) ∧
    date 2024 2 29 (43200 * second) ≤ date 2025 1 10 0 ∧
    date 2025 1 10 0 ≤ date 2024 2 29 (43200 * second) + 363 * dayLength ∧
    yearless (date 2025 1 10 0) (formatStamp (date 2024 2 29 (43200 * second))) =
      date 2024 3 1 (43200 * second) ∧
    date 2024 3 1 (43200 * second) ≠ date 2024 2 29 (43200 * second) := by
  decide

end YominsAgent.Logs
