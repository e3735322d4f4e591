import YominsAgent.Go.Decimal
import YominsAgent.Go.Duration
import YominsAgent.Lib.Calendar

/- Times in UTC: nanoseconds since 1 January 1970, and their dates.

   Correspondence (Go ↔ Lean):
     `Time.Date`, `Time.Year`, `Time.Clock` ↔ `dateOf`, `year`, `clockOf`
     `time.Date`, `Time.AddDate`            ↔ `date`, `addDate`
     `Time.Format("Jan _2 15:04:05")`       ↔ `formatStamp`
     `time.Parse` with that layout          ↔ `parseStamp`
     `time.Parse` with `time.RFC3339Nano`   ↔ `parseRFC3339`
     `Time.Format(time.RFC3339Nano)`        ↔ `formatRFC3339Nano`
     `lookup`, `skip`, `getnum`             ↔ `lookupMonth`, `skipSpace`, `skipColon`, `getnum`
   `time.Parse` gives a time without a year the year 0. -/
namespace YominsAgent.Go
open Lib

/-! ## Dates -/

def dayLength : Int := 24 * 60 * minute

/-- The number of 1 January 1970. -/
def unixDay : Int := 719162

def dateOf (t : Int) : Int × Nat × Nat := Calendar.dateOf (t / dayLength + unixDay)

def year (t : Int) : Int := (dateOf t).1

/-- Hours, minutes, seconds and nanoseconds of the day, in nanoseconds. -/
def clockOf (t : Int) : Int := t % dayLength

/-- Months beyond December and days beyond the end of a month run over. -/
def date (y m d clock : Int) : Int :=
  (Calendar.dayNumber (y + (m - 1) / 12) (((m - 1) % 12).toNat + 1) d - unixDay) * dayLength + clock

def addDate (t years months days : Int) : Int :=
  let (y, m, d) := dateOf t
  date (y + years) (m + months) (d + days) (clockOf t)

/-! ## The layout "Jan _2 15:04:05" -/

def shortMonthNames : List Str :=
  ["Jan", "Feb", "Mar", "Apr", "May", "Jun", "Jul", "Aug", "Sep", "Oct", "Nov", "Dec"].map
    String.toList

def pad2 (n : Nat) : Str := [(n / 10).digitChar, (n % 10).digitChar]

def formatDay (d : Nat) : Str := if d < 10 then ' ' :: Nat.toDigits 10 d else Nat.toDigits 10 d

def formatStamp (t : Int) : Str :=
  let (_, m, d) := dateOf t
  let s := (clockOf t / second).toNat
  shortMonthNames.getD (m - 1) [] ++ ' ' :: (formatDay d ++ ' ' ::
    (pad2 (s / 3600) ++ ':' :: (pad2 (s / 60 % 60) ++ ':' :: pad2 (s % 60))))

/-- A number with at least `width` digits. -/
def padded (width n : Nat) : Str :=
  List.replicate (width - (Nat.toDigits 10 n).length) '0' ++ Nat.toDigits 10 n

def formatYear (y : Int) : Str := if y < 0 then '-' :: padded 4 y.natAbs else padded 4 y.natAbs

/-- The nanoseconds of a second, without zeros at the end. -/
def formatFraction (ns : Nat) : Str :=
  if ns = 0 then [] else '.' :: trimRightFunc (· == '0') (padded 9 ns)

def formatRFC3339Nano (t : Int) : Str :=
  let (y, m, d) := dateOf t
  let s := (clockOf t / second).toNat
  formatYear y ++ '-' :: (pad2 m ++ '-' :: (pad2 d ++ 'T' :: (pad2 (s / 3600) ++ ':' ::
    (pad2 (s / 60 % 60) ++ ':' :: (pad2 (s % 60) ++ (formatFraction (clockOf t % second).toNat ++
      ['Z']))))))

def foldEq : Str → Str → Bool
  | [], [] => true
  | a :: s, b :: t => a.toLower == b.toLower && foldEq s t
  | _, _ => false

def lookupIn : List Str → Nat → Str → Option (Nat × Str)
  | [], _, _ => none
  | name :: names, i, s =>
    if foldEq (s.take name.length) name then some (i, s.drop name.length)
    else lookupIn names (i + 1) s

def lookupMonth (s : Str) : Option (Nat × Str) := lookupIn shortMonthNames 1 s

def skipSpace (s : Str) : Option Str :=
  match s with
  | [] => some []
  | c :: _ => if c = ' ' then some (s.dropWhile (· == ' ')) else none

def skipColon : Str → Option Str
  | ':' :: s => some s
  | _ => none

/-- A number of two digits, or of one where the layout has no leading zero. -/
def getnum (fixed : Bool) : Str → Option (Nat × Str)
  | a :: b :: s =>
    if a.isDigit then
      if b.isDigit then some (10 * digitVal a + digitVal b, s)
      else if fixed then none else some (digitVal a, b :: s)
    else none
  | [a] => if a.isDigit && !fixed then some (digitVal a, []) else none
  | [] => none

def getnumBelow (bound : Nat) (fixed : Bool) (s : Str) : Option (Nat × Str) :=
  match getnum fixed s with
  | some (n, s) => if n < bound then some (n, s) else none
  | none => none

/-- A fraction of a second that the layout does not have: its nanoseconds, from the first
nine digits. -/
def parseNanoseconds : Str → Nat × Str
  | c :: s =>
    if (c = '.' ∨ c = ',') ∧ (s.head?.any Char.isDigit) then
      let ds := (s.takeWhile Char.isDigit).take 9
      (Nat.ofDigitChars 10 ds 0 * 10 ^ (9 - ds.length), s.dropWhile Char.isDigit)
    else (0, c :: s)
  | [] => (0, [])

def parseStamp (s : Str) : Option Int := do
  let (m, s) ← lookupMonth s
  let s ← skipSpace s
  let (d, s) ← getnum false s
  let s ← skipSpace s
  let (hour, s) ← getnumBelow 24 false s
  let s ← skipColon s
  let (min, s) ← getnumBelow 60 true s
  let s ← skipColon s
  let (sec, s) ← getnumBelow 60 true s
  let (nsec, s) := parseNanoseconds s
  if s = [] ∧ 1 ≤ d ∧ d ≤ Calendar.daysIn (Calendar.isLeap 0) m then
    some (date 0 m d ((3600 * hour + 60 * min + sec : Nat) * second + nsec))
  else none

/-! ## The layout of RFC 3339 -/

def skipChar (c : Char) : Str → Option Str
  | a :: s => if a = c then some s else none
  | [] => none

def getyear : Str → Option (Nat × Str)
  | a :: b :: c :: d :: s =>
    if [a, b, c, d].all Char.isDigit then some (Nat.ofDigitChars 10 [a, b, c, d] 0, s) else none
  | _ => none

/-- `Z` or an offset, in seconds. -/
def getzone : Str → Option (Int × Str)
  | 'Z' :: s => some (0, s)
  | sign :: a :: b :: ':' :: c :: d :: s => do
    let (hour, _) ← getnum true [a, b]
    let (min, _) ← getnum true [c, d]
    if hour ≤ 24 ∧ min ≤ 60 then
      if sign = '+' then some (3600 * hour + 60 * min, s)
      else if sign = '-' then some (-(3600 * hour + 60 * min : Int), s)
      else none
    else none
  | _ => none

/-- `time.Parse` with `time.RFC3339` or `time.RFC3339Nano`: the fraction may always be there
or not. -/
def parseRFC3339 (s : Str) : Option Int := do
  let (y, s) ← getyear s
  let s ← skipChar '-' s
  let (m, s) ← getnum true s
  let s ← skipChar '-' s
  let (d, s) ← getnum true s
  let s ← skipChar 'T' s
  let (hour, s) ← getnumBelow 24 false s
  let s ← skipColon s
  let (min, s) ← getnumBelow 60 true s
  let s ← skipColon s
  let (sec, s) ← getnumBelow 60 true s
  let (nsec, s) := parseNanoseconds s
  let (zone, s) ← getzone s
  if s = [] ∧ 1 ≤ m ∧ m ≤ 12 ∧ 1 ≤ d ∧ d ≤ Calendar.daysIn (Calendar.isLeap y) m then
    some (date y m d ((3600 * hour + 60 * min + sec : Nat) * second + nsec) - zone * second)
  else none

/-! ## Dates and times -/

theorem valid_dateOf (t : Int) : Calendar.Valid (dateOf t).1 (dateOf t).2.1 (dateOf t).2.2 :=
  (Calendar.valid_dateOf _).1

theorem date_eq {m : Nat} (hm : 1 ≤ m ∧ m ≤ 12) (y d clock : Int) :
    date y m d clock = (Calendar.dayNumber y m d - unixDay) * dayLength + clock := by
  have hdiv : ((m : Int) - 1) / 12 = 0 := by omega
  have hmod : (((m : Int) - 1) % 12).toNat + 1 = m := by omega
  rw [date, hdiv, hmod, Int.add_zero]

theorem dateOf_date {y : Int} {m d : Nat} (h : Calendar.Valid y m d) {clock : Int}
    (hlo : 0 ≤ clock) (hhi : clock < dayLength) :
    dateOf (date y m d clock) = (y, m, d) ∧ clockOf (date y m d clock) = clock := by
  rw [date_eq ⟨h.1, h.2.1⟩]
  generalize hn : Calendar.dayNumber y m d = n
  have hdiv : ((n - unixDay) * dayLength + clock) / dayLength = n - unixDay := by
    rw [Int.add_comm, Int.add_mul_ediv_right _ _ (by omega), Int.ediv_eq_zero_of_lt hlo hhi]
    omega
  have hmod : ((n - unixDay) * dayLength + clock) % dayLength = clock := by
    rw [Int.add_comm, Int.add_mul_emod_self_right, Int.emod_eq_of_lt hlo hhi]
  refine ⟨?_, hmod⟩
  rw [dateOf, hdiv, Int.sub_add_cancel, ← hn]
  exact Calendar.dateOf_dayNumber h

theorem date_dateOf (t : Int) :
    date (dateOf t).1 (dateOf t).2.1 (dateOf t).2.2 (clockOf t) = t := by
  rw [date_eq ⟨(valid_dateOf t).1, (valid_dateOf t).2.1⟩]
  have hnum := (Calendar.valid_dateOf (t / dayLength + unixDay)).2
  rw [dateOf, hnum, Int.add_sub_cancel]
  exact Int.ediv_mul_add_emod t dayLength

theorem clockOf_nonneg (t : Int) : 0 ≤ clockOf t := Int.emod_nonneg t (by decide)

theorem clockOf_lt (t : Int) : clockOf t < dayLength := Int.emod_lt_of_pos t (by decide)

/-! ## The layout reads back -/

theorem digitChar_spec : ∀ k < 10, k.digitChar.isDigit = true ∧ digitVal k.digitChar = k := by
  decide

theorem getnum_pad2 {n : Nat} (hn : n < 100) (fixed : Bool) (r : Str) :
    getnum fixed (pad2 n ++ r) = some (n, r) := by
  obtain ⟨htens, hval⟩ := digitChar_spec (n / 10) (by omega)
  obtain ⟨hones, hval'⟩ := digitChar_spec (n % 10) (by omega)
  simp only [pad2, List.cons_append, getnum, htens, hones, if_true]
  congr 2
  omega

theorem getnumBelow_pad2 {n bound : Nat} (hn : n < bound) (hbound : bound ≤ 100) (fixed : Bool)
    (r : Str) : getnumBelow bound fixed (pad2 n ++ r) = some (n, r) := by
  simp only [getnumBelow, getnum_pad2 (Nat.lt_of_lt_of_le hn hbound), hn, if_true]

theorem lookupMonth_name : ∀ m < 12, ∀ r : Str,
    lookupMonth (shortMonthNames.getD m [] ++ r) = some (m + 1, r)
  | 0, _, _ => rfl
  | 1, _, _ => rfl
  | 2, _, _ => rfl
  | 3, _, _ => rfl
  | 4, _, _ => rfl
  | 5, _, _ => rfl
  | 6, _, _ => rfl
  | 7, _, _ => rfl
  | 8, _, _ => rfl
  | 9, _, _ => rfl
  | 10, _, _ => rfl
  | 11, _, _ => rfl
  | n + 12, h, _ => absurd h (by omega)

/-- The blank of the layout takes the padding of the day with it. -/
theorem skipSpace_pad2 {n : Nat} (hn : n < 100) (r : Str) :
    skipSpace (' ' :: (pad2 n ++ r)) = some (pad2 n ++ r) := by
  have hne : (n / 10).digitChar ≠ ' ' := by
    intro he
    have hdigit := (digitChar_spec (n / 10) (by omega)).1
    rw [he] at hdigit
    cases hdigit
  simp [skipSpace, pad2]

theorem day_formatDay {d : Nat} (hd : d < 100) (r : Str) (hr : r.head? = some ' ') :
    ∃ s, skipSpace (' ' :: (formatDay d ++ r)) = some s ∧ getnum false s = some (d, r) := by
  unfold formatDay
  split
  · next hlt =>
    obtain ⟨hdigit, hval⟩ := digitChar_spec d hlt
    obtain ⟨c, r, rfl⟩ : ∃ c s, r = c :: s := by
      cases r with
      | nil => cases hr
      | cons c s => exact ⟨c, s, rfl⟩
    obtain rfl : c = ' ' := Option.some.inj hr
    rw [Nat.toDigits_of_lt_base hlt]
    refine ⟨d.digitChar :: ' ' :: r, by simp [skipSpace], ?_⟩
    simp [getnum, hdigit, hval]
  · next hge =>
    have htwo : Nat.toDigits 10 d = pad2 d := by
      rw [Nat.toDigits_of_base_le (by decide) (by omega), Nat.toDigits_of_lt_base (by omega)]
      rfl
    rw [htwo]
    exact ⟨_, skipSpace_pad2 hd r, getnum_pad2 hd false r⟩

theorem daysIn_le_leap : ∀ leap : Bool, ∀ m < 13, Calendar.daysIn leap m ≤ Calendar.daysIn true m ∧
    Calendar.daysIn true m < 100 := by
  decide

/-- The text of a time reads back as the same time of the year 0, which is a leap year, up
to the fraction of the second. -/
theorem parseStamp_formatStamp (t : Int) : parseStamp (formatStamp t) =
      some (date 0 (dateOf t).2.1 (dateOf t).2.2 (clockOf t / second * second)) := by
  obtain ⟨hm, hm', hd, hd'⟩ := valid_dateOf t
  have hclock := clockOf_nonneg t
  have hclock' := clockOf_lt t
  unfold formatStamp
  generalize dateOf t = z at hm hm' hd hd' ⊢
  obtain ⟨y, m, d⟩ := z
  simp only at hm hm' hd hd' ⊢
  obtain ⟨hleap, hsmall⟩ := daysIn_le_leap (Calendar.isLeap y) m (by omega)
  -- the seconds of the day
  obtain ⟨s, hs⟩ : ∃ s : Nat, (s : Int) = clockOf t / second :=
    ⟨(clockOf t / second).toNat, Int.toNat_of_nonneg (Int.ediv_nonneg hclock (by decide))⟩
  have hsday : s < 86400 := by
    have : clockOf t / second < 86400 := Int.ediv_lt_of_lt_mul (by decide) hclock'
    omega
  rw [← hs, Int.toNat_natCast]
  obtain ⟨k, rfl⟩ : ∃ k, m = k + 1 := ⟨m - 1, by omega⟩
  obtain ⟨x, hskip, hday⟩ := day_formatDay (d := d) (by omega)
    (' ' :: (pad2 (s / 3600) ++ ':' :: (pad2 (s / 60 % 60) ++ ':' :: pad2 (s % 60)))) rfl
  have hsec := getnumBelow_pad2 (show s % 60 < 60 by omega) (by omega) true []
  rw [List.append_nil] at hsec
  simp only [parseStamp, Nat.add_sub_cancel, lookupMonth_name k (by omega), hskip, hday,
    skipSpace_pad2 (show s / 3600 < 100 by omega),
    getnumBelow_pad2 (show s / 3600 < 24 by omega) (by omega),
    getnumBelow_pad2 (show s / 60 % 60 < 60 by omega) (by omega), skipColon, hsec,
    parseNanoseconds, Option.bind_eq_bind, Option.bind_some]
  have hleap0 : Calendar.isLeap 0 = true := rfl
  rw [if_pos ⟨trivial, hd, hleap0 ▸ Nat.le_trans hd' hleap⟩]
  have hsum : 3600 * (s / 3600) + 60 * (s / 60 % 60) + s % 60 = s := by omega
  rw [hsum]
  simp

end YominsAgent.Go
