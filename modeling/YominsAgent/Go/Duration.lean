import YominsAgent.Go.Strings
import Mathlib.Data.Rat.Floor

/- `time.ParseDuration`.

   The whole part of a number is exact; its fraction goes through `float64`, here a rational rounded
   to 53 bits (`toFloat`). The values that occur are far from the ends of the exponent's range.

   Correspondence (Go ↔ Lean):
     `time.ParseDuration` ↔ `parseDuration` -/
namespace YominsAgent.Go

/-- The integer nearest to `q`, the even one of two. -/
def roundEven (q : ℚ) : Int :=
  let below := q.floor
  let rest := q - below
  if rest < 1 / 2 ∨ (rest = 1 / 2 ∧ below % 2 = 0) then below else below + 1

/-- The exponent of the highest bit of a positive `q`. -/
def binaryExponent (q : ℚ) : Int :=
  let e : Int := (Nat.log2 q.num.natAbs : Int) - Nat.log2 q.den
  if q < (2 : ℚ) ^ e then e - 1 else e

/-- The `float64` nearest to a non-negative `q`. -/
def toFloat (q : ℚ) : ℚ :=
  if q = 0 then 0
  else
    let ulp : ℚ := (2 : ℚ) ^ (binaryExponent q - 52)
    roundEven (q / ulp) * ulp

def digitVal (c : Char) : Nat := c.toNat - '0'.toNat

/-- The integer at the start of the text; `none` when it does not fit. -/
def leadingInt : Nat → Str → Option (Nat × Str)
  | x, [] => some (x, [])
  | x, c :: s =>
    if !c.isDigit then some (x, c :: s)
    else if x > 2 ^ 63 / 10 then none
    else if x * 10 + digitVal c > 2 ^ 63 then none
    else leadingInt (x * 10 + digitVal c) s

/-- The digits of a fraction and the power of ten they are parts of; digits that
no longer fit are dropped. -/
def leadingFraction : Nat → Nat → Bool → Str → Nat × Nat × Str
  | x, scale, _, [] => (x, scale, [])
  | x, scale, overflow, c :: s =>
    if !c.isDigit then (x, scale, c :: s)
    else if overflow || x > (2 ^ 63 - 1) / 10 || x * 10 + digitVal c > 2 ^ 63 then
      leadingFraction x scale true s
    else leadingFraction (x * 10 + digitVal c) (scale * 10) false s

def unitMap : List (Str × Nat) :=
  [("ns".toList, 1), ("us".toList, 1000), ("µs".toList, 1000), ("μs".toList, 1000),
    ("ms".toList, 1000000), ("s".toList, 1000000000), ("m".toList, 60000000000),
    ("h".toList, 3600000000000)]

/-- What the fraction `f / scale` of a unit adds, in nanoseconds. -/
def fractionOf (f scale unit : Nat) : Nat :=
  (toFloat (toFloat f * toFloat (toFloat unit / toFloat scale))).floor.toNat

def durationPart (s : Str) : Option (Nat × Str) := do
  let (v, rest) ← leadingInt 0 s
  let digitsBefore := rest.length ≠ s.length
  let (f, scale, rest, digitsAfter) := match rest with
    | '.' :: r =>
      let (f, scale, r') := leadingFraction 0 1 false r
      (f, scale, r', decide (r'.length ≠ r.length))
    | r => (0, 1, r, false)
  if !digitsBefore && !digitsAfter then none
  else
    let name := rest.takeWhile fun c => !(c == '.' || c.isDigit)
    if name.isEmpty then none
    else
      let unit ← unitMap.lookup name
      if v > 2 ^ 63 / unit then none
      else
        let v := v * unit + (if f > 0 then fractionOf f scale unit else 0)
        if v > 2 ^ 63 then none else some (v, rest.drop name.length)

/-- The sum of the parts; `fuel` bounds their number. -/
def durationParts : Nat → Nat → Str → Option Nat
  | _, d, [] => some d
  | 0, _, _ :: _ => none
  | fuel + 1, d, c :: s => do
    let (v, rest) ← durationPart (c :: s)
    if d + v > 2 ^ 63 then none else durationParts fuel (d + v) rest

/-- `time.ParseDuration`. -/
def parseDuration (s : Str) : Option Int :=
  let (neg, s) := match s with
    | '-' :: r => (true, r)
    | '+' :: r => (false, r)
    | r => (false, r)
  if s = ['0'] then some 0
  else if s.isEmpty then none
  else match durationParts s.length 0 s with
    | none => none
    | some d => if neg then some (-d) else if d > 2 ^ 63 - 1 then none else some d

end YominsAgent.Go
