import Mathlib.Data.List.Forall2
import Mathlib.Tactic.IntervalCases
import YominsAgent.Go.Strings
import YominsAgent.Lib.Regexp

/- What the patterns of the agent are made of, as Go's `regexp` reads them: the classes `\s`, `\w`
   and `\d` are ASCII, `\b` looks at ASCII word characters only, and under `(?i)` a letter stands
   for every character of its simple case folding. Besides its two cases that is the Kelvin sign for
   `k` and the long s for `s`.

   `strings.ToLower` maps rune by rune. It is only used to look for ASCII words, so it matters which
   runes become ASCII: the capitals, the Kelvin sign and the dotted capital I. -/
namespace YominsAgent.Go
open Lib List

/-- U+017F. -/
def longS : Char := Char.ofNat 0x17F

/-- U+212A. -/
def kelvin : Char := Char.ofNat 0x212A

/-- `\s` -/
def isBlankChar (c : Char) : Bool :=
  c.toNat == 0x20 || c.toNat == 9 || c.toNat == 10 || c.toNat == 12 || c.toNat == 13

/-- The characters of `\s`. -/
def blankChars : Str := [' ', '\t', '\n', '\x0c', '\r']

/-- `\w` -/
def isWordChar (c : Char) : Bool := c.isAlphanum || c == '_'

/-- `\b` -/
def wordBoundary : Regex Char := .look fun x y => x.any isWordChar != y.any isWordChar

/-- `^` -/
def beginText : Regex Char := .look fun x _ => x.isNone

/-- `$` -/
def endText : Regex Char := .look fun _ y => y.isNone

/-- `\S` -/
def isNonBlank (c : Char) : Bool := !isBlankChar c

/-- `.` -/
def isAnyChar (c : Char) : Bool := c != '\n'

/-- Whether `c` folds to the lower-case character `x`. -/
def foldsTo (x c : Char) : Bool :=
  c == x || c == x.toUpper || (x == 'k' && c == kelvin) || (x == 's' && c == longS)

/-- A word under `(?i)`. -/
def word : Str → Regex Char
  | [] => .empty
  | x :: w => .seq (.set (foldsTo x)) (word w)

def anyOf (s : Str) : Regex Char := .set s.contains

/-- `unicode.ToLower`, for the runes it makes ASCII. -/
def lowerRune (c : Char) : Char :=
  if c == kelvin then 'k' else if c.toNat == 0x130 then 'i' else c.toLower

/-- `strings.ToLower`, to look for ASCII words. -/
def toLower (s : Str) : Str := s.map lowerRune

/-! ## Classes -/

variable {c : Char}

theorem isBlankChar_iff : isBlankChar c = true ↔ c ∈ blankChars := by
  simp only [isBlankChar, blankChars, Bool.or_eq_true, beq_iff_eq, mem_cons, not_mem_nil,
    or_false, ← Char.toNat_inj, or_assoc]
  rfl

variable {f : Char → Bool}

theorem not_blank (hf : blankChars.any f = false) (h : f c = true) : isBlankChar c = false := by
  rw [Bool.eq_false_iff]
  intro hb
  exact any_eq_false.mp hf c (isBlankChar_iff.mp hb) h

theorem isDigit_iff : c.isDigit = true ↔ c ∈ "0123456789".toList := by
  constructor
  · intro h
    simp only [Char.isDigit, Bool.and_eq_true, decide_eq_true_eq] at h
    have hnat : 48 ≤ c.toNat ∧ c.toNat ≤ 57 := h
    have hc : c = Char.ofNat c.toNat := (Char.ofNat_toNat c).symm
    obtain ⟨hlo, hhi⟩ := hnat
    generalize c.toNat = n at hc hlo hhi
    subst hc
    interval_cases n <;> decide
  · exact all_eq_true.mp (by decide : "0123456789".toList.all Char.isDigit = true) c

theorem not_digit (hf : "0123456789".toList.any f = false) (h : f c = true) :
    c.isDigit = false := by
  rw [Bool.eq_false_iff]
  intro hd
  exact any_eq_false.mp hf c (isDigit_iff.mp hd) h

/-! ## Words -/

/-- A text that folds to `w`. -/
abbrev Folds (w u : Str) : Prop := List.Forall₂ (fun x c => foldsTo x c = true) w u

variable {w b u a : Str}

@[simp] theorem accepts_word : Accepts (word w) b u a ↔ Folds w u := by
  induction w generalizing b u with
  | nil => rw [word, accepts_empty, Folds, forall₂_nil_left_iff]
  | cons x w ih =>
    rw [word, accepts_seq, Folds, forall₂_cons_left_iff]
    constructor
    · rintro ⟨u, v, rfl, hu, hv⟩
      obtain ⟨c, rfl, hc⟩ := accepts_set.mp hu
      exact ⟨c, v, hc, ih.mp hv, rfl⟩
    · rintro ⟨c, v, hc, hv, rfl⟩
      exact ⟨[c], v, rfl, .set hc, ih.mpr hv⟩

variable {s : Str}

@[simp] theorem accepts_anyOf : Accepts (anyOf s) b u a ↔ ∃ c ∈ s, u = [c] := by
  simp only [anyOf, accepts_set, contains_iff_mem]
  constructor
  · rintro ⟨c, hu, hc⟩
    exact ⟨c, hc, hu⟩
  · rintro ⟨c, hc, hu⟩
    exact ⟨c, hu, hc⟩

theorem contains_iff : contains s w = true ↔ w <:+: s := by
  induction s with
  | nil => simp [contains]
  | cons c s ih => simp [contains, ih, infix_cons_iff, isPrefixOf_iff_prefix]

def letters : Str := "abcdefghijklmnopqrstuvwxyz".toList

variable {x : Char}

theorem lowerRune_letter (hx : x ∈ letters) : lowerRune x = x ∧ lowerRune x.toUpper = x := by
  have hall : letters.all (fun x => lowerRune x == x && lowerRune x.toUpper == x) = true := by decide
  simpa using all_eq_true.mp hall x hx

/-- The long s is the only character that folds to a letter and is not lowered to
it. -/
theorem lowerRune_of_foldsTo (hx : x ∈ letters) (h : foldsTo x c = true) (hc : c ≠ longS) :
    lowerRune c = x := by
  simp only [foldsTo, Bool.or_eq_true, Bool.and_eq_true, beq_iff_eq] at h
  rcases h with ((rfl | rfl) | ⟨rfl, rfl⟩) | ⟨-, rfl⟩
  · exact (lowerRune_letter hx).1
  · exact (lowerRune_letter hx).2
  · rfl
  · exact absurd rfl hc

theorem toLower_of_folds (hw : ∀ x ∈ w, x ∈ letters) (h : Folds w u) (hu : longS ∉ u) :
    toLower u = w := by
  induction h with
  | nil => rfl
  | cons hxc _ ih =>
    rw [forall_mem_cons] at hw
    rw [mem_cons, not_or] at hu
    exact congrArg₂ cons (lowerRune_of_foldsTo hw.1 hxc (Ne.symm hu.1)) (ih hw.2 hu.2)

/-- A text without the long s that folds to a word of letters is found in the
lower-cased text around it. -/
theorem contains_toLower (hw : ∀ x ∈ w, x ∈ letters) (h : Folds w u) (hu : longS ∉ u)
    (hs : u <:+: s) : contains (toLower s) w = true := by
  rw [contains_iff, ← toLower_of_folds hw h hu]
  exact hs.map lowerRune

end YominsAgent.Go
