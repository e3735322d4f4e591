import Mathlib.Algebra.Group.Int.Defs
import Mathlib.Algebra.Group.Nat.Defs

/- The parts of Go's `strings`, `strconv` and `time` the agent's code uses, on text as a list of
   characters. A Go string is bytes; where the code treats one as text an invalid byte counts as
   U+FFFD, so a list of characters loses nothing the modelled functions look at. -/
namespace YominsAgent.Go

open List

/-- A Go string as text. -/
abbrev Str := List Char

instance : LawfulBEq Str := inferInstance

/-- What holds of each character of a text by a check of the text. -/
theorem forall_mem_of_all {p : Char → Prop} [DecidablePred p] {s : Str}
    (h : s.all (fun c => decide (p c)) = true) : ∀ c ∈ s, p c := by
  simpa using h

/-- `unicode.IsSpace`. -/
def isSpace (c : Char) : Bool :=
  let n := c.toNat
  (9 ≤ n && n ≤ 13) || n == 0x20 || n == 0x85 || n == 0xA0 || n == 0x1680 ||
    (0x2000 ≤ n && n ≤ 0x200a) || n == 0x2028 || n == 0x2029 || n == 0x202f || n == 0x205f ||
    n == 0x3000

/-- `strings.TrimLeftFunc`. -/
def trimLeftFunc (p : Char → Bool) (s : Str) : Str := s.dropWhile p

/-- `strings.TrimRightFunc`. -/
def trimRightFunc {α : Type} (p : α → Bool) (s : List α) : List α :=
  (s.reverse.dropWhile p).reverse

/-- `strings.TrimSpace`. -/
def trimSpace (s : Str) : Str := trimRightFunc isSpace (trimLeftFunc isSpace s)

/-- `strings.Fields`: the words between white space. -/
def fields (s : Str) : List Str := (s.splitOnP isSpace).filter (· ≠ [])

/-- `strings.Contains`: `sub` occurs in `s`. -/
def contains : Str → Str → Bool
  | [], sub => sub.isEmpty
  | c :: s, sub => sub.isPrefixOf (c :: s) || contains s sub

/-- `strings.ContainsAny`. -/
def containsAny (s chars : Str) : Bool := s.any chars.contains

/-- `strings.TrimPrefix`. -/
def trimPrefix (s pre : Str) : Str := if pre.isPrefixOf s then s.drop pre.length else s

/-- `strings.Cut`: what stands before and after the first `sep`. -/
def cut (sep : Str) : Str → Option (Str × Str)
  | [] => if sep.isEmpty then some ([], []) else none
  | c :: s =>
    if sep.isPrefixOf (c :: s) then some ([], (c :: s).drop sep.length)
    else (cut sep s).map fun (a, b) => (c :: a, b)

/-- `strings.SplitN` for a positive count: the last part is the unsplit rest. -/
def splitN (sep : Str) : Nat → Str → List Str
  | 0, _ => []
  | 1, s => [s]
  | n + 2, s =>
    match cut sep s with
    | none => [s]
    | some (a, b) => a :: splitN sep (n + 1) b

/-- The value of a run of decimal digits, `none` when a character is not one. -/
def digitsVal : Nat → Str → Option Nat
  | acc, [] => some acc
  | acc, c :: s => if c.isDigit then digitsVal (10 * acc + (c.toNat - '0'.toNat)) s else none

/-- `strconv.Atoi` on a 64-bit host: an optional sign and decimal digits whose
value fits an `int`. -/
def atoi (s : Str) : Option Int :=
  let (neg, digits) := match s with
    | '-' :: r => (true, r)
    | '+' :: r => (false, r)
    | r => (false, r)
  if digits.isEmpty then none
  else match digitsVal 0 digits with
    | none => none
    | some n =>
      let v : Int := if neg then -n else n
      if -2 ^ 63 ≤ v ∧ v < 2 ^ 63 then some v else none

/-- The value a 64-bit signed result wraps to. -/
def wrap64 (n : Int) : Int := (n + 2 ^ 63) % 2 ^ 64 - 2 ^ 63

/-- A `time.Duration` is its number of nanoseconds. -/
def second : Int := 1000000000
def minute : Int := 60 * second

/-! ## Where a character stands -/

section Unique
variable {α : Type} {c : α} {u u' v v' : List α}

theorem first_unique (hu : c ∉ u) (hu' : c ∉ u') (h : u ++ c :: v = u' ++ c :: v') :
    u = u' ∧ v = v' := by
  induction u generalizing u' with
  | nil =>
    cases u' with
    | nil => exact ⟨rfl, (cons.inj h).2⟩
    | cons => exact absurd (mem_cons.mpr (.inl (cons.inj h).1)) hu'
  | cons d u ih =>
    cases u' with
    | nil => exact absurd (mem_cons.mpr (.inl (cons.inj h).1.symm)) hu
    | cons =>
      obtain ⟨rfl, htail⟩ := cons.inj h
      obtain ⟨rfl, rfl⟩ := ih (fun hc => hu (mem_cons_of_mem d hc))
        (fun hc => hu' (mem_cons_of_mem d hc)) htail
      exact ⟨rfl, rfl⟩

theorem last_unique (hv : c ∉ v) (hv' : c ∉ v') (h : u ++ c :: v = u' ++ c :: v') :
    u = u' ∧ v = v' := by
  have hrev : v.reverse ++ c :: u.reverse = v'.reverse ++ c :: u'.reverse := by
    simpa using congrArg reverse h
  obtain ⟨hv, hu⟩ := first_unique (by simpa using hv) (by simpa using hv') hrev
  exact ⟨reverse_inj.mp hu, reverse_inj.mp hv⟩

end Unique

section Cut
variable {c : Char} {s u v : Str}

theorem cut_eq_some_iff : cut [c] s = some (u, v) ↔ c ∉ u ∧ s = u ++ c :: v := by
  induction s generalizing u with
  | nil => simp [cut]
  | cons d s ih =>
    by_cases hd : c = d
    · subst hd
      cases u with
      | nil => simp [cut]
      | cons e u => simp +contextual [cut, Ne.symm]
    · cases u with
      | nil => simp [cut, hd, Ne.symm hd]
      | cons e u => simp [cut, hd]; grind

theorem splitN_cons_iff {n : Nat} {rest : List Str} (hrest : rest ≠ []) :
    splitN [c] (n + 2) s = u :: rest ↔
      ∃ t, c ∉ u ∧ s = u ++ c :: t ∧ splitN [c] (n + 1) t = rest := by
  rw [splitN]
  cases hcut : cut [c] s with
  | none =>
    refine ⟨fun h => absurd (cons.inj h).2.symm hrest, ?_⟩
    rintro ⟨t, hu, hs, -⟩
    cases hcut.symm.trans (cut_eq_some_iff.mpr ⟨hu, hs⟩)
  | some x =>
    obtain ⟨hx, hs⟩ := cut_eq_some_iff.mp hcut
    constructor
    · intro h
      obtain ⟨rfl, rfl⟩ := cons.inj h
      exact ⟨x.2, hx, hs, rfl⟩
    · rintro ⟨t, hu, hst, rfl⟩
      cases hcut.symm.trans (cut_eq_some_iff.mpr ⟨hu, hst⟩)
      rfl

end Cut

/-! ## The words of a text -/

/-- No piece of a split has a character that was split on. -/
theorem not_of_mem_splitOnP {p : Char → Bool} {s w : Str} (h : w ∈ s.splitOnP p) :
    ∀ c ∈ w, p c = false := by
  induction s generalizing w with
  | nil =>
    rw [splitOnP_nil, mem_singleton] at h
    subst h
    exact nofun
  | cons x s ih =>
    obtain ⟨v, vs, hv⟩ := exists_cons_of_ne_nil (splitOnP_ne_nil p s)
    rw [splitOnP_cons_eq_if_modifyHead, hv] at h
    rw [hv] at ih
    split at h
    · rcases mem_cons.mp h with rfl | h
      · exact nofun
      · exact ih h
    · next hx =>
      rcases mem_cons.mp h with rfl | h
      · intro c hc
        rcases mem_cons.mp hc with rfl | hc
        · exact Bool.eq_false_iff.mpr hx
        · exact ih mem_cons_self c hc
      · exact ih (mem_cons_of_mem v h)

theorem fields_eq_nil_iff (s : Str) : fields s = [] ↔ ∀ c ∈ s, isSpace c = true := by
  induction s with
  | nil => exact iff_of_true rfl nofun
  | cons x s ih =>
    obtain ⟨v, vs, hv⟩ := exists_cons_of_ne_nil (splitOnP_ne_nil isSpace s)
    unfold fields at ih ⊢
    rw [splitOnP_cons_eq_if_modifyHead, forall_mem_cons]
    by_cases hx : isSpace x = true
    · rw [if_pos hx, filter_cons_of_neg (by simp), ih]
      exact (and_iff_right hx).symm
    · rw [if_neg hx, hv]
      refine iff_of_false ?_ fun h => hx h.1
      exact cons_ne_nil _ _

theorem trimSpace_eq_self {w : Str} (hw : ∀ c ∈ w, isSpace c = false) : trimSpace w = w := by
  have hkeep : ∀ v : Str, (∀ c ∈ v, isSpace c = false) → v.dropWhile isSpace = v := by
    intro v hv
    cases v with
    | nil => rfl
    | cons c => rw [dropWhile_cons_of_neg (by simp [hv c mem_cons_self])]
  rw [trimSpace, trimLeftFunc, hkeep w hw, trimRightFunc,
    hkeep w.reverse fun c hc => hw c (mem_reverse.mp hc), reverse_reverse]

theorem trimSpace_of_mem_fields {s w : Str} (h : w ∈ fields s) : trimSpace w = w :=
  trimSpace_eq_self (not_of_mem_splitOnP (mem_filter.mp h).1)

theorem countP_trimSpace (s : Str) :
    (trimSpace s).countP (fun c => !isSpace c) = s.countP (fun c => !isSpace c) := by
  have hdrop : ∀ v : Str, (v.dropWhile isSpace).countP (fun c => !isSpace c) =
      v.countP (fun c => !isSpace c) := by
    intro v
    induction v with
    | nil => rfl
    | cons c v ih =>
      by_cases hc : isSpace c = true
      · rw [dropWhile_cons_of_pos hc, ih, countP_cons_of_neg (by simp [hc])]
      · rw [dropWhile_cons_of_neg hc]
  rw [trimSpace, trimRightFunc, countP_reverse, hdrop, countP_reverse, trimLeftFunc, hdrop]

end YominsAgent.Go
