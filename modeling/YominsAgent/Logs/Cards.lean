import YominsAgent.Lib.Scan
import YominsAgent.Logs.Redact

/- The card pass (`redact.go`): what the expression for card numbers takes, and what is left behind.

   A candidate is a row of 13 to 19 digits with at most one space or dash between neighbours, from a
   word boundary to one (`accepts_cardCandidate`). The expression prefers the longest
   (`candidate_longest`). A candidate that passes the Luhn check is masked; one that fails stays as
   it is, with every card number that lies inside or across it (`cards_left`). -/
namespace YominsAgent.Logs
open Go Lib List Option Bool

/-- `[ -]` -/
def isSep (c : Char) : Bool := c == ' ' || c == '-'

/-- `n` digits with at most one space or dash between neighbours. -/
inductive Spelled : Nat → Str → Prop where
  | one {d : Char} (hd : d.isDigit = true) : Spelled 1 [d]
  | digit {n : Nat} {d : Char} {w : Str} (hd : d.isDigit = true) (h : Spelled n w) :
      Spelled (n + 1) (d :: w)
  | sep {n : Nat} {d c : Char} {w : Str} (hd : d.isDigit = true) (hc : isSep c = true)
      (h : Spelled n w) : Spelled (n + 1) (d :: c :: w)

/-- No word character stands at the head of the text. -/
def Edge (x : Str) : Prop := x.head?.any isWordChar = false

/-- A card number between `b` (reversed) and `a`. -/
structure IsCard (b w a : Str) : Prop where
  row : ∃ n, 13 ≤ n ∧ n ≤ 19 ∧ Spelled n w
  luhn : luhn (w.filter Char.isDigit) = true
  left : Edge b
  right : Edge a

def NoCard (s : Str) : Prop := ∀ u w a, s = u ++ (w ++ a) → ¬ IsCard u.reverse w a

theorem isSep_iff {c : Char} : isSep c = true ↔ c = ' ' ∨ c = '-' := by simp [isSep]

theorem not_digit_of_sep {c : Char} (h : isSep c = true) : c.isDigit = false := by
  rcases isSep_iff.mp h with rfl | rfl <;> rfl

theorem not_sep_of_digit {c : Char} (h : c.isDigit = true) : isSep c = false := by
  rw [eq_false_iff]
  intro hs
  rw [not_digit_of_sep hs] at h
  cases h

theorem isWordChar_of_digit {c : Char} (h : c.isDigit = true) : isWordChar c = true := by
  simp [isWordChar, Char.isAlphanum, h]

namespace Spelled
variable {n : Nat} {w : Str}

section
variable (h : Spelled n w)
include h

theorem head : ∃ d v, w = d :: v ∧ d.isDigit = true := by
  cases h with
  | one hd | digit hd | sep hd => exact ⟨_, _, rfl, hd⟩

theorem last : ∃ v d, w = v ++ [d] ∧ d.isDigit = true := by
  induction h with
  | one hd => exact ⟨[], _, rfl, hd⟩
  | digit _ _ ih =>
    obtain ⟨v, d, rfl, hd⟩ := ih
    exact ⟨_ :: v, d, rfl, hd⟩
  | sep _ _ _ ih =>
    obtain ⟨v, d, rfl, hd⟩ := ih
    exact ⟨_ :: _ :: v, d, rfl, hd⟩

theorem pos : 0 < n := by
  cases h <;> omega

theorem length_filter : (w.filter Char.isDigit).length = n := by
  induction h with
  | one hd => simp [hd]
  | digit hd _ ih => simp [hd, ih]
  | sep hd hc _ ih => simp [hd, not_digit_of_sep hc, ih]

theorem mem {c : Char} (hc : c ∈ w) : c.isDigit = true ∨ isSep c = true := by
  induction h with
  | one hd =>
    rw [mem_singleton.mp hc]
    exact .inl hd
  | digit hd _ ih =>
    rcases mem_cons.mp hc with rfl | hc
    · exact .inl hd
    · exact ih hc
  | sep hd hs _ ih =>
    rcases mem_cons.mp hc with rfl | hc
    · exact .inl hd
    · rcases mem_cons.mp hc with rfl | hc
      · exact .inr hs
      · exact ih hc

theorem no_star : '*' ∉ w := by
  intro hmem
  rcases h.mem hmem with hd | hs
  · cases hd
  · cases hs

end

end Spelled

/-! ## Digit by digit -/

/-- One digit, and a separator behind it. -/
def skipDigit : Place Char → Option (Place Char)
  | ⟨b, d :: c :: x⟩ =>
    if d.isDigit then some (if isSep c then ⟨c :: d :: b, x⟩ else ⟨d :: b, c :: x⟩) else none
  | ⟨b, [d]⟩ => if d.isDigit then some ⟨d :: b, []⟩ else none
  | ⟨_, []⟩ => none

def skips : Nat → Place Char → Option (Place Char)
  | 0, p => some p
  | n + 1, p => (skipDigit p).bind (skips n)

/-- The expression takes nothing where no digit stands. -/
def NeedsDigit (k : Regex Char) : Prop :=
  ∀ p g, p.after.head?.any Char.isDigit = false → k.run p g = []

variable {d : Char}

section Skips
variable {k : Regex Char} {p q : Place Char} {g : Groups Char} {n : Nat} {b x w a : Str}
  {y : Place Char × Groups Char}

theorem run_assoc (r s : Regex Char) : ((r.seq s).seq k).run p g = (r.seq (s.seq k)).run p g := by
  simp only [Regex.run, flatMap_assoc]

theorem skipDigit_none (h : p.after.head?.any Char.isDigit = false) : skipDigit p = none := by
  obtain ⟨b, x⟩ := p
  rcases x with _ | ⟨d, _ | ⟨c, x⟩⟩
  · rfl
  · have hd : d.isDigit = false := h
    simp [skipDigit, hd]
  · have hd : d.isDigit = false := h
    simp [skipDigit, hd]

section
variable (hk : NeedsDigit k)
include hk

/-- There is one way over a digit to an expression that needs one. -/
theorem run_digitSep :
    (Regex.seq digitSep k).run p g = (skipDigit p).elim [] fun q => k.run q g := by
  obtain ⟨b, x⟩ := p
  rcases x with _ | ⟨d, x⟩
  · rfl
  by_cases hd : d.isDigit = true
  · rcases x with _ | ⟨c, x⟩
    · simp [Regex.run, digitSep, digit, Regex.opt, anyOf, skipDigit, hd]
    · by_cases hc : isSep c = true
      · have hnone : k.run ⟨d :: b, c :: x⟩ g = [] := hk _ g (by simp [not_digit_of_sep hc])
        have hmem := isSep_iff.mp hc
        simp [Regex.run, digitSep, digit, Regex.opt, anyOf, skipDigit, hd, hc, hmem, hnone]
      · have hmem := mt isSep_iff.mpr hc
        simp [Regex.run, digitSep, digit, Regex.opt, anyOf, skipDigit, hd, hc, hmem]
  · rw [not_eq_true] at hd
    rw [skipDigit_none (by simpa using hd)]
    simp [Regex.run, digitSep, digit, hd]

theorem times_needsDigit (n : Nat) : NeedsDigit (Regex.seq (.times digitSep n) k) := by
  rintro ⟨b, x⟩ g hp
  cases n with
  | zero => simpa [Regex.times, Regex.run] using hk ⟨b, x⟩ g hp
  | succ =>
    rcases x with _ | ⟨d, x⟩
    · simp [Regex.times, Regex.run, digitSep, digit]
    · have hd : d.isDigit = false := hp
      simp [Regex.times, Regex.run, digitSep, digit, hd]

theorem run_times (n : Nat) (p : Place Char) :
    (Regex.seq (.times digitSep n) k).run p g = (skips n p).elim [] fun q => k.run q g := by
  induction n generalizing p with
  | zero => simp [Regex.times, Regex.run, skips]
  | succ n ih =>
    rw [Regex.times, run_assoc, run_digitSep (times_needsDigit hk n), skips]
    cases skipDigit p with
    | none => rfl
    | some q => exact ih q

theorem upTo_needsDigit (n : Nat) : NeedsDigit (Regex.seq (.upTo digitSep n) k) := by
  rintro ⟨b, x⟩ g hp
  have hnone := hk ⟨b, x⟩ g hp
  cases n with
  | zero => simpa [Regex.upTo, Regex.run] using hnone
  | succ =>
    rcases x with _ | ⟨d, x⟩
    · simpa [Regex.upTo, Regex.opt, Regex.run, digitSep, digit] using hnone
    · have hd : d.isDigit = false := hp
      simpa [Regex.upTo, Regex.opt, Regex.run, digitSep, digit, hd] using hnone

theorem run_upTo_succ (n : Nat) (p : Place Char) :
    (Regex.seq (.upTo digitSep (n + 1)) k).run p g =
      ((skipDigit p).elim [] fun q => (Regex.seq (.upTo digitSep n) k).run q g) ++ k.run p g := by
  rw [← run_digitSep (upTo_needsDigit hk n), ← run_assoc]
  simp [Regex.upTo, Regex.opt, Regex.run]

theorem mem_upTo : y ∈ (Regex.seq (.upTo digitSep n) k).run p g ↔
      ∃ j q, j ≤ n ∧ skips j p = some q ∧ y ∈ k.run q g := by
  induction n generalizing p with
  | zero =>
    have hzero : (Regex.seq (.upTo digitSep 0) k).run p g = k.run p g := by
      simp [Regex.upTo, Regex.run]
    rw [hzero]
    constructor
    · intro hy
      exact ⟨0, p, le_refl 0, rfl, hy⟩
    · rintro ⟨j, q, hj, hq, hy⟩
      obtain rfl : j = 0 := Nat.le_zero.mp hj
      cases hq
      exact hy
  | succ n ih =>
    rw [run_upTo_succ hk, mem_append]
    constructor
    · rintro (hy | hy)
      · cases hp : skipDigit p with
        | none =>
          rw [hp] at hy
          cases hy
        | some =>
          rw [hp] at hy
          obtain ⟨j, q, hj, hq, hy⟩ := ih.mp hy
          exact ⟨j + 1, q, Nat.succ_le_succ hj, by rw [skips, hp]; exact hq, hy⟩
      · exact ⟨0, p, Nat.zero_le _, rfl, hy⟩
    · rintro ⟨j, q, hj, hq, hy⟩
      cases j with
      | zero =>
        cases hq
        exact .inr hy
      | succ j =>
        obtain ⟨p', hp', hq⟩ := bind_eq_some_iff.mp hq
        rw [hp']
        exact .inl (ih.mpr ⟨j, q, Nat.le_of_succ_le_succ hj, hq, hy⟩)

theorem head?_upTo (h : ((Regex.seq (.upTo digitSep n) k).run p g).head? = some y) :
    ∃ j q, j ≤ n ∧ skips j p = some q ∧ (k.run q g).head? = some y ∧
      ∀ i q', i ≤ n → skips i p = some q' → k.run q' g ≠ [] → i ≤ j := by
  induction n generalizing p with
  | zero =>
    refine ⟨0, p, le_refl 0, rfl, by simpa [Regex.upTo, Regex.run] using h, ?_⟩
    intro i q' hi _ _
    exact hi
  | succ n ih =>
    rw [run_upTo_succ hk] at h
    cases hp : skipDigit p with
    | none =>
      rw [hp] at h
      refine ⟨0, p, Nat.zero_le _, rfl, h, ?_⟩
      intro i q' _ hq' _
      cases i with
      | zero => exact le_refl 0
      | succ =>
        rw [skips, hp] at hq'
        cases hq'
    | some p' =>
      rw [hp, elim_some] at h
      cases hways : (Regex.seq (.upTo digitSep n) k).run p' g with
      | nil =>
        rw [hways] at h
        refine ⟨0, p, Nat.zero_le _, rfl, h, ?_⟩
        intro i q' hi hq' hrun
        cases i with
        | zero => exact le_refl 0
        | succ i =>
          rw [skips, hp] at hq'
          obtain ⟨z, hz⟩ := exists_mem_of_ne_nil _ hrun
          have hmem := (mem_upTo hk).mpr ⟨i, q', Nat.le_of_succ_le_succ hi, hq', hz⟩
          rw [hways] at hmem
          cases hmem
      | cons =>
        rw [hways] at h
        obtain ⟨j, q, hj, hq, hhead, hmax⟩ := ih (p := p') (by rw [hways]; exact h)
        refine ⟨j + 1, q, Nat.succ_le_succ hj, ?_, hhead, ?_⟩
        · rw [skips, hp]
          exact hq
        · intro i q' hi hq' hrun
          cases i with
          | zero => exact Nat.zero_le _
          | succ i =>
            rw [skips, hp] at hq'
            exact Nat.succ_le_succ (hmax i q' (Nat.le_of_succ_le_succ hi) hq' hrun)

end

theorem skips_add (m n : Nat) (p : Place Char) : skips (m + n) p = (skips m p).bind (skips n) := by
  induction m generalizing p with
  | zero => rw [Nat.zero_add, skips, bind_some]
  | succ m ih =>
    rw [Nat.succ_add, skips, skips]
    cases skipDigit p with
    | none => rfl
    | some q => exact ih q

theorem Spelled.reaches_last (h : Spelled (n + 1) w) (b a : Str) :
    ∃ v d, w = v ++ [d] ∧ d.isDigit = true ∧ skips n ⟨b, w ++ a⟩ = some ⟨v.reverse ++ b, d :: a⟩ := by
  induction n generalizing w b with
  | zero =>
    cases h with
    | one hd => exact ⟨[], _, rfl, hd, rfl⟩
    | digit _ h | sep _ _ h => exact absurd h.pos (lt_irrefl 0)
  | succ n ih =>
    cases h with
    | @digit _ d w hd h =>
      obtain ⟨v, e, rfl, he, hskips⟩ := ih h (d :: b)
      obtain ⟨c, y, hy, hc⟩ := h.head
      refine ⟨d :: v, e, rfl, he, ?_⟩
      rw [skips, cons_append, hy, cons_append, skipDigit, if_pos hd,
        not_sep_of_digit hc, ← cons_append, ← hy]
      simpa using hskips
    | @sep _ d c w hd hc h =>
      obtain ⟨v, e, rfl, he, hskips⟩ := ih h (c :: d :: b)
      refine ⟨d :: c :: v, e, rfl, he, ?_⟩
      rw [skips, cons_append, cons_append, skipDigit, if_pos hd, if_pos hc]
      simpa using hskips

theorem spelled_of_skips (hd : d.isDigit = true) (h : skips n ⟨b, x⟩ = some ⟨w, d :: a⟩) :
    ∃ v, x = v ++ (d :: a) ∧ w = v.reverse ++ b ∧ Spelled (n + 1) (v ++ [d]) := by
  induction n generalizing b x with
  | zero =>
    cases h
    exact ⟨[], rfl, rfl, .one hd⟩
  | succ n ih =>
    obtain ⟨⟨b', x'⟩, hskip, h⟩ := bind_eq_some_iff.mp h
    obtain ⟨v, hx', rfl, hspelled⟩ := ih h
    rcases x with _ | ⟨e, _ | ⟨c, x⟩⟩
    · cases hskip
    · rw [skipDigit] at hskip
      split at hskip
      · next he =>
        cases hskip
        cases v <;> cases hx'
      · cases hskip
    · rw [skipDigit] at hskip
      split at hskip
      · next he =>
        split at hskip
        · next hc =>
          cases hskip
          exact ⟨e :: c :: v, by rw [hx']; rfl, by simp, .sep he hc hspelled⟩
        · cases hskip
          exact ⟨e :: v, by rw [hx']; rfl, by simp, .digit he hspelled⟩
      · cases hskip

end Skips

/-! ## Candidates -/

/-- `\d\b` -/
def lastDigit : Regex Char := .seq digit wordBoundary

section Candidates
variable {b w a x : Str} {n : Nat} {w' a' : Str}

theorem lastDigit_needsDigit : NeedsDigit lastDigit := by
  rintro ⟨b, x⟩ g hx
  rcases x with _ | ⟨d, x⟩
  · rfl
  · have hd : d.isDigit = false := hx
    simp [lastDigit, digit, Regex.run, hd]

theorem accepts_lastDigit : Accepts lastDigit b w a ↔ ∃ d, w = [d] ∧ d.isDigit = true ∧ Edge a := by
  have hedge : ∀ {d : Char}, d.isDigit = true → ((([d].reverse ++ b).head?.any isWordChar !=
      a.head?.any isWordChar) = true ↔ Edge a) := by
    intro d hd
    simp [Edge, isWordChar_of_digit hd]
  constructor
  · intro h
    obtain ⟨u, v, rfl, hu, hv⟩ := accepts_seq.mp h
    obtain ⟨d, rfl, hd⟩ := accepts_set.mp hu
    obtain ⟨rfl, hlook⟩ := accepts_look.mp hv
    exact ⟨d, rfl, hd, (hedge hd).mp hlook⟩
  · rintro ⟨d, rfl, hd, ha⟩
    have hseq : Accepts lastDigit b ([d] ++ []) a := .seq (.set hd) (.look ((hedge hd).mpr ha))
    simpa using hseq

theorem lastDigit_run_ne_nil {g : Groups Char} (hd : d.isDigit = true) (ha : Edge a) :
    lastDigit.run ⟨b, d :: a⟩ g ≠ [] := fun hnil =>
  run_eq_nil_iff.mp hnil [d] a rfl (accepts_lastDigit.mpr ⟨d, rfl, hd, ha⟩)

/-- The ways of a candidate: over twelve digits, over up to six, and over the last. -/
theorem run_cardCandidate (b x : Str) (g : Groups Char) :
    cardCandidate.run ⟨b, x⟩ g = if b.head?.any isWordChar != x.head?.any isWordChar then
      (skips 12 ⟨b, x⟩).elim [] fun q => (Regex.seq (.upTo digitSep 6) lastDigit).run q g else [] := by
  have hneeds : NeedsDigit (Regex.seq (.upTo digitSep 6) lastDigit) := upTo_needsDigit lastDigit_needsDigit 6
  rw [← run_times hneeds]
  simp only [cardCandidate, wordBoundary, Regex.run]
  split <;> simp [lastDigit, wordBoundary, Regex.run]

theorem boundary_iff (hx : x.head?.any Char.isDigit = true) :
    (b.head?.any isWordChar != x.head?.any isWordChar) = true ↔ Edge b := by
  rcases x with _ | ⟨d, x⟩
  · cases hx
  · have hd : d.isDigit = true := hx
    simp [Edge, isWordChar_of_digit hd]

theorem Spelled.head?_any (h : Spelled n w) (a : Str) : (w ++ a).head?.any Char.isDigit = true := by
  obtain ⟨d, v, rfl, hd⟩ := h.head
  exact hd

theorem accepts_cardCandidate : Accepts cardCandidate b w a ↔
    (∃ n, 13 ≤ n ∧ n ≤ 19 ∧ Spelled n w) ∧ Edge b ∧ Edge a := by
  constructor
  · intro h
    obtain ⟨g, hg⟩ := exists_run h []
    rw [run_cardCandidate] at hg
    split at hg
    · next hboundary =>
      cases hq : skips 12 ⟨b, w ++ a⟩ with
      | none =>
        rw [hq] at hg
        cases hg
      | some =>
        rw [hq] at hg
        obtain ⟨j, ⟨b', x'⟩, hj, hq', hlast⟩ := (mem_upTo lastDigit_needsDigit).mp hg
        obtain ⟨u, ⟨hx', -⟩, hacc⟩ := mem_run hlast
        obtain ⟨d, rfl, hd, ha⟩ := accepts_lastDigit.mp hacc
        obtain rfl : x' = d :: a := hx'
        have hall : skips (12 + j) ⟨b, w ++ a⟩ = some ⟨b', d :: a⟩ := by
          rw [skips_add, hq]
          exact hq'
        obtain ⟨v, hv, -, hspelled⟩ := spelled_of_skips hd hall
        obtain rfl : w = v ++ [d] := by
          have hv' : w ++ a = (v ++ [d]) ++ a := by rw [hv, append_assoc]; rfl
          exact append_cancel_right hv'
        exact ⟨⟨12 + j + 1, by omega, by omega, hspelled⟩,
          (boundary_iff (hspelled.head?_any a)).mp hboundary, ha⟩
    · cases hg
  · rintro ⟨⟨n, hlo, hhi, hspelled⟩, hb, ha⟩
    obtain ⟨m, rfl⟩ : ∃ m, n = 12 + m + 1 := ⟨n - 13, by omega⟩
    obtain ⟨v, d, rfl, hd, hskips⟩ := hspelled.reaches_last b a
    rw [skips_add] at hskips
    obtain ⟨q, hq, hq'⟩ := bind_eq_some_iff.mp hskips
    obtain ⟨g, hg⟩ := exists_run (accepts_lastDigit (b := v.reverse ++ b).mpr ⟨d, rfl, hd, ha⟩) []
    have hmem : (⟨(v ++ [d]).reverse ++ b, a⟩, g) ∈ cardCandidate.run ⟨b, (v ++ [d]) ++ a⟩ [] := by
      rw [run_cardCandidate, if_pos ((boundary_iff (hspelled.head?_any a)).mpr hb), hq]
      refine (mem_upTo lastDigit_needsDigit).mpr ⟨m, _, by omega, hq', ?_⟩
      simpa using hg
    exact accepts_of_mem_run hmem

theorem Spelled.reaches {k : Nat} (h : Spelled k w) (hlt : n < k) (b a : Str) :
    ∃ q, skips n ⟨b, w ++ a⟩ = some q ∧ q.after.head?.any Char.isDigit = true := by
  induction n generalizing k w b with
  | zero => exact ⟨_, rfl, h.head?_any a⟩
  | succ n ih =>
    cases h with
    | one => omega
    | @digit k d w hd h =>
      obtain ⟨q, hq, hdigit⟩ := ih h (Nat.lt_of_succ_lt_succ hlt) (d :: b)
      obtain ⟨c, y, rfl, hc⟩ := h.head
      refine ⟨q, ?_, hdigit⟩
      rw [skips, cons_append, cons_append, skipDigit, if_pos hd,
        if_neg (by simp [not_sep_of_digit hc])]
      exact hq
    | @sep k d c w hd hc h =>
      obtain ⟨q, hq, hdigit⟩ := ih h (Nat.lt_of_succ_lt_succ hlt) (c :: d :: b)
      refine ⟨q, ?_, hdigit⟩
      rw [skips, cons_append, cons_append, skipDigit, if_pos hd, if_pos hc]
      exact hq

/-- Another digit follows, perhaps behind a separator. -/
def RowGoesOn (a : Str) : Prop := ∃ c d x, a = c :: d :: x ∧ isSep c = true ∧ d.isDigit = true

/-- A row that nothing follows is the longest at its place. -/
theorem Spelled.le_of_alone {n' : Nat} (h : Spelled n w) (ha : Edge a) (halone : ¬ RowGoesOn a)
    (h' : Spelled n' w') (hx : w ++ a = w' ++ a') : n' ≤ n := by
  by_contra hlt
  obtain ⟨n, rfl⟩ : ∃ m, n = m + 1 := ⟨n - 1, by have := h.pos; omega⟩
  obtain ⟨v, d, rfl, hd, hskips⟩ := h.reaches_last [] a
  obtain ⟨q, hq, hdigit⟩ := h'.reaches (Nat.lt_of_not_le hlt) [] a'
  rw [← hx, skips_add, hskips, bind_some] at hq
  -- the next digit would stand in `a`
  rcases a with _ | ⟨c, a⟩
  · rw [skips, skipDigit, if_pos hd] at hq
    cases hq
    cases hdigit
  · rw [skips, skipDigit, if_pos hd] at hq
    split at hq
    · next hc =>
      cases hq
      rcases a with _ | ⟨e, a⟩
      · cases hdigit
      · exact halone ⟨c, e, a, rfl, hc, hdigit⟩
    · cases hq
      have hword := isWordChar_of_digit hdigit
      rw [Edge, head?_cons, any_some, hword] at ha
      cases ha

theorem Spelled.eq_of_length (h : Spelled n w) (h' : Spelled n w') (hx : w ++ a = w' ++ a') :
    w = w' := by
  obtain ⟨n, rfl⟩ : ∃ m, n = m + 1 := ⟨n - 1, by have := h.pos; omega⟩
  obtain ⟨v, d, rfl, -, hskips⟩ := h.reaches_last [] a
  obtain ⟨v', d', rfl, -, hskips'⟩ := h'.reaches_last [] a'
  rw [hx, hskips'] at hskips
  have hafter := (Place.mk.inj (some.inj hskips)).2
  rw [← (cons.inj hafter).2] at hx
  exact append_cancel_right hx

theorem candidate_longest {pre : Str} {m : Match Char} (h : IsFirst cardCandidate b pre m)
    (hn : n ≤ 19) (hspelled : Spelled n w) (ha : Edge a) (hx : m.text ++ m.after = w ++ a) :
    ∃ n', n ≤ n' ∧ Spelled n' m.text := by
  obtain ⟨⟨n', hlo, hhi, hspelled'⟩, -, -⟩ := accepts_cardCandidate.mp h.accepts
  refine ⟨n', ?_, hspelled'⟩
  by_contra hlt
  have hhead := h.head
  rw [run_cardCandidate] at hhead
  split at hhead
  · obtain ⟨k, rfl⟩ : ∃ k, n = 12 + k + 1 := ⟨n - 13, by omega⟩
    obtain ⟨v, d, rfl, hd, hskips⟩ := hspelled.reaches_last m.before a
    rw [← hx, skips_add] at hskips
    obtain ⟨q, hq, hq'⟩ := bind_eq_some_iff.mp hskips
    rw [hq] at hhead
    obtain ⟨j, ⟨b', x'⟩, hj, hqj, hlast, hmax⟩ := head?_upTo lastDigit_needsDigit hhead
    have hle := hmax k _ (by omega) hq' (lastDigit_run_ne_nil hd ha)
    -- the way taken has the digits of the text
    obtain ⟨u, ⟨hx', -⟩, hacc⟩ := mem_run (mem_of_mem_head? hlast)
    obtain ⟨e, rfl, he, -⟩ := accepts_lastDigit.mp hacc
    obtain rfl : x' = e :: m.after := hx'
    have hall : skips (12 + j) ⟨m.before, m.text ++ m.after⟩ = some ⟨b', e :: m.after⟩ := by
      rw [skips_add, hq]
      exact hqj
    obtain ⟨y, hy, -, htext⟩ := spelled_of_skips he hall
    have hsame : m.text = y ++ [e] := by
      have hy' : m.text ++ m.after = (y ++ [e]) ++ m.after := by rw [hy, append_assoc]; rfl
      exact append_cancel_right hy'
    have hlen := hspelled'.length_filter
    rw [hsame, htext.length_filter] at hlen
    omega
  · cases hhead

end Candidates

/-! ## The quick test -/

section DigitRun
variable {n N : Nat} {w x a : Str}

theorem digitRun_spelled (h : Spelled n w) (a : Str) (run : Nat) (sep : Bool) (hrun : N ≤ run + n) :
    digitRun N run sep (w ++ a) = true := by
  induction h generalizing run sep with
  | one hd =>
    simp only [List.cons_append, digitRun, if_pos hd, Bool.or_eq_true, decide_eq_true_eq]
    exact .inl hrun
  | digit hd _ ih =>
    simp only [List.cons_append, digitRun, if_pos hd, Bool.or_eq_true]
    exact .inr (ih _ _ (by omega))
  | @sep _ d c w hd hc _ ih =>
    have hskip : digitRun N (run + 1) false (c :: (w ++ a)) = digitRun N (run + 1) true (w ++ a) := by
      have hsep : (c == ' ' || c == '-') = true := hc
      simp [digitRun, not_digit_of_sep hc, hsep]
    rw [List.cons_append, List.cons_append, digitRun, if_pos hd, hskip, ih _ _ (by omega),
      Bool.or_true]

theorem digitRun_append (hx : ∀ run sep, digitRun N run sep x = true) (u : Str) (run : Nat)
    (sep : Bool) : digitRun N run sep (u ++ x) = true := by
  induction u generalizing run sep with
  | nil => exact hx run sep
  | cons c u ih =>
    rw [List.cons_append, digitRun]
    split
    · rw [ih, Bool.or_true]
    · split
      · exact ih _ _
      · exact ih _ _

theorem no_candidate {t : Str} (h : hasDigitRun t 13 = false) (u w a : Str)
    (ht : t = u ++ (w ++ a)) : ¬ Accepts cardCandidate (u.reverse ++ []) w a := by
  intro hacc
  obtain ⟨⟨n, hlo, -, hspelled⟩, -, -⟩ := accepts_cardCandidate.mp hacc
  have hrun : hasDigitRun t 13 = true := by
    rw [ht]
    exact digitRun_append (fun run sep => digitRun_spelled hspelled a run sep (by omega)) u 0 false
  rw [h] at hrun
  cases hrun

end DigitRun

/-- `Redact` with the card pass made on every line. -/
def Redactor.redactUngated (r : Redactor) (s : Str) : Str :=
  let lower := toLower s
  cardCandidate.replaceAll (fun m => maskCard m.text)
    (r.rules.foldl (fun s rule => rule.hinted lower s) s)

theorem cards_subst (s : Str) : Subst cardCandidate (fun m => maskCard m.text) [] s
    (cardCandidate.replaceAll (fun m => maskCard m.text) s) :=
  replaceAll_subst (solid_of_takes (by decide : cardCandidate.takes = true)) s

theorem maskCards_ungated (s : Str) :
    maskCards s = cardCandidate.replaceAll (fun m => maskCard m.text) s := by
  rw [maskCards]
  split
  · next hrun =>
    have hno := no_candidate (by simpa using hrun : hasDigitRun s 13 = false)
    exact ((cards_subst s).eq_self hno).symm
  · rfl

/-- The quick test lets every line with a candidate through, so nothing is lost by it. -/
theorem hasDigitRun_sound (s : Str) :
    (cardCandidate.find [] s ≠ none → hasDigitRun s 13 = true) ∧
      ∀ r : Redactor, r.redact s = r.redactUngated s := by
  refine ⟨fun h => ?_, fun r => maskCards_ungated _⟩
  obtain ⟨m, hm⟩ := ne_none_iff_exists'.mp h
  obtain ⟨pre, hs, hfirst⟩ := find_eq_some hm
  by_contra hrun
  exact no_candidate (by simpa using hrun) pre m.text m.after hs (hfirst.before ▸ hfirst.accepts)

/-! ## What the pass leaves -/

/-- The candidate passes the Luhn check. -/
def Passes (m : Match Char) : Prop := luhn (m.text.filter Char.isDigit) = true

instance (m : Match Char) : Decidable (Passes m) := inferInstanceAs (Decidable (_ = true))

section Left
variable {b c e p x out u w a y : Str} {m : Match Char}

theorem maskCard_eq (h : Accepts cardCandidate m.before m.text m.after) :
    maskCard m.text = if Passes m then mask else m.text := by
  obtain ⟨⟨n, hlo, hhi, hspelled⟩, -, -⟩ := accepts_cardCandidate.mp h
  by_cases hpass : Passes m
  · have hluhn : luhn (m.text.filter Char.isDigit) = true := hpass
    simp [maskCard, hspelled.length_filter, hlo, hhi, hluhn, hpass]
  · have hluhn : ¬ luhn (m.text.filter Char.isDigit) = true := hpass
    simp [maskCard, hluhn, hpass]

theorem IsCard.accepts (h : IsCard b w a) : Accepts cardCandidate b w a :=
  accepts_cardCandidate.mpr ⟨h.row, h.left, h.right⟩

theorem IsCard.head (h : IsCard b w a) (a : Str) : (w ++ a).head?.any Char.isDigit = true := by
  obtain ⟨n, -, -, hspelled⟩ := h.row
  exact hspelled.head?_any a

theorem IsCard.no_star (h : IsCard b w a) : '*' ∉ w := by
  obtain ⟨n, -, -, hspelled⟩ := h.row
  exact hspelled.no_star

theorem not_edge_of_digit (h : x.head?.any Char.isDigit = true) : ¬ Edge x := by
  rcases x with _ | ⟨d, x⟩
  · cases h
  · intro he
    rw [Edge, head?_cons, any_some, isWordChar_of_digit h] at he
    cases he

theorem IsCard.not_before (h : IsCard b w a) (c : Str) : ¬ Edge (w.reverse ++ c) := by
  obtain ⟨n, -, -, hspelled⟩ := h.row
  obtain ⟨v, d, rfl, hd⟩ := hspelled.last
  refine not_edge_of_digit ?_
  simpa using hd

/-- The text before a card number may change where the number does not begin. -/
theorem IsCard.context (h : IsCard (u.reverse ++ c) w a) (hx : y = u ++ (w ++ a))
    (hlink : Edge y ∨ (Edge c ↔ Edge e)) : IsCard (u.reverse ++ e) w a := by
  refine ⟨h.row, h.luhn, ?_, h.right⟩
  have hleft := h.left
  rcases eq_nil_or_concat' u with rfl | ⟨u, d, rfl⟩
  · rcases hlink with hy | hc
    · rw [hx] at hy
      exact absurd hy (not_edge_of_digit (h.head a))
    · exact hc.mp hleft
  · rw [reverse_append] at hleft ⊢
    exact hleft

/-- A card number with something else behind the text that follows it. -/
theorem IsCard.follow (h : IsCard b w (u ++ x)) (hu : u ≠ []) (y : Str) : IsCard b w (u ++ y) := by
  obtain ⟨d, u, rfl⟩ := exists_cons_of_ne_nil hu
  exact ⟨h.row, h.luhn, h.left, h.right⟩

theorem around_mask {y z : Str} (hstar : '*' ∉ w) (hw : w ≠ [])
    (h : y ++ (mask ++ z) = u ++ (w ++ a)) :
    (∃ t, y = u ++ (w ++ t) ∧ a = t ++ (mask ++ z)) ∨
      ∃ t, u = y ++ (mask ++ t) ∧ z = t ++ (w ++ a) := by
  obtain ⟨d, w, rfl⟩ := exists_cons_of_ne_nil hw
  have hd : d ≠ '*' := fun he => hstar (he ▸ mem_cons_self)
  rcases append_eq_append_iff.mp h with ⟨t, rfl, hrest⟩ | ⟨t, rfl, hrest⟩
  · -- three masks before the word
    right
    have hcons : '*' :: '*' :: '*' :: z = t ++ (d :: w ++ a) := hrest
    rcases t with _ | ⟨t1, _ | ⟨t2, _ | ⟨t3, t⟩⟩⟩
    · exact absurd (cons.inj hcons).1.symm hd
    · simp only [cons_append, nil_append, cons.injEq] at hcons
      exact absurd hcons.2.1.symm hd
    · simp only [cons_append, nil_append, cons.injEq] at hcons
      exact absurd hcons.2.2.1.symm hd
    · simp only [cons_append, cons.injEq] at hcons
      obtain ⟨rfl, rfl, rfl, hz⟩ := hcons
      exact ⟨t, rfl, hz⟩
  · left
    rcases append_eq_append_iff.mp hrest with ⟨t', rfl, ha⟩ | ⟨t', ht, hz⟩
    · exact ⟨t', rfl, ha⟩
    · cases t' with
      | nil => exact ⟨[], by simpa using ht.symm, by simpa using hz.symm⟩
      | cons e =>
        have he : '*' = e := (cons.inj hz).1
        exact absurd (by rw [ht, he]; simp) hstar

/-- A card number is left behind `e` in what the pass makes of the text `p ++ x` behind
`c`, where `p` is no longer searched, exactly when one is there that meets no candidate
that passes. -/
theorem cards_left (h : Subst cardCandidate (fun m => maskCard m.text) b x out)
    (hb : b = p.reverse ++ c) (hlink : Edge (p ++ x) ∨ (Edge c ↔ Edge e)) :
    (∃ u w a, p ++ out = u ++ (w ++ a) ∧ IsCard (u.reverse ++ e) w a) ↔
      ∃ u w a, p ++ x = u ++ (w ++ a) ∧ IsCard (u.reverse ++ c) w a ∧
        ∀ m, Found cardCandidate b x m → Passes m → ¬ m.Meets (u.reverse ++ c) w := by
  induction h generalizing p c e with
  | done hno =>
    have hlink' := hlink.imp_right Iff.symm
    constructor
    · rintro ⟨u, w, a, hx, hcard⟩
      exact ⟨u, w, a, hx, hcard.context hx hlink', fun m hm => absurd (hm.not_of_no_match hno) id⟩
    · rintro ⟨u, w, a, hx, hcard, -⟩
      exact ⟨u, w, a, hx, hcard.context hx hlink⟩
  | @next b pre out m hfirst hrest ih =>
    have hacc := hfirst.accepts
    have hbefore : m.before = (p ++ pre).reverse ++ c := by
      rw [hfirst.before, hb, reverse_append, append_assoc]
    rw [maskCard_eq hacc]
    by_cases hpass : Passes m
    · -- the match is masked: a card number lies before it or behind it
      rw [if_pos hpass]
      obtain ⟨-, hedge, hedge'⟩ := accepts_cardCandidate.mp hacc
      have hlater := ih (p := []) (c := m.text.reverse ++ m.before)
        (e := mask.reverse ++ ((p ++ pre).reverse ++ e)) rfl (.inl hedge')
      have hassoc : ∀ y z : Str, p ++ (pre ++ (y ++ z)) = (p ++ pre) ++ (y ++ z) := fun y z =>
        (append_assoc p pre _).symm
      have hend : ∀ {u w a t : Str} {b : Str}, IsCard b w a → p ++ pre = u ++ (w ++ t) → t ≠ [] := by
        rintro u w a t b hcard hy rfl
        refine hcard.not_before (u.reverse ++ c) ?_
        rw [hbefore, hy] at hedge
        simpa using hedge
      rw [hassoc, hassoc]
      constructor
      · rintro ⟨u, w, a, hx, hcard⟩
        rcases around_mask hcard.no_star (by rintro rfl; cases hcard.head []) hx with
          ⟨t, hy, rfl⟩ | ⟨t, rfl, hz⟩
        · refine ⟨u, w, t ++ (m.text ++ m.after), by rw [hy]; simp, ?_, ?_⟩
          · have hx' : p ++ (pre ++ (m.text ++ m.after)) = u ++ (w ++ (t ++ (m.text ++ m.after))) := by
              rw [hassoc, hy]
              simp
            exact (hcard.follow (hend hcard hy) (m.text ++ m.after)).context hx'
              (hlink.imp_right Iff.symm)
          · intro m' hm' _ hmeets
            rcases hm'.cases_next hfirst with rfl | hm'
            · have := hmeets.2
              rw [hbefore, hy] at this
              simp at this
              omega
            · have hle := hm'.before_le
              have := hmeets.2
              rw [length_append, hbefore, hy] at hle
              simp at hle this
              omega
        · obtain ⟨u', w', a', hafter, hcard', hfree⟩ := hlater.mp ⟨t, w, a, hz, by simpa using hcard⟩
          have hafter : m.after = u' ++ (w' ++ a') := hafter
          refine ⟨(p ++ pre) ++ (m.text ++ u'), w', a', by rw [hafter]; simp, ?_, ?_⟩
          · rw [hbefore] at hcard'
            simpa using hcard'
          · intro m' hm' hpass' hmeets
            rcases hm'.cases_next hfirst with rfl | hm'
            · have := hmeets.1
              rw [hbefore] at this
              simp at this
              omega
            · refine hfree m' hm' hpass' ?_
              rw [hbefore]
              simpa using hmeets
      · rintro ⟨u, w, a, hx, hcard, hfree⟩
        rcases Match.around hbefore (hfree m (.first hfirst) hpass) hx with ⟨t, hy, rfl⟩ | ⟨t, rfl, hz⟩
        · refine ⟨u, w, t ++ (mask ++ out), by rw [hy]; simp, ?_⟩
          have hx' : p ++ (pre ++ (m.text ++ m.after)) = u ++ (w ++ (t ++ (m.text ++ m.after))) := by
            rw [hassoc, hy]
            simp
          exact (hcard.context hx' hlink).follow (hend hcard hy) _
        · obtain ⟨u', w', a', hout, hcard'⟩ := hlater.mpr ⟨t, w, a, hz, by
            rw [hbefore]
            simpa using hcard, fun m' hm' hpass' hmeets => by
              refine hfree m' (.later hfirst hm') hpass' ?_
              rw [hbefore] at hmeets
              simpa using hmeets⟩
          exact ⟨(p ++ pre) ++ (mask ++ u'), w', a', by
            have hout : out = u' ++ (w' ++ a') := hout
            rw [hout]; simp, by simpa using hcard'⟩
    · -- the match stays
      rw [if_neg hpass]
      have hsame := ih (p := p ++ (pre ++ m.text)) (c := c) (e := e)
        (by rw [hbefore]; simp) (by simpa using hlink)
      have hleft : p ++ (pre ++ (m.text ++ out)) = p ++ (pre ++ m.text) ++ out := by simp
      have hright : p ++ (pre ++ (m.text ++ m.after)) = p ++ (pre ++ m.text) ++ m.after := by simp
      rw [hleft, hright, hsame]
      refine exists_congr fun u => exists_congr fun w => exists_congr fun a =>
        and_congr_right fun _ => and_congr_right fun _ => ⟨fun hfree m' hm' hpass' => ?_,
          fun hfree m' hm' hpass' => ?_⟩
      · rcases hm'.cases_next hfirst with rfl | hm'
        · exact absurd hpass' hpass
        · exact hfree m' hm' hpass'
      · exact hfree m' (.later hfirst hm') hpass'

end Left

/-- Every card number in the text shares a digit with a candidate that passes. -/
def CardsMet (t : Str) : Prop :=
  ∀ u w a, t = u ++ (w ++ a) → IsCard u.reverse w a →
    ∃ m, Found cardCandidate [] t m ∧ Passes m ∧ m.Meets u.reverse w

/-- What the card pass leaves has no card number exactly when each one met a candidate
that passed. -/
theorem noCard_maskCards_iff (t : Str) : NoCard (maskCards t) ↔ CardsMet t := by
  have hleft := cards_left (p := []) (c := []) (e := []) (cards_subst t) rfl (.inr Iff.rfl)
  simp only [nil_append, append_nil] at hleft
  rw [maskCards_ungated]
  constructor
  · intro hnone u w a ht hcard
    by_contra hfree
    obtain ⟨u', w', a', hout, hcard'⟩ := hleft.mpr ⟨u, w, a, ht, hcard, fun m hm hpass hmeets =>
      hfree ⟨m, hm, hpass, hmeets⟩⟩
    exact hnone u' w' a' hout hcard'
  · intro hmet u w a hout hcard
    obtain ⟨u', w', a', ht, hcard', hfree⟩ := hleft.mp ⟨u, w, a, hout, hcard⟩
    obtain ⟨m, hm, hpass, hmeets⟩ := hmet u' w' a' ht hcard'
    exact hfree m hm hpass hmeets

end YominsAgent.Logs
