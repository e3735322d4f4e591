import Mathlib.Data.List.Forall2
import YominsAgent.Logs.Allow

/- What the allow globs mean (`allow.go`), from the text of the regexp on.

   `globExpr` is the text that `globRegexp` builds, and `compile` reads the part of the regexp
   language that such texts are in: every glob compiles, to the pieces of `globRegexp`
   (`compile_globExpr`). `GlobMatch` is the meaning the comment of `Allowed` gives to a glob. The
   text is built byte by byte, so the regexp matches what the glob would mean if each of its bytes
   were a character (`byteRunes`). For an ASCII glob that is the same. A glob with another character
   is not matched by its own paths; it means what it says only if no clean path could match it
   anyway (`allowed_glob_iff`).

   Correspondence (Go ↔ Lean):
     the loop of `globRegexp` ↔ `globBuild`
     `regexp.QuoteMeta`       ↔ `quoteMeta`
     `regexp.MustCompile`     ↔ `compile`; it panics where that is `none`
   The limit on the size of a compiled regexp is left out. -/
namespace YominsAgent.Logs
open Go

/-! ## The text of the regexp -/

/-- The characters that mean something in a regexp. -/
def isRegexpMeta (c : Char) : Bool := "\\.+*?()|[]{}^$".toList.contains c

def quoteMeta (s : Str) : Str := s.flatMap fun c => if isRegexpMeta c then ['\\', c] else [c]

/-- `string(c)` of a byte. -/
def byteRune (b : UInt8) : Char := Char.ofNat b.toNat

def globBuild : Bytes → Str
  | [] => []
  | 0x2A :: 0x2A :: g => ".*".toList ++ globBuild g
  | 0x2A :: g => "[^/]*".toList ++ globBuild g
  | 0x3F :: g => "[^/]".toList ++ globBuild g
  | c :: g => quoteMeta [byteRune c] ++ globBuild g

/-- What `globRegexp` hands to `regexp.MustCompile`. -/
def globExpr (g : Str) : Str := '^' :: (globBuild (toBytes g) ++ ['$'])

/-- The pieces of a regexp, up to the `$` at its end. A character with a meaning of
its own ends the reading where no piece starts with it. -/
def compilePieces : Str → Option (List GlobPiece)
  | ['$'] => some []
  | '.' :: '*' :: r => (compilePieces r).map (.anyPath :: ·)
  | '[' :: '^' :: '/' :: ']' :: '*' :: r => (compilePieces r).map (.anySegment :: ·)
  | '[' :: '^' :: '/' :: ']' :: r => (compilePieces r).map (.anyChar :: ·)
  | '\\' :: c :: r => if isRegexpMeta c then (compilePieces r).map (.lit c :: ·) else none
  | c :: r => if isRegexpMeta c then none else (compilePieces r).map (.lit c :: ·)
  | [] => none

/-- The part of `regexp.Compile` for texts `^…$` of these pieces. -/
def compile : Str → Option (List GlobPiece)
  | '^' :: r => compilePieces r
  | _ => none

theorem toNat_byteRune (b : UInt8) : (byteRune b).toNat = b.toNat := by
  have hb := b.toNat_lt
  have hvalid : b.toNat.isValidChar := .inl (by omega)
  unfold byteRune
  rw [Char.ofNat, dif_pos hvalid]
  rfl

theorem compilePieces_quoteMeta (c : Char) {r : Str} {re : List GlobPiece}
    (h : compilePieces r = some re) : compilePieces (quoteMeta [c] ++ r) = some (.lit c :: re) := by
  cases hc : isRegexpMeta c with
  | true =>
    have hq : quoteMeta [c] ++ r = '\\' :: c :: r := by simp [quoteMeta, hc]
    simp [hq, compilePieces, hc, h]
  | false =>
    have hq : quoteMeta [c] ++ r = c :: r := by simp [quoteMeta, hc]
    have hne : ∀ d, isRegexpMeta d = true → c ≠ d := by
      rintro d hd rfl
      rw [hc] at hd
      cases hd
    rw [hq]
    unfold compilePieces
    split
    · next heq => exact absurd (List.cons.inj heq).1 (hne '$' rfl)
    · next heq => exact absurd (List.cons.inj heq).1 (hne '.' rfl)
    · next heq => exact absurd (List.cons.inj heq).1 (hne '[' rfl)
    · next heq => exact absurd (List.cons.inj heq).1 (hne '[' rfl)
    · next heq => exact absurd (List.cons.inj heq).1 (hne '\\' rfl)
    · next heq =>
      obtain ⟨rfl, rfl⟩ := List.cons.inj heq
      simp [hc, h]
    · next heq => cases heq

theorem globBuild_head (bs : Bytes) : (globBuild bs ++ ['$']).head? ≠ some '*' := by
  unfold globBuild
  split
  · simp
  · simp
  · simp
  · simp
  · next c g _ _ _ =>
    unfold quoteMeta
    rw [List.flatMap_singleton]
    split
    · simp
    · next hc =>
      intro h
      have hstar : byteRune c = '*' := by simpa using h
      rw [hstar] at hc
      exact hc rfl

theorem compile_globExpr (g : Str) : compile (globExpr g) = some (globRegexp g) := by
  show compilePieces (globBuild (toBytes g) ++ ['$']) = some (globPieces (toBytes g))
  generalize toBytes g = bs
  induction bs using globPieces.induct with
  | case1 => rfl
  | case2 _ ih | case3 _ _ ih => simp [globBuild, globPieces, compilePieces, ih]
  | case4 g ih =>
    have hhead := globBuild_head g
    obtain ⟨c, r, hr⟩ : ∃ c r, globBuild g ++ ['$'] = c :: r :=
      List.exists_cons_of_ne_nil (by simp)
    rw [hr] at ih hhead
    have hc : c ≠ '*' := by simpa using hhead
    simp [globBuild, globPieces, compilePieces, hr, hc, ih]
  | case5 c g h1 h2 h3 ih =>
    have hbuild : globBuild (c :: g) = quoteMeta [byteRune c] ++ globBuild g := by
      rw [globBuild]
      all_goals assumption
    have hpieces : globPieces (c :: g) = .lit (byteRune c) :: globPieces g := by
      rw [globPieces, byteRune]
      all_goals assumption
    rw [hbuild, hpieces, List.append_assoc]
    exact compilePieces_quoteMeta _ ih

/-! ## The meaning of a glob -/

/-- A path matches a glob: `**` is any text, `*` any text without a slash, `?` one
character but a slash, and every other character is itself. -/
inductive GlobMatch : Str → Str → Prop where
  | nil : GlobMatch [] []
  | anyPath {g s : Str} (x : Str) (h : GlobMatch g s) : GlobMatch ('*' :: '*' :: g) (x ++ s)
  | anySegment {g s : Str} (x : Str) (hx : '/' ∉ x) (hg : g.head? ≠ some '*')
      (h : GlobMatch g s) : GlobMatch ('*' :: g) (x ++ s)
  | anyChar {g s : Str} (c : Char) (hc : c ≠ '/') (h : GlobMatch g s) :
      GlobMatch ('?' :: g) (c :: s)
  | lit {g s : Str} {c : Char} (hstar : c ≠ '*') (hone : c ≠ '?') (h : GlobMatch g s) :
      GlobMatch (c :: g) (c :: s)

namespace GlobMatch
variable {g s p : Str} {c : Char}

theorem nil_iff : GlobMatch [] p ↔ p = [] := by
  constructor
  · intro h
    cases h
    rfl
  · rintro rfl
    exact .nil

theorem anyPath_iff : GlobMatch ('*' :: '*' :: g) p ↔ ∃ x s, p = x ++ s ∧ GlobMatch g s := by
  constructor
  · intro h
    cases h with
    | anyPath x h => exact ⟨x, _, rfl, h⟩
    | anySegment x hx hg => exact absurd rfl hg
    | lit hstar => exact absurd rfl hstar
  · rintro ⟨x, s, rfl, h⟩
    exact .anyPath x h

theorem anySegment_iff (hg : g.head? ≠ some '*') :
    GlobMatch ('*' :: g) p ↔ ∃ x s, p = x ++ s ∧ '/' ∉ x ∧ GlobMatch g s := by
  constructor
  · intro h
    cases h with
    | anyPath => exact absurd rfl hg
    | anySegment x hx hg h => exact ⟨x, _, rfl, hx, h⟩
    | lit hstar => exact absurd rfl hstar
  · rintro ⟨x, s, rfl, hx, h⟩
    exact .anySegment x hx hg h

theorem anyChar_iff : GlobMatch ('?' :: g) p ↔ ∃ c s, p = c :: s ∧ c ≠ '/' ∧ GlobMatch g s := by
  constructor
  · intro h
    cases h with
    | anyChar c hc h => exact ⟨c, _, rfl, hc, h⟩
    | lit hstar hone => exact absurd rfl hone
  · rintro ⟨c, s, rfl, hc, h⟩
    exact .anyChar c hc h

theorem lit_iff (hstar : c ≠ '*') (hone : c ≠ '?') :
    GlobMatch (c :: g) p ↔ ∃ s, p = c :: s ∧ GlobMatch g s := by
  constructor
  · intro h
    cases h with
    | anyPath | anySegment => exact absurd rfl hstar
    | anyChar => exact absurd rfl hone
    | lit _ _ h => exact ⟨_, rfl, h⟩
  · rintro ⟨s, rfl, h⟩
    exact .lit hstar hone h

/-- A row of plain characters in a glob is that row in the path. -/
theorem append_iff {u : Str} (hu : ∀ c ∈ u, c ≠ '*' ∧ c ≠ '?') :
    GlobMatch (u ++ g) p ↔ ∃ s, p = u ++ s ∧ GlobMatch g s := by
  induction u generalizing p with
  | nil => simp
  | cons c u ih =>
    obtain ⟨hstar, hone⟩ := hu c List.mem_cons_self
    rw [List.cons_append, lit_iff hstar hone]
    simp only [ih fun d hd => hu d (List.mem_cons_of_mem c hd)]
    constructor
    · rintro ⟨s, rfl, t, rfl, h⟩
      exact ⟨t, rfl, h⟩
    · rintro ⟨t, rfl, h⟩
      exact ⟨u ++ t, rfl, t, rfl, h⟩

end GlobMatch

/-! ## What the regexp matches -/

theorem matchStar_iff {f : Char → Bool} {k : Str → Bool} {s : Str} :
    matchStar f k s = true ↔ ∃ x t, s = x ++ t ∧ (∀ c ∈ x, f c = true) ∧ k t = true := by
  induction s with
  | nil =>
    constructor
    · intro h
      exact ⟨[], [], rfl, nofun, h⟩
    · rintro ⟨x, t, hs, -, hk⟩
      obtain ⟨rfl, rfl⟩ := List.append_eq_nil_iff.mp hs.symm
      exact hk
  | cons c s ih =>
    rw [matchStar, Bool.or_eq_true, Bool.and_eq_true, ih]
    constructor
    · rintro (h | ⟨hc, x, t, rfl, hx, hk⟩)
      · exact ⟨[], c :: s, rfl, nofun, h⟩
      · exact ⟨c :: x, t, rfl, by simpa [hc] using hx, hk⟩
    · rintro ⟨x, t, hs, hx, hk⟩
      cases x with
      | nil =>
        obtain rfl : c :: s = t := hs
        exact .inl hk
      | cons d x =>
        obtain ⟨rfl, rfl⟩ := List.cons.inj hs
        exact .inr ⟨hx c List.mem_cons_self, x, t, rfl,
          fun e he => hx e (List.mem_cons_of_mem c he), hk⟩

theorem byteRune_ne {b d : UInt8} (h : b ≠ d) : byteRune b ≠ byteRune d := by
  intro he
  apply h
  apply UInt8.toNat_inj.mp
  rw [← toNat_byteRune, he, toNat_byteRune]

/-- On a path without newlines the regexp means what the glob would mean if each of its
bytes were a character. -/
theorem matchString_iff (bs : Bytes) (p : Str) (hp : '\n' ∉ p) :
    matchString (globPieces bs) p = true ↔ GlobMatch (bs.map byteRune) p := by
  induction bs using globPieces.induct generalizing p with
  | case1 => simp [globPieces, matchString, GlobMatch.nil_iff]
  | case2 g ih =>
    rw [globPieces, matchString, matchStar_iff]
    show _ ↔ GlobMatch ('*' :: '*' :: g.map byteRune) p
    rw [GlobMatch.anyPath_iff]
    constructor
    · rintro ⟨x, t, rfl, -, h⟩
      exact ⟨x, t, rfl, (ih t fun hn => hp (List.mem_append_right x hn)).mp h⟩
    · rintro ⟨x, t, rfl, h⟩
      refine ⟨x, t, rfl, ?_, (ih t fun hn => hp (List.mem_append_right x hn)).mpr h⟩
      intro c hc
      rw [bne_iff_ne]
      rintro rfl
      exact hp (List.mem_append_left t hc)
  | case3 g hne ih =>
    have hg : (g.map byteRune).head? ≠ some '*' := by
      cases g with
      | nil => simp
      | cons b g =>
        simp only [List.map_cons, List.head?_cons, ne_eq, Option.some.injEq]
        exact byteRune_ne (d := 0x2A) fun hb => hne g (hb ▸ rfl)
    have hpieces : globPieces (0x2A :: g) = .anySegment :: globPieces g := by
      rw [globPieces]
      exact hne
    rw [hpieces, matchString, matchStar_iff]
    show _ ↔ GlobMatch ('*' :: g.map byteRune) p
    rw [GlobMatch.anySegment_iff hg]
    constructor
    · rintro ⟨x, t, rfl, hx, h⟩
      refine ⟨x, t, rfl, ?_, (ih t fun hn => hp (List.mem_append_right x hn)).mp h⟩
      intro hs
      simpa using hx '/' hs
    · rintro ⟨x, t, rfl, hx, h⟩
      refine ⟨x, t, rfl, ?_, (ih t fun hn => hp (List.mem_append_right x hn)).mpr h⟩
      intro c hc
      rw [bne_iff_ne]
      rintro rfl
      exact hx hc
  | case4 g ih =>
    rw [globPieces]
    show _ ↔ GlobMatch ('?' :: g.map byteRune) p
    rw [GlobMatch.anyChar_iff]
    cases p with
    | nil => simp [matchString]
    | cons c p =>
      rw [matchString, Bool.and_eq_true, bne_iff_ne, ih p fun hn => hp (List.mem_cons_of_mem c hn)]
      constructor
      · rintro ⟨hc, h⟩
        exact ⟨c, p, rfl, hc, h⟩
      · rintro ⟨d, s, heq, hd, h⟩
        obtain ⟨rfl, rfl⟩ := List.cons.inj heq
        exact ⟨hd, h⟩
  | case5 b g h1 h2 h3 ih =>
    have hpieces : globPieces (b :: g) = .lit (byteRune b) :: globPieces g := by
      rw [globPieces, byteRune]
      all_goals assumption
    have hstar : byteRune b ≠ '*' := byteRune_ne (d := 0x2A) fun hb => h2 hb
    have hone : byteRune b ≠ '?' := byteRune_ne (d := 0x3F) fun hb => h3 hb
    rw [hpieces, List.map_cons, GlobMatch.lit_iff hstar hone]
    cases p with
    | nil => simp [matchString]
    | cons c p =>
      rw [matchString, Bool.and_eq_true, beq_iff_eq, ih p fun hn => hp (List.mem_cons_of_mem c hn)]
      constructor
      · rintro ⟨rfl, h⟩
        exact ⟨p, rfl, h⟩
      · rintro ⟨s, heq, h⟩
        obtain ⟨rfl, rfl⟩ := List.cons.inj heq
        exact ⟨rfl, h⟩

/-! ## The bytes of a glob as characters -/

def isAscii (c : Char) : Bool := c.toNat < 0x80

/-- Each byte of the text taken for a character. -/
def byteRunes (g : Str) : Str := (toBytes g).map byteRune

theorem byteRunes_cons (c : Char) (g : Str) :
    byteRunes (c :: g) = (encodeRune c).map byteRune ++ byteRunes g := by
  simp [byteRunes, toBytes]

theorem encodeRune_ascii {c : Char} (h : isAscii c = true) :
    (encodeRune c).map byteRune = [c] := by
  have hc : c.toNat < 0x80 := of_decide_eq_true h
  have hbyte : (UInt8.ofNat c.toNat).toNat = c.toNat := toNat_ofNat_byte (by omega)
  simp [encodeRune, hc, byteRune, hbyte]

theorem encodeRune_other {c : Char} (h : isAscii c = false) :
    2 ≤ (encodeRune c).length ∧ ∀ d ∈ (encodeRune c).map byteRune, isAscii d = false := by
  obtain ⟨hlen, hhigh⟩ := encodeRune_high (of_decide_eq_false h)
  refine ⟨hlen, List.forall_mem_map.mpr fun x hx => ?_⟩
  rw [isAscii, toNat_byteRune]
  exact decide_eq_false (Nat.not_lt.mpr (hhigh x hx))

theorem byteRunes_ascii {g : Str} (h : g.all isAscii = true) : byteRunes g = g := by
  induction g with
  | nil => rfl
  | cons c g ih =>
    rw [List.all_cons, Bool.and_eq_true] at h
    rw [byteRunes_cons, encodeRune_ascii h.1, ih h.2]
    rfl

/-- How many characters are outside ASCII. -/
def others (s : Str) : Nat := s.countP fun c => !isAscii c

@[simp] theorem others_append (s t : Str) : others (s ++ t) = others s + others t :=
  List.countP_append

theorem others_cons (c : Char) (s : Str) :
    others (c :: s) = others s + if isAscii c then 0 else 1 := by
  unfold others
  rw [List.countP_cons]
  cases isAscii c <;> rfl

theorem others_eq_zero {s : Str} : others s = 0 ↔ s.all isAscii = true := by
  simp [others]

theorem others_byteRunes (g : Str) : 2 * others g ≤ others (byteRunes g) := by
  induction g with
  | nil => simp [others]
  | cons c =>
    rw [byteRunes_cons, others_append, others_cons]
    cases hc : isAscii c with
    | true =>
      simp only [if_true]
      omega
    | false =>
      obtain ⟨hlen, hnone⟩ := encodeRune_other hc
      have hall : others ((encodeRune c).map byteRune) = (encodeRune c).length := by
        unfold others
        rw [List.countP_eq_length.mpr fun d hd => by simp [hnone d hd], List.length_map]
      simp only [Bool.false_eq_true, if_false]
      omega

/-- The characters of a glob other than the wildcards stand in what it matches. -/
theorem others_le_of_match {g p : Str} (h : GlobMatch g p) : others g ≤ others p := by
  have hstar : isAscii '*' = true := rfl
  have hone : isAscii '?' = true := rfl
  induction h with
  | nil => exact Nat.le_refl _
  | anyPath =>
    rw [others_cons, others_cons, others_append, hstar]
    simp only [if_true]
    omega
  | anySegment =>
    rw [others_cons, others_append, hstar]
    simp only [if_true]
    omega
  | anyChar =>
    rw [others_cons, others_cons, hone]
    simp only [if_true]
    omega
  | lit =>
    rw [others_cons, others_cons]
    omega

/-! ## Paths of one shape -/

/-- Neither a slash, nor a dot, nor a newline. -/
def isPlain (c : Char) : Bool := c != '/' && c != '.' && c != '\n'

/-- Two texts that differ in rows of plain characters only. -/
inductive Shaped : Str → Str → Prop where
  | nil : Shaped [] []
  | same (c : Char) {p q : Str} (h : Shaped p q) : Shaped (c :: p) (c :: q)
  | word {u v p q : Str} (hu : u ≠ []) (hv : v ≠ []) (hup : u.all isPlain = true)
      (hvp : v.all isPlain = true) (h : Shaped p q) : Shaped (u ++ p) (v ++ q)

theorem isPlain_of_other {c : Char} (h : isAscii c = false) : isPlain c = true := by
  simp only [isPlain, Bool.and_eq_true, bne_iff_ne]
  refine ⟨⟨?_, ?_⟩, ?_⟩ <;> (rintro rfl; cases h)

/-- The characters outside ASCII replaced by a letter. -/
def tame (s : Str) : Str := s.map fun c => if isAscii c then c else 'a'

theorem others_tame (s : Str) : others (tame s) = 0 := by
  rw [others_eq_zero, List.all_eq_true]
  intro c hc
  obtain ⟨d, -, rfl⟩ := List.mem_map.mp hc
  split
  · next h => exact h
  · rfl

theorem slash_notMem_tame {s : Str} (h : '/' ∉ s) : '/' ∉ tame s := by
  intro hc
  obtain ⟨d, hd, hslash⟩ := List.mem_map.mp hc
  split at hslash
  · exact h (hslash ▸ hd)
  · cases hslash

namespace Shaped
variable {p q : Str}

theorem tame_append (x : Str) (h : Shaped p q) : Shaped (x ++ p) (tame x ++ q) := by
  induction x with
  | nil => exact h
  | cons c x ih =>
    simp only [tame, List.map_cons]
    split
    · exact .same c ih
    · next hc =>
      exact .word (u := [c]) (v := ['a']) (by simp) (by simp)
        (by simpa using isPlain_of_other (Bool.not_eq_true _ ▸ hc)) rfl ih

theorem newline_notMem (h : Shaped p q) (hp : '\n' ∉ p) : '\n' ∉ q := by
  induction h with
  | nil => exact hp
  | same c h ih =>
    rw [List.mem_cons, not_or] at hp ⊢
    exact ⟨hp.1, ih hp.2⟩
  | word hu hv hup hvp h ih =>
    rw [List.mem_append, not_or] at hp ⊢
    refine ⟨?_, ih hp.2⟩
    intro hn
    cases List.all_eq_true.mp hvp _ hn

theorem append_left (x : Str) (h : Shaped p q) : Shaped (x ++ p) (x ++ q) := by
  induction x with
  | nil => exact h
  | cons c x ih => exact .same c ih

theorem symm (h : Shaped p q) : Shaped q p := by
  induction h with
  | nil => exact .nil
  | same c h ih => exact .same c ih
  | word hu hv hup hvp h ih => exact .word hv hu hvp hup ih

theorem eq_of_fixed (h : Shaped p q) (hq : ∀ c ∈ q, isPlain c = false) : p = q := by
  induction h with
  | nil => rfl
  | same c h ih => rw [ih fun d hd => hq d (List.mem_cons_of_mem c hd)]
  | @word u v p q hu hv hup hvp =>
    obtain ⟨d, hd⟩ := List.exists_mem_of_ne_nil v hv
    have hplain := List.all_eq_true.mp hvp d hd
    rw [hq d (List.mem_append_left q hd)] at hplain
    cases hplain

theorem isName (h : Shaped p q) (hp : isName p = true) : isName q = true := by
  have hfixed : ∀ dots : Str, (∀ c ∈ dots, isPlain c = false) → p ≠ dots → q ≠ dots := by
    rintro dots hdots hne rfl
    exact hne (h.eq_of_fixed hdots)
  simp only [Go.isName, Bool.and_eq_true, bne_iff_ne] at hp ⊢
  exact ⟨⟨hfixed [] (by simp) hp.1.1, hfixed _ (forall_mem_of_all rfl) hp.1.2⟩,
    hfixed _ (forall_mem_of_all rfl) hp.2⟩

/-- Plain characters before two texts of one shape keep the shape of their parts. -/
theorem parts_append {u v : Str} (hu : '/' ∉ u) (hv : '/' ∉ v)
    (huv : ∀ {p q}, Shaped p q → Shaped (u ++ p) (v ++ q))
    (h : List.Forall₂ Shaped (splitOn '/' p) (splitOn '/' q)) :
    List.Forall₂ Shaped (splitOn '/' (u ++ p)) (splitOn '/' (v ++ q)) := by
  obtain ⟨part, parts, hp, hup⟩ := splitOn_append hu p
  obtain ⟨part', parts', hq, hvq⟩ := splitOn_append hv q
  rw [hp, hq] at h
  rw [hup, hvq]
  cases h with
  | cons hpart hparts => exact .cons (huv hpart) hparts

theorem parts (h : Shaped p q) : List.Forall₂ Shaped (splitOn '/' p) (splitOn '/' q) := by
  have hslash : ∀ {u : Str}, u.all isPlain = true → '/' ∉ u := by
    intro u hu hc
    cases List.all_eq_true.mp hu _ hc
  induction h with
  | nil => exact .cons .nil .nil
  | same c h ih =>
    cases Decidable.em (c = '/') with
    | inl hc =>
      rw [hc]
      exact .cons .nil ih
    | inr hc =>
      have hnot : '/' ∉ [c] := by simpa using Ne.symm hc
      exact parts_append hnot hnot (.same c) ih
  | word hu hv hup hvp h ih => exact parts_append (hslash hup) (hslash hvp) (.word hu hv hup hvp) ih

theorem names {ps qs : List Str} (h : List.Forall₂ Shaped ps qs)
    (hps : ∀ part ∈ ps, Go.isName part = true) : ∀ part ∈ qs, Go.isName part = true := by
  induction h with
  | nil => exact nofun
  | cons hpart hparts ih =>
    rw [List.forall_mem_cons] at hps ⊢
    exact ⟨hpart.isName hps.1, ih hps.2⟩

end Shaped

/-- An absolute path as `filepath.Clean` leaves it. -/
def CleanAbs (p : Str) : Prop := p.head? = some '/' ∧ clean p = p

theorem Shaped.cleanAbs {p q : Str} (h : Shaped p q) (hp : CleanAbs p) : CleanAbs q := by
  obtain ⟨hroot, hclean⟩ := hp
  cases h with
  | nil => cases hroot
  | same c h =>
    obtain rfl : c = '/' := Option.some.inj hroot
    refine ⟨rfl, ?_⟩
    rw [clean_rooted_iff] at hclean ⊢
    rcases hclean with rfl | hnames
    · exact .inl (h.symm.eq_of_fixed nofun)
    · exact .inr (names h.parts hnames)
  | @word u v p q hu hv hup =>
    obtain ⟨c, u, rfl⟩ := List.exists_cons_of_ne_nil hu
    obtain rfl : c = '/' := Option.some.inj hroot
    cases hup

/-! ## A match of the glob itself -/

/-- What a glob matches it also matches with ASCII in the place of its wildcards. -/
theorem GlobMatch.tamed {g p : Str} (h : GlobMatch g p) :
    ∃ q, GlobMatch g q ∧ Shaped p q ∧ others q = others g := by
  have hstar : isAscii '*' = true := rfl
  have hone : isAscii '?' = true := rfl
  induction h with
  | nil => exact ⟨[], .nil, .nil, rfl⟩
  | anyPath x h ih =>
    obtain ⟨q, hq, hs, hn⟩ := ih
    refine ⟨tame x ++ q, .anyPath _ hq, hs.tame_append x, ?_⟩
    rw [others_append, others_tame, others_cons, others_cons, hstar]
    simpa using hn
  | anySegment x hx hg h ih =>
    obtain ⟨q, hq, hs, hn⟩ := ih
    refine ⟨tame x ++ q, .anySegment _ (slash_notMem_tame hx) hg hq, hs.tame_append x, ?_⟩
    rw [others_append, others_tame, others_cons, hstar]
    simpa using hn
  | anyChar c hc h ih =>
    obtain ⟨q, hq, hs, hn⟩ := ih
    have hslash : '/' ∉ tame [c] := slash_notMem_tame (by simpa using Ne.symm hc)
    refine ⟨tame [c] ++ q, .anyChar _ ?_ hq, hs.tame_append [c], ?_⟩
    · simpa [tame] using Ne.symm (by simpa [tame] using hslash)
    · rw [others_append, others_tame, others_cons, hone]
      simpa using hn
  | lit hs ho h ih =>
    obtain ⟨q, hq, hs', hn⟩ := ih
    exact ⟨_ :: q, .lit hs ho hq, .same _ hs', by rw [others_cons, others_cons, hn]⟩

theorem byteRunes_head {g : Str} (h : g.head? ≠ some '*') : (byteRunes g).head? ≠ some '*' := by
  cases g with
  | nil => exact nofun
  | cons c =>
    rw [byteRunes_cons]
    cases hc : isAscii c with
    | true =>
      rw [encodeRune_ascii hc]
      exact h
    | false =>
      obtain ⟨hlen, hnone⟩ := encodeRune_other hc
      intro hhead
      cases hr : (encodeRune c).map byteRune with
      | nil =>
        rw [← List.length_map (f := byteRune), hr] at hlen
        cases hlen
      | cons d =>
        rw [hr] at hnone hhead
        obtain rfl : d = '*' := Option.some.inj hhead
        cases hnone _ List.mem_cons_self

/-- Where the bytes of a glob match, the glob matches a path of the same shape. -/
theorem GlobMatch.of_byteRunes (g : Str) {p : Str} (h : GlobMatch (byteRunes g) p) :
    ∃ q, GlobMatch g q ∧ Shaped p q := by
  have hascii : ∀ c (g : Str), isAscii c = true → byteRunes (c :: g) = c :: byteRunes g := by
    intro c g hc
    rw [byteRunes_cons, encodeRune_ascii hc]
    rfl
  -- the recursion is that of `GlobMatch`, which takes two stars at once
  induction hn : g.length using Nat.strongRecOn generalizing g p with
  | ind n ih =>
  subst hn
  cases g with
  | nil => exact ⟨p, h, nil_iff.mp h ▸ .nil⟩
  | cons c g =>
    have hg : g.length < (c :: g).length := Nat.lt_succ_self _
    cases Decidable.em (c = '*') with
    | inl hc =>
      subst hc
      rw [hascii '*' g rfl] at h
      cases Decidable.em (g.head? = some '*') with
      | inl hhead =>
        obtain ⟨g, rfl⟩ : ∃ rest, g = '*' :: rest := by
          cases g with
          | nil => cases hhead
          | cons d g => exact ⟨g, by rw [Option.some.inj hhead]⟩
        rw [hascii '*' g rfl, anyPath_iff] at h
        obtain ⟨x, s, rfl, hs⟩ := h
        obtain ⟨q, hq, hshape⟩ := ih g.length (by simp only [List.length_cons]; omega) g hs rfl
        exact ⟨x ++ q, .anyPath x hq, hshape.append_left x⟩
      | inr hhead =>
        rw [anySegment_iff (byteRunes_head hhead)] at h
        obtain ⟨x, s, rfl, hx, hs⟩ := h
        obtain ⟨q, hq, hshape⟩ := ih g.length hg g hs rfl
        exact ⟨x ++ q, .anySegment x hx hhead hq, hshape.append_left x⟩
    | inr hstar =>
      cases Decidable.em (c = '?') with
      | inl hc =>
        subst hc
        rw [hascii '?' g rfl, anyChar_iff] at h
        obtain ⟨d, s, rfl, hd, hs⟩ := h
        obtain ⟨q, hq, hshape⟩ := ih g.length hg g hs rfl
        exact ⟨d :: q, .anyChar d hd hq, .same d hshape⟩
      | inr hone =>
        cases hc : isAscii c with
        | true =>
          rw [hascii c g hc, lit_iff hstar hone] at h
          obtain ⟨s, rfl, hs⟩ := h
          obtain ⟨q, hq, hshape⟩ := ih g.length hg g hs rfl
          exact ⟨c :: q, .lit hstar hone hq, .same c hshape⟩
        | false =>
          obtain ⟨hlen, hnone⟩ := encodeRune_other hc
          have hlit : ∀ d ∈ (encodeRune c).map byteRune, d ≠ '*' ∧ d ≠ '?' := by
            intro d hd
            have hother := hnone d hd
            constructor <;> (rintro rfl; cases hother)
          rw [byteRunes_cons, append_iff hlit] at h
          obtain ⟨s, rfl, hs⟩ := h
          obtain ⟨q, hq, hshape⟩ := ih g.length hg g hs rfl
          refine ⟨[c] ++ q, .lit hstar hone hq, .word ?_ (by simp) ?_ ?_ hshape⟩
          · intro hnil
            rw [← List.length_map (f := byteRune), hnil] at hlen
            cases hlen
          · exact List.all_eq_true.mpr fun d hd => isPlain_of_other (hnone d hd)
          · simp [isPlain_of_other hc]

/-! ## Allow globs -/

theorem allowed_singleton {g p : Str} (hp : CleanAbs p) (hn : '\n' ∉ p) :
    allowed p [g] = true ↔ GlobMatch (byteRunes g) p := by
  simp only [allowed, List.any_cons, List.any_nil, Bool.or_false, hp.2]
  exact matchString_iff (toBytes g) p hn

/-- Every glob compiles. It allows the clean absolute paths that match it, and no other,
if and only if it is ASCII or could match none of them. -/
theorem allowed_glob_iff (g : Str) :
    compile (globExpr g) = some (globRegexp g) ∧
    ((∀ p, CleanAbs p → '\n' ∉ p → (allowed p [g] = true ↔ GlobMatch g p)) ↔
      (g.all isAscii = true ∨ ∀ p, CleanAbs p → '\n' ∉ p → ¬ GlobMatch g p)) := by
  refine ⟨compile_globExpr g, ?_, ?_⟩
  · intro hmeans
    apply Decidable.or_iff_not_imp_left.mpr
    intro hother p hp hn hmatch
    -- a match with as few characters outside ASCII as the glob has
    obtain ⟨q, hq, hshape, hcount⟩ := hmatch.tamed
    have hallowed := (hmeans q (hshape.cleanAbs hp) (hshape.newline_notMem hn)).mpr hq
    have hle := others_le_of_match ((allowed_singleton (hshape.cleanAbs hp)
      (hshape.newline_notMem hn)).mp hallowed)
    have htwo := others_byteRunes g
    have hzero : others g = 0 := by omega
    exact hother (others_eq_zero.mp hzero)
  · rintro (hascii | hnone) p hp hn
    · rw [allowed_singleton hp hn, byteRunes_ascii hascii]
    · rw [allowed_singleton hp hn]
      constructor
      · intro h
        obtain ⟨q, hq, hshape⟩ := GlobMatch.of_byteRunes g h
        exact absurd hq (hnone q (hshape.cleanAbs hp) (hshape.newline_notMem hn))
      · intro h
        exact absurd h (hnone p hp hn)

/-- A file is not allowed by its own name. -/
theorem glob_not_itself :
    CleanAbs "/var/log/é".toList ∧ '\n' ∉ "/var/log/é".toList ∧
    GlobMatch "/var/log/é".toList "/var/log/é".toList ∧
    allowed "/var/log/é".toList ["/var/log/é".toList] = false := by
  refine ⟨⟨rfl, by decide⟩, by decide, ?_, by decide⟩
  refine (GlobMatch.append_iff (u := "/var/log/é".toList) (g := []) ?_).mpr ⟨[], rfl, .nil⟩
  exact forall_mem_of_all (by decide)

end YominsAgent.Logs
