import YominsAgent.Go.Utf8

/- `filepath.Match` on Unix.

   A pattern is read in chunks: stars, and what stands up to the next star that is not in
   a class. The first place at which a chunk fits is taken for good. What is `true` here
   is a match without an error: a malformed chunk fits nowhere.

   Correspondence (Go ↔ Lean):
     `Match`      ↔ `fileMatch`; its attempts at one chunk are `tryChunk`, `tryStar`
     `scanChunk`  ↔ the start of `fileMatch`, then `scanBody`
     `matchChunk` ↔ `matchChunk`, `classRanges` -/
namespace YominsAgent.Go

open List Option

/-- A character of a class, which may be escaped and is not the last of the chunk. -/
def getEsc (chunk : Bytes) : Option (Char × Bytes) :=
  match chunk with
  | [] | 45 :: _ | 93 :: _ => none
  | _ => do
    let chunk := if chunk.head? = some 92 then chunk.tail else chunk
    let (r, n) ← decodeRune chunk
    if r = Char.ofNat 0xFFFD ∧ n = 1 then none
    else if chunk.drop n = [] then none
    else some (r, chunk.drop n)

/-- The ranges of a class up to its bracket: whether one has the character, and the rest. -/
def classRanges (c : Char) : Nat → Bool → Bool → Bytes → Option (Bool × Bytes)
  | 0, _, _, _ => none
  | fuel + 1, first, matched, chunk =>
    if chunk.head? = some 93 ∧ first = false then some (matched, chunk.tail)
    else do
      let (lo, chunk) ← getEsc chunk
      let (hi, chunk) ← if chunk.head? = some 45 then getEsc chunk.tail else some (lo, chunk)
      classRanges c fuel false (matched || (lo ≤ c && c ≤ hi)) chunk

/-- The rest of the text when the chunk fits its start; the fuel is the length of the chunk. -/
def matchChunk : Nat → Bytes → Bytes → Option Bytes
  | _, [], s => some s
  | 0, _ :: _, _ => none
  | _ + 1, _ :: _, [] => none
  | fuel + 1, x :: chunk, y :: s =>
    if x = 91 then do
      let (c, n) ← decodeRune (y :: s)
      let negated := chunk.head? = some 94
      let chunk := if negated then chunk.tail else chunk
      let (matched, chunk) ← classRanges c (chunk.length + 1) true false chunk
      if matched = decide negated then none else matchChunk fuel chunk ((y :: s).drop n)
    else if x = 63 then
      if y = 47 then none
      else do
        let (_, n) ← decodeRune (y :: s)
        matchChunk fuel chunk ((y :: s).drop n)
    else if x = 92 then
      match chunk with
      | [] => none
      | z :: chunk => if z = y then matchChunk fuel chunk s else none
    else if x = y then matchChunk fuel chunk s else none

/-- The chunk up to the next star, and the rest. -/
def scanBody : Bool → Bytes → Bytes × Bytes
  | _, [] => ([], [])
  | inrange, x :: p =>
    if x = 92 then
      match p with
      | [] => ([x], [])
      | y :: p => (x :: y :: (scanBody inrange p).1, (scanBody inrange p).2)
    else if x = 42 ∧ inrange = false then ([], x :: p)
    else
      let inrange := if x = 91 then true else if x = 93 then false else inrange
      (x :: (scanBody inrange p).1, (scanBody inrange p).2)

/-- The chunk fits here; the last one has to take all. -/
def fits (chunk : Bytes) (last : Bool) (s : Bytes) : Option Bytes :=
  (matchChunk chunk.length chunk s).filter fun t => t = [] || !last

/-- The chunk behind a star, which skips at least one byte. -/
def tryStar (chunk : Bytes) (last : Bool) : Bytes → Option Bytes
  | [] => none
  | y :: s => if y = 47 then none else (fits chunk last s).or (tryStar chunk last s)

def tryChunk (star : Bool) (chunk : Bytes) (last : Bool) (s : Bytes) : Option Bytes :=
  (fits chunk last s).or (if star then tryStar chunk last s else none)

theorem scanBody_append (inrange : Bool) (p : Bytes) :
    (scanBody inrange p).1 ++ (scanBody inrange p).2 = p := by
  fun_induction scanBody inrange p <;> simp_all

theorem scanBody_ne_nil {x : UInt8} (hx : x ≠ 42) (p : Bytes) : (scanBody false (x :: p)).1 ≠ [] := by
  rw [scanBody.eq_def]
  dsimp only
  split
  · split <;> simp
  · simp [hx]

theorem length_dropWhile_le {p : UInt8 → Bool} (l : Bytes) : (l.dropWhile p).length ≤ l.length :=
  (dropWhile_suffix p).length_le

theorem scanBody_lt (x : UInt8) (p : Bytes) :
    (scanBody false ((x :: p).dropWhile (· = 42))).2.length < (x :: p).length := by
  have hlen := congrArg length (scanBody_append false ((x :: p).dropWhile (· = 42)))
  rw [length_append] at hlen
  by_cases hx : x = 42
  · have hdrop : (x :: p).dropWhile (· = 42) = p.dropWhile (· = 42) := by simp [hx]
    have hle := length_dropWhile_le (p := (· = 42)) p
    rw [hdrop] at hlen ⊢
    rw [length_cons]
    omega
  · have hdrop : (x :: p).dropWhile (· = 42) = x :: p := by simp [hx]
    have hpos := length_pos_iff.mpr (scanBody_ne_nil hx p)
    rw [hdrop] at hlen ⊢
    omega

def fileMatch (pattern name : Bytes) : Bool :=
  match pattern with
  | [] => name = []
  | x :: p =>
    let scanned := scanBody false ((x :: p).dropWhile (· = 42))
    if x = 42 ∧ scanned.1 = [] then !name.contains 47
    else match tryChunk (x = 42) scanned.1 (scanned.2 = []) name with
      | none => false
      | some t => fileMatch scanned.2 t
termination_by pattern.length
decreasing_by exact scanBody_lt x p

/-! ## A literal start -/

/-- No byte that means something in a pattern. -/
def isLiteral (x : UInt8) : Bool := x != 42 && x != 63 && x != 91 && x != 92

section Literal
variable {lit p : Bytes} {x : UInt8}

theorem isLiteral_iff : isLiteral x = true ↔ x ≠ 42 ∧ x ≠ 63 ∧ x ≠ 91 ∧ x ≠ 92 := by
  simp [isLiteral, and_assoc]

theorem scanBody_cons (h : isLiteral x = true) (p : Bytes) :
    scanBody false (x :: p) = (x :: (scanBody false p).1, (scanBody false p).2) := by
  obtain ⟨h1, -, h2, h3⟩ := isLiteral_iff.mp h
  rw [scanBody.eq_def]
  simp [h1, h2, h3]

theorem matchChunk_cons (h : isLiteral x = true) (fuel : Nat) (chunk : Bytes) (y : UInt8) (s : Bytes) :
    matchChunk (fuel + 1) (x :: chunk) (y :: s) =
      if x = y then matchChunk fuel chunk s else none := by
  obtain ⟨-, h1, h2, h3⟩ := isLiteral_iff.mp h
  rw [matchChunk.eq_def]
  simp [h1, h2, h3]

variable (h : ∀ x ∈ lit, isLiteral x = true)
include h

theorem scanBody_literal : scanBody false (lit ++ p) =
    (lit ++ (scanBody false p).1, (scanBody false p).2) := by
  induction lit with
  | nil => rfl
  | cons x lit ih =>
    rw [forall_mem_cons] at h
    rw [cons_append, scanBody_cons h.1, ih h.2]
    rfl

theorem matchChunk_literal (fuel : Nat) (chunk s : Bytes) :
    matchChunk (lit.length + fuel) (lit ++ chunk) (lit ++ s) = matchChunk fuel chunk s := by
  induction lit with
  | nil => simp
  | cons x lit ih =>
    rw [forall_mem_cons] at h
    rw [length_cons, Nat.add_right_comm, cons_append, cons_append,
      matchChunk_cons h.1, if_pos rfl, ih h.2]

theorem prefix_of_matchChunk {fuel : Nat} {chunk s t : Bytes}
    (hm : matchChunk fuel (lit ++ chunk) s = some t) : lit <+: s := by
  induction lit generalizing fuel s with
  | nil => exact nil_prefix
  | cons x lit ih =>
    rw [forall_mem_cons] at h
    cases fuel with
    | zero => cases hm
    | succ fuel =>
      cases s with
      | nil => cases hm
      | cons y s =>
        rw [cons_append, matchChunk_cons h.1] at hm
        split at hm
        · next hxy => exact cons_prefix_cons.mpr ⟨hxy, ih h.2 hm⟩
        · cases hm

theorem fits_literal (chunk : Bytes) (last : Bool) (s : Bytes) :
    fits (lit ++ chunk) last (lit ++ s) = fits chunk last s := by
  rw [fits, length_append, matchChunk_literal h]
  rfl

theorem fileMatch_start (hne : lit ≠ []) (name : Bytes) : fileMatch (lit ++ p) name =
    match fits (lit ++ (scanBody false p).1) ((scanBody false p).2 = []) name with
    | none => false
    | some t => fileMatch (scanBody false p).2 t := by
  obtain ⟨x, r, rfl⟩ := exists_cons_of_ne_nil hne
  have hx : x ≠ 42 := (isLiteral_iff.mp (h x mem_cons_self)).1
  have hdrop : (x :: r ++ p).dropWhile (· = 42) = x :: r ++ p := by simp [hx]
  rw [cons_append, fileMatch, ← cons_append, hdrop, scanBody_literal h]
  simp [hx, tryChunk]

/-- A literal start of both is of no account. -/
theorem fileMatch_literal (hne : lit ≠ []) (name : Bytes) :
    fileMatch (lit ++ p) (lit ++ name) = fileMatch p name := by
  rw [fileMatch_start h hne, fits_literal h]
  cases p with
  | nil =>
    rw [fileMatch]
    cases name <;> simp [scanBody, fits, matchChunk, fileMatch, Option.filter]
  | cons y p =>
    by_cases hy : y = 42
    · -- the chunk ends at the star
      have hscan : scanBody false (y :: p) = ([], y :: p) := by
        rw [scanBody.eq_def]
        simp [hy]
      simp [hscan, fits, matchChunk, Option.filter]
    · have hdrop : (y :: p).dropWhile (· = 42) = y :: p := by simp [hy]
      rw [fileMatch.eq_def (y :: p)]
      simp [hdrop, hy, tryChunk]

theorem prefix_of_fileMatch (hne : lit ≠ []) {name : Bytes} (hm : fileMatch (lit ++ p) name = true) :
    lit <+: name := by
  rw [fileMatch_start h hne] at hm
  split at hm
  · cases hm
  · next t ht => exact prefix_of_matchChunk h (eq_some_of_filter_eq_some ht)

end Literal

/-! ## A start that matches itself -/

/-- Literal bytes, and stars before a slash. -/
def matchesItself : Bytes → Bool
  | [] => true
  | x :: d => (isLiteral x || x = 42 && d.head? = some 47) && matchesItself d

/-- The star takes the star: it cannot take the slash. -/
theorem fileMatch_star (p name : Bytes) :
    fileMatch (42 :: 47 :: p) (42 :: 47 :: name) = fileMatch (47 :: p) (47 :: name) := by
  have hslash : ∀ x ∈ ([47] : Bytes), isLiteral x = true := by simp [isLiteral]
  have hscan := scanBody_cons (x := 47) (by decide) p
  have hnone : fits (47 :: (scanBody false p).1) ((scanBody false p).2 = []) (42 :: 47 :: name) =
      none := by
    rw [fits, length_cons, matchChunk_cons (by decide), if_neg (by decide)]
    rfl
  rw [show 47 :: p = [47] ++ p from rfl, fileMatch_start hslash (by simp)]
  rw [fileMatch]
  simp [hscan, tryChunk, tryStar, hnone]

theorem fileMatch_self {d : Bytes} (h : matchesItself d = true) (p name : Bytes) :
    fileMatch (d ++ p) (d ++ name) = fileMatch p name := by
  induction d with
  | nil => rfl
  | cons x d ih =>
    simp only [matchesItself, Bool.and_eq_true, Bool.or_eq_true, decide_eq_true_eq] at h
    obtain ⟨hlit | ⟨rfl, hhead⟩, hd⟩ := h
    · have hx : ∀ y ∈ [x], isLiteral y = true := by simpa using hlit
      exact (fileMatch_literal hx (by simp) (d ++ name)).trans (ih hd)
    · obtain ⟨y, d, rfl⟩ := exists_cons_of_ne_nil (l := d) (by rintro rfl; cases hhead)
      cases hhead
      exact (fileMatch_star (d ++ p) (d ++ name)).trans (ih hd)

/-! ## A name with fewer marks -/

/-- A byte that begins something in a pattern, apart from the star. -/
def isOperator (x : UInt8) : Bool := x = 63 || x = 91 || x = 92

/-- One of these, or the end of a class. -/
def isMark (x : UInt8) : Bool := isOperator x || x = 93

theorem operator_isMark {x : UInt8} (h : isOperator x = true) : isMark x = true := by
  rw [isMark, h]
  rfl

theorem getEsc_suffix {chunk rest : Bytes} {r : Char} (h : getEsc chunk = some (r, rest)) :
    rest <:+ chunk := by
  unfold getEsc at h
  split at h
  · cases h
  · cases h
  · cases h
  · generalize hd : (if chunk.head? = some 92 then chunk.tail else chunk) = d at h
    have hsuffix : d <:+ chunk := by
      rw [← hd]
      split
      · exact tail_suffix chunk
      · exact suffix_rfl
    obtain ⟨⟨c, n⟩, -, h⟩ := bind_eq_some_iff.mp h
    simp only [ite_none_left_eq_some, some.injEq, Prod.mk.injEq] at h
    exact h.2.2.2 ▸ (drop_suffix n d).trans hsuffix

/-- A class is read up to a closing bracket. -/
theorem classRanges_suffix {c : Char} {fuel : Nat} {first matched b : Bool} {chunk rest : Bytes}
    (h : classRanges c fuel first matched chunk = some (b, rest)) : 93 :: rest <:+ chunk := by
  induction fuel generalizing first matched chunk with
  | zero => cases h
  | succ fuel ih =>
    unfold classRanges at h
    split at h
    · next hend =>
      obtain ⟨x, more, rfl⟩ := exists_cons_of_ne_nil (l := chunk) (by rintro rfl; cases hend.1)
      cases hend.1
      cases h
      exact suffix_rfl
    · obtain ⟨⟨lo, c1⟩, h1, h⟩ := bind_eq_some_iff.mp h
      dsimp only at h
      split at h
      · obtain ⟨⟨hi, c2⟩, h2, h⟩ := bind_eq_some_iff.mp h
        exact (ih h).trans ((getEsc_suffix h2).trans ((tail_suffix c1).trans (getEsc_suffix h1)))
      · exact (ih h).trans (getEsc_suffix h1)

theorem countP_encodeRune (c : Char) : (encodeRune c).countP isMark ≤ 1 := by
  by_cases hc : c.toNat < 0x80
  · rw [encodeRune, if_pos hc]
    exact countP_le_length
  · rw [countP_eq_zero.mpr fun x hx hmark => ?_]
    · exact Nat.zero_le 1
    · have hhigh := (encodeRune_high hc).2 x hx
      simp only [isMark, isOperator, Bool.or_eq_true, decide_eq_true_eq] at hmark
      rcases hmark with ((rfl | rfl) | rfl) | rfl <;> exact absurd hhigh (by decide)

/-- A chunk that fits at all fits a text with fewer marks than it has, or has no operator and
fits itself. -/
theorem matchChunk_plainer {fuel : Nat} {chunk s t : Bytes} (h : matchChunk fuel chunk s = some t) :
    ∃ w, (∀ r, matchChunk fuel chunk (w ++ r) = some r) ∧
      (w.countP isMark < chunk.countP isMark ∨ w = chunk ∧ chunk.countP isOperator = 0) := by
  -- what an operator stands for has fewer marks than it
  have hless : ∀ {w v chunk c' : Bytes},
      (w.countP isMark < chunk.countP isMark ∨ w = chunk ∧ chunk.countP isOperator = 0) →
      v.countP isMark + chunk.countP isMark < c'.countP isMark →
      (v ++ w).countP isMark < c'.countP isMark := by
    rintro w v chunk c' (hlt | ⟨rfl, -⟩) hv <;> rw [countP_append] <;> omega
  fun_induction matchChunk fuel chunk s with
  | case1 => exact ⟨[], fun r => by simp [matchChunk], .inr ⟨rfl, rfl⟩⟩
  | case4 fuel chunk y s ih =>
    -- a class: the character it took, whatever comes behind it
    obtain ⟨⟨c, n⟩, -, h⟩ := bind_eq_some_iff.mp h
    dsimp only at h
    obtain ⟨⟨matched, rest⟩, hranges, h⟩ := bind_eq_some_iff.mp h
    obtain ⟨hok, h⟩ := ite_none_left_eq_some.mp h
    obtain ⟨w, hw, hplain⟩ := ih n rest h
    refine ⟨encodeRune c ++ w, fun r => ?_, .inl (hless hplain ?_)⟩
    · have hd := decodeRune_encodeRune c (w ++ r)
      have hdrop : drop (encodeRune c).length (encodeRune c ++ (w ++ r)) = w ++ r := drop_left
      rw [append_assoc]
      generalize encodeRune c ++ (w ++ r) = text at hd hdrop
      cases text with
      | nil => cases hd
      | cons y' s' => simp [matchChunk, hd, hranges, hok, hdrop, hw]
    · have hsuffix := classRanges_suffix hranges
      have hcut : (if chunk.head? = some 94 then chunk.tail else chunk) <:+ chunk := by
        split
        · exact tail_suffix chunk
        · exact suffix_rfl
      have hcount := (hsuffix.trans hcut).sublist.countP_le (p := isMark)
      have hrune := countP_encodeRune c
      have h91 : isMark 91 = true := by decide
      have h93 : isMark 93 = true := by decide
      rw [countP_cons_of_pos h93] at hcount
      rw [countP_cons_of_pos h91]
      omega
  | case6 fuel chunk y s _ _ ih =>
    obtain ⟨⟨c, n⟩, -, h⟩ := bind_eq_some_iff.mp h
    obtain ⟨w, hw, hplain⟩ := ih n h
    refine ⟨[97] ++ w, fun r => ?_, .inl (hless hplain (by simp [isMark, isOperator]))⟩
    simp [matchChunk, decodeRune, hw]
  | case8 fuel s z chunk _ _ ih =>
    obtain ⟨w, hw, hplain⟩ := ih h
    refine ⟨[z] ++ w, fun r => ?_, .inl (hless hplain ?_)⟩
    · simp [matchChunk, hw]
    · have h92 : isMark 92 = true := by decide
      rw [countP_cons_of_pos h92, countP_cons, countP_cons, countP_nil]
      omega
  | case10 fuel chunk y s h1 h2 h3 ih =>
    obtain ⟨w, hw, hplain⟩ := ih h
    refine ⟨y :: w, fun r => by simp [matchChunk, h1, h2, h3, hw], ?_⟩
    rcases hplain with hlt | ⟨rfl, hno⟩
    · left
      rw [countP_cons, countP_cons]
      omega
    · exact .inr ⟨rfl, by simp [isOperator, h1, h2, h3, hno]⟩
  | _ => cases h

theorem star_notMem_scanBody {p : Bytes} (h : (scanBody false p).1.countP isOperator = 0) :
    42 ∉ (scanBody false p).1 := by
  induction p with
  | nil => exact not_mem_nil
  | cons x p ih =>
    by_cases hlit : isLiteral x = true
    · have hx := (isLiteral_iff.mp hlit).1
      rw [scanBody_cons hlit] at h ⊢
      rw [mem_cons, not_or]
      exact ⟨Ne.symm hx, ih (Nat.eq_zero_of_le_zero (h ▸ (sublist_cons_self _ _).countP_le))⟩
    · rw [scanBody.eq_def] at h ⊢
      dsimp only at h ⊢
      repeat' split
      all_goals simp_all [isOperator, isLiteral]

theorem fits_of_tryChunk {star last : Bool} {chunk s t : Bytes} (h : tryChunk star chunk last s = some t) :
    ∃ s', fits chunk last s' = some t := by
  have hstar : ∀ s, tryStar chunk last s = some t → ∃ s', fits chunk last s' = some t := by
    intro s hs
    induction s with
    | nil => cases hs
    | cons y s ih =>
      obtain ⟨-, hs⟩ := ite_none_left_eq_some.mp hs
      rcases or_eq_some_iff.mp hs with hs | ⟨-, hs⟩
      · exact ⟨s, hs⟩
      · exact ih hs
  rcases or_eq_some_iff.mp h with h | ⟨-, h⟩
  · exact ⟨s, h⟩
  · split at h
    · exact hstar s h
    · cases h

theorem countP_dropWhile {q : UInt8 → Bool} (hq : q 42 = false) (p : Bytes) :
    p.countP q = (p.dropWhile (· = 42)).countP q := by
  induction p with
  | nil => rfl
  | cons x p ih => by_cases hx : x = 42 <;> simp [hx, hq, ih]

/-- A pattern that matches at all matches a name with fewer marks than it has, or has no
operator and matches a name without stars. -/
theorem fileMatch_plainer {p name : Bytes} (h : fileMatch p name = true) :
    ∃ n, fileMatch p n = true ∧ (n.countP isMark < p.countP isMark ∨
      p.countP isOperator = 0 ∧ 42 ∉ n ∧ n.countP isMark ≤ p.countP isMark) := by
  fun_induction fileMatch p name with
  | case1 => exact ⟨[], by simp [fileMatch], .inr (by simp)⟩
  | case2 name x p scanned hstar =>
    refine ⟨[], by rw [fileMatch, if_pos hstar]; rfl, ?_⟩
    by_cases hno : (x :: p).countP isMark = 0
    · have hle : (x :: p).countP isOperator ≤ (x :: p).countP isMark :=
        countP_mono_left fun _ _ => operator_isMark
      exact .inr ⟨Nat.eq_zero_of_le_zero (hno ▸ hle), not_mem_nil, Nat.zero_le _⟩
    · exact .inl (Nat.pos_of_ne_zero hno)
  | case3 => cases h
  | case4 name x p scanned hstar t ht ih =>
    obtain ⟨s, hs⟩ := fits_of_tryChunk ht
    obtain ⟨w, hw, hchunk⟩ := matchChunk_plainer (eq_some_of_filter_eq_some hs)
    obtain ⟨n, hn, hrest⟩ := ih h
    have hfits : fits scanned.1 (scanned.2 = []) (w ++ n) = some n := by
      rw [fits, hw]
      by_cases hlast : scanned.2 = []
      · rw [hlast] at hn
        simp_all [fileMatch]
      · simp [hlast]
    refine ⟨w ++ n, ?_, ?_⟩
    · rw [fileMatch, if_neg hstar, tryChunk, hfits]
      exact hn
    have hscan : scanned.1 ++ scanned.2 = (x :: p).dropWhile (· = 42) := scanBody_append _ _
    have hcount : ∀ q, q 42 = false → (x :: p).countP q = scanned.1.countP q + scanned.2.countP q := by
      intro q hq
      rw [countP_dropWhile hq, ← hscan, countP_append]
    rw [countP_append, hcount isMark rfl, hcount isOperator rfl]
    rcases hchunk with hlt | ⟨rfl, hno⟩
    · rcases hrest with hrest | hrest <;> omega
    rcases hrest with hrest | ⟨hno', hstar', hle⟩
    · omega
    · refine .inr ⟨by omega, ?_, by omega⟩
      rw [mem_append, not_or]
      exact ⟨star_notMem_scanBody hno, hstar'⟩

/-- When only names behind `lit` match a pattern that begins with it, and one does, then it is literal. -/
theorem literal_of_start {lit p name : Bytes} (hp : ∀ x ∈ p, isMark x = false)
    (h : fileMatch (lit ++ p) name = true) (hpre : ∀ n, fileMatch (lit ++ p) n = true → lit <+: n) :
    ∀ x ∈ lit, isLiteral x = true := by
  obtain ⟨n, hn, hplain⟩ := fileMatch_plainer h
  have hlit := hpre n hn
  have hcount := hlit.sublist.countP_le (p := isMark)
  have hnone : p.countP isMark = 0 := countP_eq_zero.mpr fun x hx => by simp [hp x hx]
  rw [countP_append, hnone] at hplain
  rcases hplain with hlt | ⟨hno, hstar, -⟩
  · omega
  · intro x hx
    have hop := countP_eq_zero.mp hno x (mem_append_left p hx)
    have hne : x ≠ 42 := fun he => hstar (he ▸ hlit.subset hx)
    simp_all [isOperator, isLiteral]

end YominsAgent.Go
