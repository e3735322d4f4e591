import YominsAgent.Go.Strings

/- The lexical part of Go's `path/filepath` on Unix. -/
namespace YominsAgent.Go

open List

/-- What follows the last `c`; all of it without one. -/
def afterLast {α : Type} [BEq α] (c : α) (s : List α) : List α :=
  (s.reverse.takeWhile (· != c)).reverse

/-- `strings.HasSuffix`. -/
def hasSuffix (s suffix : Str) : Bool := suffix.isSuffixOf s

/-- `strings.HasPrefix`. -/
def hasPrefix (s pre : Str) : Bool := pre.isPrefixOf s

/-- `filepath.Base`, of runes or of bytes. -/
def baseOf {α : Type} [BEq α] (slash dot : α) (p : List α) : List α :=
  if p.isEmpty then [dot]
  else
    let q := trimRightFunc (· == slash) p
    if q.isEmpty then [slash] else afterLast slash q

def base (p : Str) : Str := baseOf '/' '.' p

/-- `filepath.Ext` of a name without slashes. -/
def ext (name : Str) : Str :=
  if name.contains '.' then '.' :: afterLast '.' name else []

/-- The parts of `s` between the separators. -/
def splitOn (sep : Char) : Str → List Str
  | [] => [[]]
  | c :: s =>
    if c = sep then [] :: splitOn sep s
    else match splitOn sep s with
      | [] => [[c]]
      | part :: parts => (c :: part) :: parts

def joinWith (sep : Char) : List Str → Str
  | [] => []
  | [part] => part
  | part :: parts => part ++ sep :: joinWith sep parts

/-- One component of a path joins those before it (the last one first). -/
def cleanStep (rooted : Bool) (stack : List Str) (part : Str) : List Str :=
  if part = [] ∨ part = ['.'] then stack
  else if part = ['.', '.'] then
    match stack with
    | [] => if rooted then [] else [part]
    | top :: rest => if top = ['.', '.'] then part :: stack else rest
  else part :: stack

/-- `filepath.Clean`. -/
def clean (p : Str) : Str :=
  let rooted := hasPrefix p ['/']
  let parts := ((splitOn '/' p).foldl (cleanStep rooted) []).reverse
  if rooted then '/' :: joinWith '/' parts
  else if parts.isEmpty then ['.'] else joinWith '/' parts

/-- `filepath.Join`; empty elements are passed over. -/
def join (a b : Str) : Str :=
  if a = [] then if b = [] then [] else clean b else clean (a ++ '/' :: b)

/-! ## Splitting and joining -/

variable {sep : Char}

theorem splitOn_ne_nil (sep : Char) (s : Str) : splitOn sep s ≠ [] := by
  cases s with
  | nil => exact cons_ne_nil _ _
  | cons =>
    unfold splitOn
    split
    · exact cons_ne_nil _ _
    · split <;> exact cons_ne_nil _ _

theorem splitOn_sep (sep : Char) (s : Str) : splitOn sep (sep :: s) = [] :: splitOn sep s :=
  if_pos rfl

/-- What stands before the first separator goes to the first part. -/
theorem splitOn_append {u : Str} (hu : sep ∉ u) (s : Str) :
    ∃ part parts, splitOn sep s = part :: parts ∧
      splitOn sep (u ++ s) = (u ++ part) :: parts := by
  induction u with
  | nil =>
    obtain ⟨part, parts, h⟩ := exists_cons_of_ne_nil (splitOn_ne_nil sep s)
    exact ⟨part, parts, h, h⟩
  | cons c u ih =>
    rw [mem_cons, not_or] at hu
    obtain ⟨part, parts, hs, hus⟩ := ih hu.2
    refine ⟨part, parts, hs, ?_⟩
    have hc : ¬ c = sep := fun he => hu.1 he.symm
    simp [splitOn, hc, hus]

theorem not_mem_of_mem_splitOn {s part : Str} (h : part ∈ splitOn sep s) : sep ∉ part := by
  induction s generalizing part with
  | nil =>
    rw [splitOn, mem_singleton] at h
    rw [h]
    exact not_mem_nil
  | cons c s ih =>
    obtain ⟨first, parts, hs⟩ := exists_cons_of_ne_nil (splitOn_ne_nil sep s)
    rw [hs] at ih
    simp only [splitOn, hs] at h
    split at h
    · rcases mem_cons.mp h with rfl | h
      · exact not_mem_nil
      · exact ih h
    · next hc =>
      rcases mem_cons.mp h with rfl | h
      · rw [mem_cons, not_or]
        exact ⟨fun he => hc he.symm, ih mem_cons_self⟩
      · exact ih (mem_cons_of_mem _ h)

theorem joinWith_splitOn (sep : Char) (s : Str) : joinWith sep (splitOn sep s) = s := by
  induction s with
  | nil => rfl
  | cons c s ih =>
    obtain ⟨first, parts, hs⟩ := exists_cons_of_ne_nil (splitOn_ne_nil sep s)
    rw [hs] at ih
    simp only [splitOn, hs]
    split
    · next hc =>
      show sep :: joinWith sep (first :: parts) = c :: s
      rw [ih, hc]
    · cases parts with
      | nil | cons => exact congrArg (c :: ·) ih

theorem splitOn_joinWith {parts : List Str} (hne : parts ≠ [])
    (hsep : ∀ part ∈ parts, sep ∉ part) : splitOn sep (joinWith sep parts) = parts := by
  induction parts with
  | nil => exact absurd rfl hne
  | cons part parts ih =>
    have hpart := hsep part mem_cons_self
    cases parts with
    | nil =>
      obtain ⟨last, rest, hnil, hs⟩ := splitOn_append hpart []
      obtain ⟨rfl, rfl⟩ := cons.inj hnil.symm
      simpa [joinWith] using hs
    | cons next parts =>
      have ih' := ih (cons_ne_nil _ _) fun q hq => hsep q (mem_cons_of_mem _ hq)
      obtain ⟨first, rest, hr, hs⟩ := splitOn_append hpart (sep :: joinWith sep (next :: parts))
      rw [splitOn_sep, ih'] at hr
      obtain ⟨rfl, rfl⟩ := cons.inj hr
      simpa [joinWith] using hs

/-! ## Cleaned paths -/

/-- A component that `Clean` keeps. -/
def isName (part : Str) : Bool := part != [] && part != ['.'] && part != ['.', '.']

theorem cleanStep_name {rooted : Bool} {stack : List Str} {part : Str} (h : isName part = true) :
    cleanStep rooted stack part = part :: stack := by
  simp only [isName, Bool.and_eq_true, bne_iff_ne] at h
  obtain ⟨⟨h1, h2⟩, h3⟩ := h
  simp [cleanStep, h1, h2, h3]

theorem foldl_cleanStep_names {rooted : Bool} {parts : List Str}
    (h : ∀ part ∈ parts, isName part = true) (stack : List Str) :
    parts.foldl (cleanStep rooted) stack = parts.reverse ++ stack := by
  induction parts generalizing stack with
  | nil => rfl
  | cons part parts ih =>
    rw [foldl_cons, cleanStep_name (h part mem_cons_self),
      ih fun q hq => h q (mem_cons_of_mem _ hq)]
    simp

theorem isName_of_cleaned {l stack : List Str} (hstack : ∀ part ∈ stack, isName part = true) :
    ∀ part ∈ l.foldl (cleanStep true) stack, isName part = true ∧ (part ∈ l ∨ part ∈ stack) := by
  induction l generalizing stack with
  | nil =>
    intro part hpart
    exact ⟨hstack part hpart, .inr hpart⟩
  | cons q l ih =>
    have hstep : ∀ part ∈ cleanStep true stack q, isName part = true ∧
        (part = q ∨ part ∈ stack) := by
      intro part hpart
      unfold cleanStep at hpart
      split at hpart
      · exact ⟨hstack part hpart, .inr hpart⟩
      · next hq =>
        split at hpart
        · split at hpart
          · cases hpart
          · next top rest =>
            split at hpart
            · next htop =>
              -- the stack of a rooted path has no `..`
              have := hstack top mem_cons_self
              rw [htop] at this
              cases this
            · have hmem := mem_cons_of_mem top hpart
              exact ⟨hstack part hmem, .inr hmem⟩
        · next hdd =>
          rcases mem_cons.mp hpart with rfl | hpart
          · rw [not_or] at hq
            refine ⟨?_, .inl rfl⟩
            simp only [isName, Bool.and_eq_true, bne_iff_ne]
            exact ⟨⟨hq.1, hq.2⟩, hdd⟩
          · exact ⟨hstack part hpart, .inr hpart⟩
    intro part hpart
    rw [foldl_cons] at hpart
    obtain ⟨hname, hmem⟩ := ih (fun x hx => (hstep x hx).1) part hpart
    refine ⟨hname, ?_⟩
    rcases hmem with hmem | hmem
    · exact .inl (mem_cons_of_mem q hmem)
    · rcases (hstep part hmem).2 with rfl | hold
      · exact .inl mem_cons_self
      · exact .inr hold

theorem clean_rooted (s : Str) : clean ('/' :: s) =
    '/' :: joinWith '/' ((splitOn '/' s).foldl (cleanStep true) []).reverse := by
  have hroot : hasPrefix ('/' :: s) ['/'] = true := by simp [hasPrefix]
  simp only [clean, hroot, if_true, splitOn_sep, foldl_cons]
  rfl

/-- A rooted path is clean when it is the root, or all its components are names. -/
theorem clean_rooted_iff (s : Str) :
    clean ('/' :: s) = '/' :: s ↔ s = [] ∨ ∀ part ∈ splitOn '/' s, isName part = true := by
  rw [clean_rooted]
  constructor
  · intro h
    obtain ⟨-, hs⟩ := cons.inj h
    have hnames : ∀ part ∈ (splitOn '/' s).foldl (cleanStep true) [],
        isName part = true ∧ (part ∈ splitOn '/' s ∨ part ∈ []) := isName_of_cleaned nofun
    by_cases hnil : (splitOn '/' s).foldl (cleanStep true) [] = []
    · rw [hnil] at hs
      exact .inl hs.symm
    · right
      have hsplit : splitOn '/' (joinWith '/' ((splitOn '/' s).foldl (cleanStep true) []).reverse) =
          ((splitOn '/' s).foldl (cleanStep true) []).reverse := by
        apply splitOn_joinWith
        · simpa using hnil
        · intro part hpart
          apply not_mem_of_mem_splitOn (s := s)
          exact (hnames part (mem_reverse.mp hpart)).2.resolve_right not_mem_nil
      rw [hs] at hsplit
      intro part hpart
      rw [hsplit, mem_reverse] at hpart
      exact (hnames part hpart).1
  · rintro (rfl | h)
    · rfl
    · rw [foldl_cleanStep_names h, append_nil, reverse_reverse, joinWith_splitOn]

end YominsAgent.Go
