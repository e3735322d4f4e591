import Mathlib.Data.List.Basic
import YominsAgent.Go.Decimal
import YominsAgent.Go.Path

/- JSON as `encoding/json` reads and writes it.

   The text is read by the scanner's grammar: `value` gives the document at the start of a text and
   what follows it, nested at most `maxNestingDepth` deep. `json.Unmarshal` wants the whole text to
   be one document (`parse`), a `json.Decoder` takes the first one (`decodeFirst`). A number keeps
   its literal; what it is converted to is up to the type it is decoded into. `print` is
   `json.Marshal`, which writes no blanks and escapes what HTML would read.

   A document whose numbers are integers reads back as it was written (`parse_written`).

   A struct is described by its fields (`Field`): the name of the tag, what is written for it and
   how a member of that name sets it. Writing a struct and reading it into the zero one transfers
   field after field (`decode_encode`).

   Correspondence (Go ↔ Lean):
     `json.Unmarshal`, `Decoder.Decode` ↔ `parse`, `decodeFirst`, then `decodeStruct`
     `json.Marshal`                     ↔ `print` of `encodeStruct`
     `unquote`, `getu4`                 ↔ `stringBody`, `stringChar`, `hex4`
     `appendString` with `escapeHTML`   ↔ `quote`, `escapeChar`
     `byExactName`, `byFoldedName`      ↔ `fieldFor`
     `,omitempty`                       ↔ `Field.ptr`, `Field.slice`

   A nil slice and an empty one are told apart (`Slice`). Decoding a member that stands twice merges
   into the first value as Go does; the elements beyond the length of a slice that shrank in between
   are not kept. -/
namespace YominsAgent.Go

open List Option

/-- A slice: `none` is nil. -/
abbrev Slice (α : Type) := Option (List α)

namespace Slice

variable {α : Type}

def elems (s : Slice α) : List α := s.getD []

/-- `append(s, t...)`: nothing to append leaves even a nil slice as it is. -/
def append (s t : Slice α) : Slice α := if t.elems.isEmpty then s else some (s.elems ++ t.elems)

/-- What `omitempty` makes of a slice that is written and read back. -/
def omitEmpty (s : Slice α) : Slice α := if s.elems.isEmpty then none else s

@[simp] theorem elems_append (s t : Slice α) : (s.append t).elems = s.elems ++ t.elems := by
  unfold append
  split
  case isTrue h => simp [isEmpty_iff.mp h]
  case isFalse => rfl

@[simp] theorem elems_omitEmpty (s : Slice α) : s.omitEmpty.elems = s.elems := by
  unfold omitEmpty
  split
  case isTrue h => exact (isEmpty_iff.mp h).symm
  case isFalse => rfl

theorem omitEmpty_eq (s : Slice α) : s.omitEmpty = if s.elems.isEmpty then none else some s.elems := by
  cases s with
  | none => rfl
  | some => rfl

theorem omitEmpty_eq_of_elems {s t : Slice α} (h : s.elems = t.elems) :
    s.omitEmpty = t.omitEmpty := by
  rw [omitEmpty_eq, omitEmpty_eq, h]

@[simp] theorem append_omitEmpty (s t : Slice α) : s.append t.omitEmpty = s.append t := by
  simp only [append, elems_omitEmpty]

end Slice

inductive Json where
  | null
  | bool (b : Bool)
  | num (literal : Str)
  | str (s : Str)
  | arr (elems : List Json)
  | obj (members : List (Str × Json))

namespace Json

/-! ## Reading -/

def isBlank (c : Char) : Bool := c == ' ' || c == '\t' || c == '\r' || c == '\n'

def skip (s : Str) : Str := s.dropWhile isBlank

/-- The digits at the start, if there are any. -/
def digits (s : Str) : Option (Str × Str) :=
  if (s.takeWhile Char.isDigit).isEmpty then none
  else some (s.takeWhile Char.isDigit, s.dropWhile Char.isDigit)

def integer : Str → Option (Str × Str)
  | '0' :: r => some (['0'], r)
  | s => digits s

def fraction : Str → Option (Str × Str)
  | '.' :: r => (digits r).map fun (ds, r) => ('.' :: ds, r)
  | s => some ([], s)

def sign : Str → Str × Str
  | '+' :: r => (['+'], r)
  | '-' :: r => (['-'], r)
  | r => ([], r)

def exponent : Str → Option (Str × Str)
  | [] => some ([], [])
  | c :: r =>
    if c = 'e' ∨ c = 'E' then
      (digits (sign r).2).map fun (ds, rest) => (c :: ((sign r).1 ++ ds), rest)
    else some ([], c :: r)

def number (s : Str) : Option (Str × Str) := do
  let (minus, s) := match s with
    | '-' :: r => (['-'], r)
    | r => ([], r)
  let (i, s) ← integer s
  let (f, s) ← fraction s
  let (e, s) ← exponent s
  some (minus ++ i ++ f ++ e, s)

def hexVal (c : Char) : Option Nat :=
  if c.isDigit then some (c.toNat - '0'.toNat)
  else if 'a' ≤ c ∧ c ≤ 'f' then some (c.toNat - 'a'.toNat + 10)
  else if 'A' ≤ c ∧ c ≤ 'F' then some (c.toNat - 'A'.toNat + 10)
  else none

/-- The four hexadecimal digits of a `\u` escape. -/
def hex4 : Str → Option (Nat × Str)
  | a :: b :: c :: d :: r => do
    let a ← hexVal a
    let b ← hexVal b
    let c ← hexVal c
    let d ← hexVal d
    some (((a * 16 + b) * 16 + c) * 16 + d, r)
  | _ => none

/-- The `\u` escape that may follow the first half of a surrogate pair. -/
def secondHalf : Str → Option (Nat × Str)
  | '\\' :: 'u' :: r => hex4 r
  | _ => none

/-- The character of a `\u` escape: surrogates count in pairs, one alone is
U+FFFD. -/
def unicode (n : Nat) (r : Str) : Char × Str :=
  if 0xD800 ≤ n ∧ n < 0xE000 then
    match secondHalf r with
    | some (m, r') =>
      if n < 0xDC00 ∧ 0xDC00 ≤ m ∧ m < 0xE000 then
        (Char.ofNat (0x10000 + (n - 0xD800) * 1024 + (m - 0xDC00)), r')
      else (Char.ofNat 0xFFFD, r)
    | none => (Char.ofNat 0xFFFD, r)
  else (Char.ofNat n, r)

/-- What a backslash and `c` stand for. -/
def unescape (c : Char) : Option Char :=
  if c = '"' ∨ c = '\\' ∨ c = '/' then some c
  else if c = 'b' then some (Char.ofNat 8)
  else if c = 'f' then some (Char.ofNat 12)
  else if c = 'n' then some '\n'
  else if c = 'r' then some '\r'
  else if c = 't' then some '\t'
  else none

def stringChar : Str → Option (Char × Str)
  | [] => none
  | c :: r =>
    if c = '\\' then
      match r with
      | [] => none
      | e :: r =>
        if e = 'u' then (hex4 r).map fun (n, r) => unicode n r
        else (unescape e).map fun e => (e, r)
    else if c = '"' ∨ c.toNat < 0x20 then none
    else some (c, r)

/-- The rest of a string, up to its closing quote. -/
def stringBody : Nat → Str → Option (Str × Str)
  | 0, _ => none
  | fuel + 1, s =>
    if s.head? = some '"' then some ([], s.tail)
    else do
      let (c, s) ← stringChar s
      let (t, s) ← stringBody fuel s
      some (c :: t, s)

def string (s : Str) : Option (Str × Str) :=
  if s.head? = some '"' then stringBody s.length s.tail else none

/-- One item or more, with commas between them, up to `close`. -/
def items {α : Type} (item : Str → Option (α × Str)) (close : Char) : Nat → Str → Option (List α × Str)
  | 0, _ => none
  | fuel + 1, s => do
    let (a, s) ← item (skip s)
    match skip s with
    | [] => none
    | c :: s =>
      if c = close then some ([a], s)
      else if c = ',' then
        let (l, s) ← items item close fuel s
        some (a :: l, s)
      else none

/-- The items of an array or object that has just been opened. -/
def sequence {α : Type} (item : Str → Option (α × Str)) (close : Char) (s : Str) :
    Option (List α × Str) :=
  if (skip s).head? = some close then some ([], (skip s).tail) else items item close s.length s

def member (value : Str → Option (Json × Str)) (s : Str) : Option ((Str × Json) × Str) := do
  let (k, s) ← string s
  match skip s with
  | ':' :: s => do
    let (v, s) ← value (skip s)
    some ((k, v), s)
  | _ => none

def literal (word : Str) (j : Json) (s : Str) : Option (Json × Str) :=
  if hasPrefix s word then some (j, s.drop word.length) else none

/-- A value that is neither an array nor an object. -/
def scalar (s : Str) : Option (Json × Str) :=
  match s with
  | '"' :: _ => (string s).map fun (t, r) => (.str t, r)
  | 't' :: _ => literal "true".toList (.bool true) s
  | 'f' :: _ => literal "false".toList (.bool false) s
  | 'n' :: _ => literal "null".toList .null s
  | _ => (number s).map fun (l, r) => (.num l, r)

/-- The value at the start of the text, at most `depth` arrays and objects
deep. -/
def value : Nat → Str → Option (Json × Str)
  | 0, s => if s.head? = some '{' ∨ s.head? = some '[' then none else scalar s
  | depth + 1, s =>
    if s.head? = some '{' then
      (sequence (member (value depth)) '}' s.tail).map fun (l, r) => (.obj l, r)
    else if s.head? = some '[' then
      (sequence (value depth) ']' s.tail).map fun (l, r) => (.arr l, r)
    else scalar s

def maxNestingDepth : Nat := 10000

/-- `json.Unmarshal`, up to the type decoded into. -/
def parse (s : Str) : Option Json :=
  match value maxNestingDepth (skip s) with
  | some (j, r) => if (skip r).isEmpty then some j else none
  | none => none

/-- `json.NewDecoder(r).Decode`, up to the type decoded into. -/
def decodeFirst (s : Str) : Option Json := (value maxNestingDepth (skip s)).map Prod.fst

/-! ## Writing -/

def hexDigit (n : Nat) : Char := "0123456789abcdef".toList.getD n '0'

def escapeChar (c : Char) : Str :=
  if c = '"' ∨ c = '\\' then ['\\', c]
  else if c.toNat = 8 then ['\\', 'b']
  else if c.toNat = 12 then ['\\', 'f']
  else if c = '\n' then ['\\', 'n']
  else if c = '\r' then ['\\', 'r']
  else if c = '\t' then ['\\', 't']
  else if c.toNat < 0x20 ∨ c = '<' ∨ c = '>' ∨ c = '&' then
    ['\\', 'u', '0', '0', hexDigit (c.toNat / 16), hexDigit (c.toNat % 16)]
  else if c.toNat = 0x2028 ∨ c.toNat = 0x2029 then
    ['\\', 'u', '2', '0', '2', hexDigit (c.toNat % 16)]
  else [c]

def quote (s : Str) : Str := '"' :: (s.flatMap escapeChar ++ ['"'])

mutual

/-- `json.Marshal`. -/
def print : Json → Str
  | .null => "null".toList
  | .bool true => "true".toList
  | .bool false => "false".toList
  | .num literal => literal
  | .str s => quote s
  | .arr elems => '[' :: (joinWith ',' (printElems elems) ++ [']'])
  | .obj members => '{' :: (joinWith ',' (printMembers members) ++ ['}'])

def printElems : List Json → List Str
  | [] => []
  | j :: js => print j :: printElems js

def printMember : Str × Json → Str
  | (k, j) => quote k ++ ':' :: print j

def printMembers : List (Str × Json) → List Str
  | [] => []
  | m :: ms => printMember m :: printMembers ms

end

theorem printElems_eq (l : List Json) : printElems l = l.map print := by
  induction l with
  | nil => rfl
  | cons j js ih => simp [printElems, ih]

theorem printMembers_eq (l : List (Str × Json)) : printMembers l = l.map printMember := by
  induction l with
  | nil => rfl
  | cons m ms ih => simp [printMembers, ih]

theorem printMember_eq (m : Str × Json) : printMember m = quote m.1 ++ ':' :: print m.2 := by
  obtain ⟨k, j⟩ := m
  simp [printMember]

/-! ## What was written reads back -/

/-- A text that starts with something other than a blank. -/
def Solid (s : Str) : Prop := ∃ c r, s = c :: r ∧ isBlank c = false

theorem Solid.append {s : Str} (h : Solid s) (r : Str) : Solid (s ++ r) := by
  obtain ⟨c, t, rfl, hc⟩ := h
  exact ⟨c, t ++ r, rfl, hc⟩

theorem Solid.skip_eq {s : Str} (h : Solid s) : skip s = s := by
  obtain ⟨c, r, rfl, hc⟩ := h
  simp [skip, hc]

theorem hexVal_hexDigit : ∀ n < 16, hexVal (hexDigit n) = some n := by decide

variable {n : Nat}

theorem hex4_low {a b : Char} {x y : Nat} (ha : hexVal a = some x) (hb : hexVal b = some y)
    (hn : n < 256) (r : Str) :
    hex4 (a :: b :: hexDigit (n / 16) :: hexDigit (n % 16) :: r) =
      some ((x * 16 + y) * 256 + n, r) := by
  have h1 := hexVal_hexDigit (n / 16) (by omega)
  have h2 := hexVal_hexDigit (n % 16) (by omega)
  simp only [hex4, ha, hb, h1, h2, bind_eq_bind, bind_some, some.injEq, Prod.mk.injEq, and_true]
  omega

variable {c : Char}

theorem unicode_char (h : c.toNat < 0xD800) (r : Str) : unicode c.toNat r = (c, r) := by
  unfold unicode
  rw [if_neg (by omega), Char.ofNat_toNat]

theorem char_eq_of_toNat (h : c.toNat = n) : c = Char.ofNat n := by
  rw [← h, Char.ofNat_toNat]

theorem stringChar_escapeChar (c : Char) (r : Str) :
    stringChar (escapeChar c ++ r) = some (c, r) := by
  unfold escapeChar
  split
  case isTrue h => rcases h with rfl | rfl <;> simp [stringChar, unescape]
  case isFalse hq =>
  split
  case isTrue h => rw [char_eq_of_toNat h]; simp [stringChar, unescape]
  case isFalse =>
  split
  case isTrue h => rw [char_eq_of_toNat h]; simp [stringChar, unescape]
  case isFalse =>
  split
  case isTrue h => subst h; simp [stringChar, unescape]
  case isFalse =>
  split
  case isTrue h => subst h; simp [stringChar, unescape]
  case isFalse =>
  split
  case isTrue h => subst h; simp [stringChar, unescape]
  case isFalse =>
  split
  case isTrue h =>
    have hn : c.toNat < 256 := by
      rcases h with h | rfl | rfl | rfl
      · omega
      all_goals decide
    have h4 := hex4_low (a := '0') (b := '0') rfl rfl hn r
    simp [stringChar, h4, unicode_char (show c.toNat < 0xD800 by omega)]
  case isFalse hlow =>
  split
  case isTrue h =>
    rcases h with h | h <;> rw [char_eq_of_toNat h] <;> rfl
  case isFalse =>
    rw [not_or] at hq
    rw [not_or] at hlow
    simp [stringChar, hq.1, hq.2]
    omega

theorem escapeChar_head (c : Char) (r : Str) : (escapeChar c ++ r).head? ≠ some '"' := by
  intro h
  have hr := stringChar_escapeChar c r
  cases hs : escapeChar c ++ r with
  | nil => rw [hs] at h; cases h
  | cons =>
    rw [hs] at h hr
    cases h
    simp [stringChar] at hr

variable {fuel : Nat}

theorem stringBody_escaped (s r : Str) (hf : s.length < fuel) :
    stringBody fuel (s.flatMap escapeChar ++ '"' :: r) = some (s, r) := by
  induction s generalizing fuel with
  | nil =>
    obtain ⟨n, rfl⟩ : ∃ n, fuel = n + 1 := ⟨fuel - 1, by simp at hf; omega⟩
    simp [stringBody]
  | cons c s ih =>
    obtain ⟨n, rfl⟩ : ∃ n, fuel = n + 1 := ⟨fuel - 1, by simp at hf; omega⟩
    have hn : s.length < n := by simpa using hf
    have hc := stringChar_escapeChar c (s.flatMap escapeChar ++ '"' :: r)
    have hh := escapeChar_head c (s.flatMap escapeChar ++ '"' :: r)
    rw [flatMap_cons, append_assoc]
    simp only [stringBody, if_neg hh, hc, ih hn, bind_eq_bind, bind_some]

theorem length_le_escaped (s : Str) : s.length ≤ (s.flatMap escapeChar).length := by
  induction s with
  | nil => exact Nat.le_refl _
  | cons c =>
    have hc : 0 < (escapeChar c).length := by
      rw [length_pos_iff]
      intro h
      have := stringChar_escapeChar c []
      rw [h] at this
      cases this
    rw [flatMap_cons, length_append, length_cons]
    omega

theorem string_quote (s r : Str) : string (quote s ++ r) = some (s, r) := by
  have hle := length_le_escaped s
  have h := stringBody_escaped s r (show s.length < (quote s ++ r).length by
    simp only [quote, cons_append, length_cons, length_append]
    omega)
  have hq : quote s ++ r = '"' :: (s.flatMap escapeChar ++ '"' :: r) := by simp [quote]
  unfold string
  rw [hq] at h ⊢
  exact h

theorem solid_quote (s : Str) : Solid (quote s) := ⟨'"', _, rfl, rfl⟩

theorem length_le_joinWith (sep : Char) (l : List Str) :
    l.length ≤ (joinWith sep l).length + 1 := by
  induction l with
  | nil => simp
  | cons p l ih =>
    cases l with
    | nil => simp
    | cons =>
      simp only [joinWith, length_append, length_cons] at ih ⊢
      omega

/-- What may stand behind a value inside a document, and at its end. -/
def Ends (r : Str) : Prop := ∀ c ∈ r.head?, c ∈ [',', ']', '}']

section Items

variable {α : Type} {item : Str → Option (α × Str)} {write : α → Str} {close : Char} {l : List α}

/-- Items that read back one by one read back as a sequence. -/
theorem items_joinWith (hread : ∀ a ∈ l, ∀ r, Ends r → item (write a ++ r) = some (a, r))
    (hsolid : ∀ a ∈ l, Solid (write a)) (hclose : close ∈ [']', '}']) (hl : l ≠ []) (r : Str)
    (hf : l.length ≤ fuel) :
    items item close fuel (joinWith ',' (l.map write) ++ close :: r) = some (l, r) := by
  have hblank : ∀ c ∈ [']', '}'], isBlank c = false := forall_mem_of_all (by decide)
  have hcomma : ∀ c ∈ [']', '}'], c ≠ ',' := forall_mem_of_all (by decide)
  have hends : ∀ c ∈ [']', '}'], c ∈ [',', ']', '}'] := forall_mem_of_all (by decide)
  induction l generalizing fuel with
  | nil => exact absurd rfl hl
  | cons a l ih =>
    obtain ⟨n, rfl⟩ : ∃ n, fuel = n + 1 := ⟨fuel - 1, by simp at hf; omega⟩
    have hn : l.length ≤ n := by simpa using hf
    have ha : ∀ r, skip (write a ++ r) = write a ++ r := fun r =>
      ((hsolid a List.mem_cons_self).append r).skip_eq
    have hra := hread a List.mem_cons_self
    cases l with
    | nil =>
      have hc : skip (close :: r) = close :: r :=
        Solid.skip_eq ⟨close, r, rfl, hblank close hclose⟩
      have hr := hra (close :: r) fun c hc => Option.some.inj hc ▸ hends close hclose
      simp [joinWith, items, ha, hr, hc]
    | cons =>
      have hb := ih (fun x hx => hread x (List.mem_cons_of_mem a hx))
        (fun x hx => hsolid x (List.mem_cons_of_mem a hx)) (by simp) hn
      have hc : ∀ t, skip (',' :: t) = ',' :: t := fun t => Solid.skip_eq ⟨',', t, rfl, rfl⟩
      have hne : ¬ ',' = close := fun h => hcomma close hclose h.symm
      have hr := fun t => hra (',' :: t) fun c hc => Option.some.inj hc ▸ List.mem_cons_self
      simp only [List.map_cons] at hb
      simp [joinWith, items, ha, hr, hc, hne, hb]

theorem sequence_joinWith (hread : ∀ a ∈ l, ∀ r, Ends r → item (write a ++ r) = some (a, r))
    (hsolid : ∀ a ∈ l, Solid (write a)) (hclose : close ∈ [']', '}'])
    (hhead : ∀ a ∈ l, (write a).head? ≠ some close) (r : Str) :
    sequence item close (joinWith ',' (l.map write) ++ close :: r) = some (l, r) := by
  unfold sequence
  cases l with
  | nil =>
    have hblank : ∀ c ∈ [']', '}'], isBlank c = false := forall_mem_of_all (by decide)
    have hc : skip (close :: r) = close :: r := Solid.skip_eq ⟨close, r, rfl, hblank close hclose⟩
    simp [joinWith, hc]
  | cons a l =>
    have hle := length_le_joinWith ',' ((a :: l).map write)
    have hs : Solid (joinWith ',' ((a :: l).map write)) := by
      cases l with
      | nil => exact hsolid a List.mem_cons_self
      | cons => exact (hsolid a List.mem_cons_self).append _
    have hh : (joinWith ',' ((a :: l).map write)).head? = (write a).head? := by
      obtain ⟨c, t, hc, -⟩ := hsolid a List.mem_cons_self
      cases l with
      | nil => rfl
      | cons => simp [joinWith, hc]
    rw [(hs.append _).skip_eq, if_neg, items_joinWith hread hsolid hclose (by simp)]
    · simp only [List.length_append, List.length_cons, List.length_map] at hle ⊢
      omega
    · obtain ⟨c, t, hc, -⟩ := hs
      have ha := hhead a List.mem_cons_self
      rw [← hh, hc] at ha
      rw [hc]
      exact ha

end Items

/-! ## Numbers -/

variable {r : Str}

theorem takeWhile_digits {s : Str} (hs : ∀ c ∈ s, c.isDigit = true)
    (hr : ∀ c ∈ r.head?, c.isDigit = false) :
    (s ++ r).takeWhile Char.isDigit = s ∧ (s ++ r).dropWhile Char.isDigit = r := by
  rw [takeWhile_append_of_pos hs, dropWhile_append_of_pos hs]
  cases r with
  | nil => simp
  | cons c => simp [hr c rfl]

theorem integer_toDigits (n : Nat) (hr : ∀ c ∈ r.head?, c.isDigit = false) :
    integer (Nat.toDigits 10 n ++ r) = some (Nat.toDigits 10 n, r) := by
  cases Nat.eq_zero_or_pos n with
  | inl hn =>
    subst hn
    rfl
  | inr hn =>
    obtain ⟨c, t, ht, -⟩ := exists_toDigits n
    have hhead := head_toDigits (Nat.ne_of_gt hn)
    obtain ⟨htake, hdrop⟩ := takeWhile_digits (fun c => isDigit_of_mem_toDigits (n := n)) hr
    have hdigits : digits (Nat.toDigits 10 n ++ r) = some (Nat.toDigits 10 n, r) := by
      rw [digits, htake, hdrop, if_neg]
      simp [ht]
    rw [← hdigits]
    rw [ht] at hhead ⊢
    exact integer.eq_2 _ fun r' he => hhead (congrArg head? he)

theorem number_itoa (n : Int) (hr : Ends r) : number (itoa n ++ r) = some (itoa n, r) := by
  have hdigit : ∀ c ∈ [',', ']', '}'], c.isDigit = false := forall_mem_of_all (by decide)
  have hdot : ∀ c ∈ [',', ']', '}'], c ≠ '.' := forall_mem_of_all (by decide)
  have hexp : ∀ c ∈ [',', ']', '}'], c ≠ 'e' ∧ c ≠ 'E' := forall_mem_of_all (by decide)
  have hint := integer_toDigits n.natAbs fun c hc => hdigit c (hr c hc)
  have hfrac : fraction r = some ([], r) := by
    refine fraction.eq_2 r fun t he => ?_
    exact hdot '.' (hr '.' (he ▸ rfl)) rfl
  have hexpo : exponent r = some ([], r) := by
    cases r with
    | nil => rfl
    | cons c => simp [exponent, hexp c (hr c rfl)]
  obtain ⟨c, t, ht, hc⟩ := exists_toDigits n.natAbs
  have hminus : c ≠ '-' := by
    rintro rfl
    cases hc
  unfold itoa
  split
  · simp [number, hint, hfrac, hexpo]
  · rw [ht] at hint ⊢
    simp only [cons_append] at hint ⊢
    simp [number, hint, hfrac, hexpo, hminus]

/-! ## Documents read back -/

/-- A document as the code writes it: its numbers are integers, and it is at most
`depth` arrays and objects deep. -/
inductive Written : Nat → Json → Prop where
  | null {d : Nat} : Written d .null
  | bool {d : Nat} (b : Bool) : Written d (.bool b)
  | int {d : Nat} (n : Int) : Written d (.num (itoa n))
  | str {d : Nat} (s : Str) : Written d (.str s)
  | arr {d : Nat} {l : List Json} (h : ∀ j ∈ l, Written d j) : Written (d + 1) (.arr l)
  | obj {d : Nat} {l : List (Str × Json)} (h : ∀ m ∈ l, Written d m.2) : Written (d + 1) (.obj l)

variable {d : Nat} {j : Json}

theorem Written.head (h : Written d j) :
    ∃ c r, print j = c :: r ∧ (c ∈ ['n', 't', 'f', '"', '[', '{', '-'] ∨ c.isDigit = true) := by
  cases h with
  | null => exact ⟨'n', _, rfl, .inl (by decide)⟩
  | bool b => cases b with
    | true => exact ⟨'t', _, rfl, .inl (by decide)⟩
    | false => exact ⟨'f', _, rfl, .inl (by decide)⟩
  | int n =>
    obtain ⟨c, t, ht, rfl | hc⟩ := exists_itoa n
    · exact ⟨'-', t, ht, .inl (by decide)⟩
    · exact ⟨c, t, ht, .inr hc⟩
  | str => exact ⟨'"', _, rfl, .inl (by decide)⟩
  | arr => exact ⟨'[', _, rfl, .inl (by decide)⟩
  | obj => exact ⟨'{', _, rfl, .inl (by decide)⟩

theorem Written.solid (h : Written d j) : Solid (print j) := by
  obtain ⟨c, r, hr, hc⟩ := h.head
  refine ⟨c, r, hr, ?_⟩
  rcases hc with hc | hc
  · have hb : ∀ c ∈ ['n', 't', 'f', '"', '[', '{', '-'], isBlank c = false :=
      forall_mem_of_all (by decide)
    exact hb c hc
  · simp only [isBlank, Bool.or_eq_false_iff, beq_eq_false_iff_ne]
    refine ⟨⟨⟨?_, ?_⟩, ?_⟩, ?_⟩ <;> (rintro rfl; cases hc)

theorem Written.head_ne (h : Written d j) : (print j).head? ≠ some ']' := by
  obtain ⟨c, r, hr, hc⟩ := h.head
  rw [hr]
  intro he
  obtain rfl : c = ']' := Option.some.inj he
  rcases hc with hc | hc
  · exact absurd hc (by decide)
  · cases hc

theorem value_scalar {s : Str} (h : s.head? ≠ some '{' ∧ s.head? ≠ some '[') :
    value d s = scalar s := by
  cases d with
  | zero | succ => simp [value, h.1, h.2]

theorem value_itoa (n : Int) (hr : Ends r) : value d (itoa n ++ r) = some (.num (itoa n), r) := by
  have hnum := number_itoa n hr
  obtain ⟨c, t, ht, hc⟩ := exists_itoa n
  have hno : ∀ e ∈ ['"', 't', 'f', 'n', '{', '['], e ≠ '-' ∧ e.isDigit = false :=
    forall_mem_of_all (by decide)
  have hne : ∀ e ∈ ['"', 't', 'f', 'n', '{', '['], c ≠ e := by
    rintro e he rfl
    rcases hc with hc | hc
    · exact (hno c he).1 hc
    · rw [(hno c he).2] at hc
      cases hc
  simp only [forall_mem_cons, not_mem_nil, false_implies, implies_true] at hne
  obtain ⟨hquote, htrue, hfalse, hnull, hobj, harr, -⟩ := hne
  rw [ht] at hnum ⊢
  rw [value_scalar ⟨by simpa using hobj, by simpa using harr⟩]
  simp only [cons_append] at hnum ⊢
  simp [scalar, hquote, htrue, hfalse, hnull, hnum]

theorem member_printMember {m : Str × Json}
    (hv : ∀ r, Ends r → value d (print m.2 ++ r) = some (m.2, r)) (hs : Solid (print m.2)) (r : Str)
    (hr : Ends r) : member (value d) (printMember m ++ r) = some (m, r) := by
  have hq := string_quote m.1 (':' :: (print m.2 ++ r))
  have hc : skip (':' :: (print m.2 ++ r)) = ':' :: (print m.2 ++ r) :=
    Solid.skip_eq ⟨':', _, rfl, rfl⟩
  have hj : skip (print m.2 ++ r) = print m.2 ++ r := (hs.append r).skip_eq
  have hp : printMember m ++ r = quote m.1 ++ ':' :: (print m.2 ++ r) := by simp [printMember_eq]
  simp only [member, hp, hq, bind_eq_bind, bind_some, hc, hj, hv r hr]

/-- A document reads back as it was written. -/
theorem value_print (h : Written d j) (r : Str) (hr : Ends r) :
    value d (print j ++ r) = some (j, r) := by
  induction h generalizing r with
  | null => exact value_scalar ⟨by simp [print], by simp [print]⟩
  | bool b =>
    cases b with
    | true | false => exact value_scalar ⟨by simp [print], by simp [print]⟩
  | int n => exact value_itoa n hr
  | str s =>
    have hq := string_quote s r
    rw [print, value_scalar ⟨by simp [quote], by simp [quote]⟩]
    simp only [quote, cons_append] at hq
    simp only [scalar, quote, cons_append, hq, map_some]
  | @arr d l hl ih =>
    have hseq : sequence (value d) ']' (joinWith ',' (l.map print) ++ ']' :: r) = some (l, r) :=
      sequence_joinWith ih (fun j hj => (hl j hj).solid) (by decide)
        (fun j hj => (hl j hj).head_ne) r
    simp [print, value, printElems_eq, hseq]
  | @obj d l hl ih =>
    have hseq : sequence (member (value d)) '}' (joinWith ',' (l.map printMember) ++ '}' :: r) =
        some (l, r) :=
      sequence_joinWith (fun m hm => member_printMember (ih m hm) (hl m hm).solid)
        (fun m _ => printMember_eq m ▸ (solid_quote m.1).append _) (by decide)
        (fun m _ => by simp [printMember_eq, quote]) r
    simp [print, value, printMembers_eq, hseq]

theorem parse_written (h : Written maxNestingDepth j) : parse (print j) = some j := by
  have hv := value_print h [] nofun
  rw [append_nil] at hv
  simp only [parse, h.solid.skip_eq, hv]
  rfl

/-! ## Structs -/

/-- `foldName` on a field's name or a key compared with it: field names are
ASCII, so of the other letters only the two that fold to one matter. -/
def foldRune (c : Char) : Char :=
  if c.toNat = 0x17F then 'S' else if c.toNat = 0x212A then 'K' else c.toUpper

/-- Sets a value from a document; the value there before matters for `null` and
for a struct that is set twice. `none` is a type error. -/
abbrev Dec (α : Type) := α → Json → Option α

def decodeString : Dec Str
  | old, .null => some old
  | _, .str s => some s
  | _, _ => none

def decodeBool : Dec Bool
  | old, .null => some old
  | _, .bool b => some b
  | _, _ => none

section

variable {α σ : Type}

/-- A pointer: `null` clears it. -/
def decodePtr (zero : α) (dec : Dec α) : Dec (Option α)
  | _, .null => some none
  | old, j => (dec (old.getD zero) j).map some

/-- The elements of a slice, decoded over the ones it had. -/
def decodeElems (zero : α) (dec : Dec α) : List α → List Json → Option (List α)
  | _, [] => some []
  | old, j :: js => do
    let a ← dec (old.head?.getD zero) j
    let l ← decodeElems zero dec old.tail js
    some (a :: l)

def decodeSlice (zero : α) (dec : Dec α) : Dec (Slice α)
  | _, .null => some none
  | old, .arr js => (decodeElems zero dec old.elems js).map some
  | _, _ => none

/-- A field of a struct: the name its tag gives, what is written for it (`none`:
left out) and how a member of that name sets it. -/
structure Field (σ : Type) where
  name : Str
  write : σ → Option Json
  read : Dec σ

def Field.value (name : Str) (get : σ → α) (set : σ → α → σ) (enc : α → Json) (dec : Dec α) :
    Field σ where
  name := name
  write s := some (enc (get s))
  read s j := (dec (get s) j).map (set s)

/-- A pointer with `omitempty`. -/
def Field.ptr (name : Str) (get : σ → Option α) (set : σ → Option α → σ) (zero : α)
    (enc : α → Json) (dec : Dec α) : Field σ where
  name := name
  write s := (get s).map enc
  read s j := (decodePtr zero dec (get s) j).map (set s)

/-- A slice of strings with `omitempty`. -/
def Field.slice (name : Str) (get : σ → Slice Str) (set : σ → Slice Str → σ) : Field σ where
  name := name
  write s := if (get s).elems.isEmpty then none else some (.arr ((get s).elems.map .str))
  read s j := (decodeSlice [] decodeString (get s) j).map (set s)

/-- The field a key names: the one of that name, otherwise one that differs in
case only. -/
def fieldFor (fields : List (Field σ)) (key : Str) : Option (Field σ) :=
  match fields.find? fun f => f.name = key with
  | some f => some f
  | none => fields.find? fun f => f.name.map foldRune = key.map foldRune

/-- One member of an object; one that names no field is passed over. -/
def decodeMember (fields : List (Field σ)) (s : σ) (m : Str × Json) : Option σ :=
  match fieldFor fields m.1 with
  | some f => f.read s m.2
  | none => some s

def decodeStruct (fields : List (Field σ)) : Dec σ
  | s, .null => some s
  | s, .obj members => members.foldlM (decodeMember fields) s
  | _, _ => none

def encodeStruct (fields : List (Field σ)) (s : σ) : Json :=
  .obj (fields.filterMap fun f => (f.write s).map fun j => (f.name, j))

/-- What writing one field of `s` and reading it makes of `a`. -/
def Field.transfer (f : Field σ) (s a : σ) : Option σ :=
  match f.write s with
  | some j => f.read a j
  | none => some a

/-- What writing all fields of `s` and reading them makes of `a`. -/
def transferAll (fields : List (Field σ)) (s a : σ) : Option σ :=
  fields.foldlM (fun a f => f.transfer s a) a

variable {f : Field σ}

theorem transferAll_cons {fields : List (Field σ)} {s a b : σ} {r : Option σ}
    (h : f.transfer s a = some b) (hrest : transferAll fields s b = r) :
    transferAll (f :: fields) s a = r := by
  simpa only [transferAll, foldlM_cons, h, bind_eq_bind, bind_some] using hrest

theorem fieldFor_name {fields : List (Field σ)} (h : (fields.map Field.name).Nodup)
    (hf : f ∈ fields) : fieldFor fields f.name = some f := by
  have hfind : (fields.find? fun g => g.name = f.name) = some f := by
    induction fields with
    | nil => cases hf
    | cons g fields ih =>
      rw [map_cons, nodup_cons] at h
      rcases mem_cons.mp hf with rfl | hf
      · simp
      · have hne : g.name ≠ f.name := fun he => h.1 (he ▸ mem_map_of_mem hf)
        simp [hne, ih h.2 hf]
  simp only [fieldFor, hfind]

/-- Writing a struct and reading it transfers its fields one after the other. -/
theorem decode_encode {fields : List (Field σ)} (h : (fields.map Field.name).Nodup) (s a : σ) :
    decodeStruct fields a (encodeStruct fields s) = transferAll fields s a := by
  suffices hsub : ∀ part : List (Field σ), (∀ f ∈ part, f ∈ fields) → ∀ a,
      (part.filterMap fun f => (f.write s).map fun j => (f.name, j)).foldlM (decodeMember fields) a =
        part.foldlM (fun a f => f.transfer s a) a from hsub fields (fun _ hf => hf) a
  intro part
  induction part with
  | nil => intro _ a; rfl
  | cons f part ih =>
    intro hmem a
    have hname := fieldFor_name h (hmem f mem_cons_self)
    have ih' := ih fun g hg => hmem g (mem_cons_of_mem f hg)
    rw [filterMap_cons, foldlM_cons]
    cases hw : f.write s with
    | none => simp only [map_none, ih', Field.transfer, hw, bind_eq_bind, bind_some]
    | some => simp only [map_some, foldlM_cons, decodeMember, hname, ih', Field.transfer, hw]

theorem decodeElems_strings (l : List Str) (old : List Str) :
    decodeElems [] decodeString old (l.map .str) = some l := by
  induction l generalizing old with
  | nil => rfl
  | cons s l ih => simp [decodeElems, decodeString, ih]

variable {name : Str} {s a : σ} {enc : α → Json} {dec : Dec α} {norm : α → α}

theorem transfer_value {get : σ → α} {set : σ → α → σ} {x : α}
    (h : dec (get a) (enc (get s)) = some x) :
    (Field.value name get set enc dec).transfer s a = some (set a x) := by
  simp only [Field.transfer, Field.value, h, map_some]

/-- A pointer comes through when what it points to does, and a nil one stays
nil. -/
theorem transfer_ptr {get : σ → Option α} {set : σ → Option α → σ} {zero : α}
    (hdec : ∀ x, dec zero (enc x) = some (norm x)) (henc : ∀ x, enc x ≠ .null) (hnil : get a = none)
    (hset : set a none = a) :
    (Field.ptr name get set zero enc dec).transfer s a = some (set a ((get s).map norm)) := by
  cases hs : get s with
  | none => simp only [Field.transfer, Field.ptr, hs, map_none, hset]
  | some x =>
    have hp : decodePtr zero dec none (enc x) = some (some (norm x)) := by
      unfold decodePtr
      split
      case h_1 hn => exact absurd hn (henc x)
      case h_2 => simp [hdec]
    simp only [Field.transfer, Field.ptr, hs, hnil, map_some, hp]

theorem transfer_scalar {get : σ → Option α} {set : σ → Option α → σ} {zero : α}
    (hdec : ∀ x, dec zero (enc x) = some x) (henc : ∀ x, enc x ≠ .null) (hnil : get a = none)
    (hset : set a none = a) :
    (Field.ptr name get set zero enc dec).transfer s a = some (set a (get s)) := by
  have h : (Field.ptr name get set zero enc dec).transfer s a = some (set a ((get s).map id)) :=
    transfer_ptr hdec henc hnil hset
  rwa [map_id_apply] at h

theorem transfer_slice {get : σ → Slice Str} {set : σ → Slice Str → σ} (hset : set a none = a) :
    (Field.slice name get set).transfer s a = some (set a (get s).omitEmpty) := by
  simp only [Field.transfer, Field.slice]
  match hs : get s with
  | none => exact congrArg some hset.symm
  | some [] => exact congrArg some hset.symm
  | some (x :: l) =>
    have hd : decodeSlice [] decodeString (get a) (.arr ((x :: l).map .str)) = some (some (x :: l)) := by
      rw [decodeSlice, decodeElems_strings]
      rfl
    exact congrArg (Option.map (set a)) hd

theorem encodeStruct_congr {fields : List (Field σ)}
    (h : fields.Forall fun f => f.write s = f.write a) :
    encodeStruct fields s = encodeStruct fields a := by
  unfold encodeStruct
  rw [filterMap_congr fun f hf => by rw [forall_iff_forall_mem.mp h f hf]]

theorem write_slice {get : σ → Slice Str} {set : σ → Slice Str → σ}
    (h : (get s).elems = (get a).elems) :
    (Field.slice name get set).write s = (Field.slice name get set).write a := by
  simp only [Field.slice, h]

theorem write_ptr {get : σ → Option α} {set : σ → Option α → σ} {zero : α}
    (henc : ∀ x, enc (norm x) = enc x) (h : get s = (get a).map norm) :
    (Field.ptr name get set zero enc dec).write s = (Field.ptr name get set zero enc dec).write a := by
  simp only [Field.ptr, h, Option.map_map]
  exact congrArg (fun g => (get a).map g) (funext henc)

/-- What is written for the field. -/
def Field.Writes (d : Nat) (f : Field σ) : Prop := ∀ s j, f.write s = some j → Written d j

theorem written_encodeStruct {fields : List (Field σ)} (h : fields.Forall (·.Writes d)) (s : σ) :
    Written (d + 1) (encodeStruct fields s) := by
  refine .obj fun m hm => ?_
  obtain ⟨f, hf, hfm⟩ := mem_filterMap.mp hm
  obtain ⟨j, hj, rfl⟩ := map_eq_some_iff.mp hfm
  exact forall_iff_forall_mem.mp h f hf s j hj

theorem writes_value {get : σ → α} {set : σ → α → σ} (h : ∀ x, Written d (enc x)) :
    (Field.value name get set enc dec).Writes d := by
  intro s j hj
  cases hj
  exact h (get s)

theorem writes_ptr {get : σ → Option α} {set : σ → Option α → σ} {zero : α}
    (h : ∀ x, Written d (enc x)) : (Field.ptr name get set zero enc dec).Writes d := by
  intro s j hj
  obtain ⟨x, -, rfl⟩ := map_eq_some_iff.mp hj
  exact h x

theorem writes_slice {get : σ → Slice Str} {set : σ → Slice Str → σ} :
    (Field.slice name get set).Writes (d + 1) := by
  intro s j hj
  simp only [Field.slice] at hj
  split at hj
  · cases hj
  · cases hj
    refine .arr fun j hj => ?_
    obtain ⟨x, -, rfl⟩ := mem_map.mp hj
    exact .str x

end

end Json

end YominsAgent.Go
