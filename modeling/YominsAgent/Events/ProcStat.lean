import Mathlib.Data.List.Induction
import YominsAgent.Go.Decimal
import YominsAgent.Go.Regexp
import YominsAgent.Go.Utf8

/- `/proc/<pid>/stat` (`internal/procfs/procfs.go`, `ParseStat`).

   The command name stands in parentheses, is chosen by the process and may hold any
   byte. The fields are split after the last `)`, and none of them has one, so the name
   cannot pass for a field (`parseStat_statLine`).

   Correspondence (Go ↔ Lean):
     the fields of `Sample` it sets           ↔ `StatSample`
     `bytes.IndexByte`, `bytes.LastIndexByte` ↔ `indexByte`, `lastIndexByte`
     `strings.Fields`                         ↔ `fieldBytes`, on the bytes of the string
     `strconv.ParseUint` without its error    ↔ `uintValue` -/
namespace YominsAgent.Events
open Go List

structure StatSample where
  ppid : Int
  name : Bytes
  state : UInt8
  start : Nat
  cpu : Nat
  rss : Nat
  deriving DecidableEq, Repr

inductive StatError where
  /-- `malformed stat` -/
  | malformed
  /-- `short stat: %d fields` -/
  | short (fields : Nat)
  deriving DecidableEq, Repr

def indexByte (b : Bytes) (c : UInt8) : Option Nat := b.findIdx? (· == c)

def lastIndexByte (b : Bytes) (c : UInt8) : Option Nat :=
  (indexByte b.reverse c).map (b.length - 1 - ·)

/-- The runes of a string, each with its bytes. -/
def runes : Nat → Bytes → List (Char × Bytes)
  | 0, _ => []
  | fuel + 1, b =>
    match decodeRune b with
    | none => []
    | some (c, n) => (c, b.take n) :: runes fuel (b.drop n)

/-- The words between the blanks. -/
def wordBytes (l : List (Char × Bytes)) : List Bytes :=
  ((l.splitOnP fun x => isSpace x.1).filter (· ≠ [])).map (List.flatMap Prod.snd)

def fieldBytes (b : Bytes) : List Bytes := wordBytes (runes b.length b)

/-- The value `ParseUint` returns, with an error or without: 0 for what is not a number and
the largest one where it leaves off because the number is too large. -/
def uintValue : Nat → Str → Nat
  | n, [] => n
  | n, c :: s =>
    if c.isDigit then
      let n := 10 * n + (c.toNat - '0'.toNat)
      if 2 ^ 64 ≤ n then 2 ^ 64 - 1 else uintValue n s
    else 0

/-- The conversion `int32(v)`. -/
def toInt32 (n : Nat) : Int := ((n : Int) + 2 ^ 31) % 2 ^ 32 - 2 ^ 31

def parseStat (b : Bytes) (pageSize : Nat) : Except StatError StatSample :=
  match indexByte b 40, lastIndexByte b 41 with
  | some first, some last =>
    if last < first then .error .malformed
    else
      let fields := fieldBytes (b.drop (last + 1))
      if fields.length < 22 then .error (.short fields.length)
      else
        let num i := uintValue 0 (toText (fields.getD i []))
        .ok {
          name := (b.take last).drop (first + 1)
          -- a field is not empty
          state := (fields.getD 0 []).headD 0
          ppid := toInt32 (num (4 - 3))
          cpu := (num (14 - 3) + num (15 - 3)) % 2 ^ 64
          start := num (22 - 3)
          rss := num (24 - 3) * pageSize % 2 ^ 64 }
  | _, _ => .error .malformed

/-! ## The line of the kernel -/

/-- A field: ASCII, without blanks and without the parenthesis. -/
def IsField (w : Bytes) : Prop :=
  w ≠ [] ∧ ∀ x ∈ w, x.toNat < 0x80 ∧ isSpace (Char.ofNat x.toNat) = false ∧ x ≠ 41

/-- `pid (name)` and the fields, each behind a blank. -/
def statLine (pid : Int) (name : Bytes) (fields : List Bytes) (tail : Bytes) : Bytes :=
  toBytes (itoa pid) ++ 32 :: 40 :: (name ++ 41 :: (fields.flatMap (32 :: ·) ++ tail))

/-- The state and the numbers behind it. -/
def statFields (state : UInt8) (nums : List Int) : List Bytes :=
  [state] :: nums.map fun n => toBytes (itoa n)

section Runes
variable {b : Bytes}

theorem runes_ascii (h : ∀ x ∈ b, x.toNat < 0x80) {fuel : Nat} (hfuel : b.length ≤ fuel) :
    runes fuel b = b.map fun x => (Char.ofNat x.toNat, [x]) := by
  induction b generalizing fuel with
  | nil => cases fuel <;> rfl
  | cons x b ih =>
    rw [forall_mem_cons] at h
    cases fuel with
    | zero => cases hfuel
    | succ fuel =>
      have hx : decodeRune (x :: b) = some (Char.ofNat x.toNat, 1) := by
        simp only [decodeRune, if_pos h.1]
      simp only [runes, hx, map_cons, take_succ_cons, take_zero, drop_succ_cons,
        drop_zero, ih h.2 (Nat.le_of_succ_le_succ hfuel)]

theorem wordBytes_sep (l r : List (Char × Bytes)) {x : Char × Bytes} (hx : isSpace x.1 = true) :
    wordBytes (l ++ x :: r) = wordBytes l ++ wordBytes r := by
  rw [wordBytes, splitOnP_append_cons l r hx, filter_append, map_append]
  rfl

theorem wordBytes_field {w : Bytes} (h : IsField w) :
    wordBytes (w.map fun x => (Char.ofNat x.toNat, [x])) = [w] := by
  have hone : (w.map fun x => (Char.ofNat x.toNat, [x])).splitOnP (fun x => isSpace x.1) =
      [w.map fun x => (Char.ofNat x.toNat, [x])] := by
    refine splitOnP_eq_singleton fun y hy => ?_
    obtain ⟨x, hx, rfl⟩ := mem_map.mp hy
    exact (h.2 x hx).2.1
  simp [wordBytes, hone, h.1, flatMap_map]

theorem fieldBytes_fields {fields : List Bytes} (h : ∀ w ∈ fields, IsField w) {tail : Bytes}
    (htail : tail = [] ∨ tail = [10]) : fieldBytes (fields.flatMap (32 :: ·) ++ tail) = fields := by
  have hascii : ∀ x ∈ fields.flatMap (32 :: ·) ++ tail, x.toNat < 0x80 := by
    intro x hx
    rcases mem_append.mp hx with hx | hx
    · obtain ⟨w, hw, hx⟩ := mem_flatMap.mp hx
      rcases mem_cons.mp hx with rfl | hx
      · decide
      · exact ((h w hw).2 x hx).1
    · rcases htail with rfl | rfl
      · cases hx
      · cases mem_singleton.mp hx
        decide
  have hwords : wordBytes ((fields.flatMap (32 :: ·)).map fun x => (Char.ofNat x.toNat, [x])) =
      fields := by
    clear hascii
    induction fields using reverseRecOn with
    | nil => rfl
    | append_singleton fields w ih =>
      rw [forall_mem_append] at h
      rw [flatMap_append, flatMap_singleton, map_append, map_cons,
        wordBytes_sep _ _ (by decide), ih h.1, wordBytes_field (h.2 w mem_cons_self)]
  rw [fieldBytes, runes_ascii hascii (Nat.le_refl _), map_append]
  rcases htail with rfl | rfl
  · rw [map_nil, append_nil, hwords]
  · rw [map_singleton, wordBytes_sep _ _ (by decide), hwords]
    exact append_nil _

end Runes

/-! ## The numbers -/

theorem digitsVal_le {s : Str} {acc n : Nat} (h : digitsVal acc s = some n) : acc ≤ n := by
  induction s generalizing acc with
  | nil => exact Nat.le_of_eq (Option.some_inj.mp h)
  | cons c s ih =>
    rw [digitsVal] at h
    split at h
    · have := ih h
      omega
    · cases h

theorem uintValue_eq {s : Str} {acc n : Nat} (h : digitsVal acc s = some n) (hn : n < 2 ^ 64) :
    uintValue acc s = n := by
  induction s generalizing acc with
  | nil => exact Option.some_inj.mp h
  | cons c s ih =>
    rw [digitsVal] at h
    split at h
    · next hc =>
      have hle := digitsVal_le h
      simp only [uintValue, hc, if_true, if_neg (by omega : ¬ 2 ^ 64 ≤ 10 * acc + (c.toNat - '0'.toNat)),
        ih h]
    · cases h

theorem uintValue_itoa {n : Nat} (h : n < 2 ^ 64) : uintValue 0 (toText (toBytes (itoa n))) = n := by
  rw [toText_toBytes, itoa_natCast, uintValue_eq (digitsVal_toDigits n) h]

theorem itoa_bytes (n : Int) : IsField (toBytes (itoa n)) ∧ 40 ∉ toBytes (itoa n) := by
  have hchars : ∀ c ∈ itoa n, c ∈ '-' :: "0123456789".toList := by
    have hdigits : ∀ c ∈ Nat.toDigits 10 n.natAbs, c ∈ '-' :: "0123456789".toList :=
      fun c hc => mem_cons_of_mem _ (isDigit_iff.mp (isDigit_of_mem_toDigits hc))
    unfold itoa
    split
    · exact forall_mem_cons.mpr ⟨mem_cons_self, hdigits⟩
    · exact hdigits
  have hbytes : ∀ c ∈ '-' :: "0123456789".toList, ∀ x ∈ encodeRune c, x.toNat < 0x80 ∧
      isSpace (Char.ofNat x.toNat) = false ∧ x ≠ 41 ∧ x ≠ 40 := forall_mem_of_all (by decide +kernel)
  have hx : ∀ x ∈ toBytes (itoa n), x.toNat < 0x80 ∧ isSpace (Char.ofNat x.toNat) = false ∧
      x ≠ 41 ∧ x ≠ 40 := by
    intro x hx
    obtain ⟨c, hc, hx⟩ := mem_flatMap.mp hx
    exact hbytes c (hchars c hc) x hx
  refine ⟨⟨?_, fun x h => ⟨(hx x h).1, (hx x h).2.1, (hx x h).2.2.1⟩⟩, fun h => (hx 40 h).2.2.2 rfl⟩
  obtain ⟨c, r, hr, -⟩ := exists_itoa n
  intro hnil
  have hsame : itoa n = [] := toBytes_inj.mp hnil
  rw [hr] at hsame
  cases hsame

/-! ## The line read back -/

theorem indexByte_append {a b : Bytes} {c : UInt8} (h : c ∉ a) :
    indexByte (a ++ c :: b) c = some a.length := by
  induction a with
  | nil => simp [indexByte, findIdx?_cons]
  | cons x a ih =>
    rw [mem_cons, not_or] at h
    have hx : (x == c) = false := beq_eq_false_iff_ne.mpr (Ne.symm h.1)
    have hrest : (a ++ c :: b).findIdx? (· == c) = some a.length := ih h.2
    simp [indexByte, findIdx?_cons, hx, hrest]

theorem lastIndexByte_append {a b : Bytes} {c : UInt8} (h : c ∉ b) :
    lastIndexByte (a ++ c :: b) c = some a.length := by
  have hrev : (a ++ c :: b).reverse = b.reverse ++ c :: a.reverse := by simp
  rw [lastIndexByte, hrev, indexByte_append (by simpa using h), Option.map_some]
  congr 1
  simp only [length_append, length_cons, length_reverse]
  omega

/-- What the two searches find in a line. -/
theorem parseStat_line (pid : Int) (name : Bytes) {fields : List Bytes}
    (h : ∀ w ∈ fields, IsField w) {tail : Bytes} (htail : tail = [] ∨ tail = [10]) (pageSize : Nat) :
    parseStat (statLine pid name fields tail) pageSize =
      if fields.length < 22 then .error (.short fields.length)
      else
        let num i := uintValue 0 (toText (fields.getD i []))
        .ok {
          name
          state := (fields.getD 0 []).headD 0
          ppid := toInt32 (num 1)
          cpu := (num 11 + num 12) % 2 ^ 64
          start := num 19
          rss := num 21 * pageSize % 2 ^ 64 } := by
  have hrest : 41 ∉ fields.flatMap (32 :: ·) ++ tail := by
    intro hx
    rcases mem_append.mp hx with hx | hx
    · obtain ⟨w, hw, hx⟩ := mem_flatMap.mp hx
      rcases mem_cons.mp hx with hx | hx
      · cases hx
      · exact ((h w hw).2 41 hx).2.2 rfl
    · rcases htail with rfl | rfl <;> simp at hx
  have hfirst : indexByte (statLine pid name fields tail) 40 =
      some ((toBytes (itoa pid)).length + 1) := by
    have hpid : 40 ∉ toBytes (itoa pid) ++ [32] := by simpa using (itoa_bytes pid).2
    have hline := indexByte_append (b := name ++ 41 :: (fields.flatMap (32 :: ·) ++ tail)) hpid
    simpa [statLine] using hline
  have hsplit : statLine pid name fields tail = (toBytes (itoa pid) ++ 32 :: 40 :: name) ++
      41 :: (fields.flatMap (32 :: ·) ++ tail) := by simp [statLine]
  have hlast : lastIndexByte (statLine pid name fields tail) 41 =
      some (toBytes (itoa pid) ++ 32 :: 40 :: name).length := by
    rw [hsplit]
    exact lastIndexByte_append hrest
  have hname : ((statLine pid name fields tail).take (toBytes (itoa pid) ++ 32 :: 40 :: name).length).drop
      ((toBytes (itoa pid)).length + 1 + 1) = name := by
    have hfront : toBytes (itoa pid) ++ 32 :: 40 :: name = (toBytes (itoa pid) ++ [32, 40]) ++ name := by
      simp
    rw [hsplit, take_left, hfront]
    exact drop_left' (by simp)
  have hdrop : (statLine pid name fields tail).drop ((toBytes (itoa pid) ++ 32 :: 40 :: name).length + 1) =
      fields.flatMap (32 :: ·) ++ tail := by
    rw [hsplit, drop_length_add_append]
    rfl
  have hle : ¬ (toBytes (itoa pid) ++ 32 :: 40 :: name).length < (toBytes (itoa pid)).length + 1 := by
    simp only [length_append, length_cons]
    omega
  simp only [parseStat, hfirst, hlast, if_neg hle, hname, hdrop, fieldBytes_fields h htail]

/-- `ParseStat` inverts the line of the kernel whatever the name is: the name cannot move a
field. A line with fewer fields behind the name is an error. -/
theorem parseStat_statLine (pageSize : Nat) (pid : Int) (name : Bytes) {tail : Bytes}
    (htail : tail = [] ∨ tail = [10]) :
    (∀ (state : UInt8) (nums : List Int) (ppid utime stime start rss : Nat), IsField [state] →
      nums[4 - 4]? = some (ppid : Int) → nums[14 - 4]? = some (utime : Int) →
      nums[15 - 4]? = some (stime : Int) → nums[22 - 4]? = some (start : Int) →
      nums[24 - 4]? = some (rss : Int) →
      ppid < 2 ^ 31 → utime + stime < 2 ^ 64 → start < 2 ^ 64 → rss * pageSize < 2 ^ 64 →
      parseStat (statLine pid name (statFields state nums) tail) pageSize =
        .ok ⟨ppid, name, state, start, utime + stime, rss * pageSize⟩) ∧
    ∀ fields : List Bytes, (∀ w ∈ fields, IsField w) → fields.length < 22 →
      parseStat (statLine pid name fields tail) pageSize = .error (.short fields.length) := by
  constructor
  · intro state nums ppid utime stime start rss hstate h4 h14 h15 h22 h24 hppid hcpu hstart hrss
    have hfields : ∀ w ∈ statFields state nums, IsField w := by
      intro w hw
      rcases List.mem_cons.mp hw with rfl | hw
      · exact hstate
      · obtain ⟨n, -, rfl⟩ := List.mem_map.mp hw
        exact (itoa_bytes n).1
    have hlen : ¬ (statFields state nums).length < 22 := by
      have := (List.getElem?_eq_some_iff.mp h24).1
      simp only [statFields, List.length_cons, List.length_map]
      omega
    have hnum : ∀ {i n : Nat}, nums[i]? = some (n : Int) →
        (statFields state nums).getD (i + 1) [] = toBytes (itoa n) := by
      intro i n hi
      simp [statFields, List.getD_eq_getElem?_getD, hi]
    have hpage : uintValue 0 (toText (toBytes (itoa rss))) * pageSize = rss * pageSize := by
      rcases Nat.eq_zero_or_pos pageSize with rfl | hpos
      · rfl
      · rw [uintValue_itoa (Nat.lt_of_le_of_lt (Nat.le_mul_of_pos_right rss hpos) hrss)]
    have hint : toInt32 ppid = ppid := by
      rw [toInt32]
      omega
    rw [parseStat_line pid name hfields htail, if_neg hlen]
    simp only [hnum h4, hnum h14, hnum h15, hnum h22, hnum h24, uintValue_itoa hstart, hpage,
      uintValue_itoa (by omega : ppid < 2 ^ 64), uintValue_itoa (by omega : utime < 2 ^ 64),
      uintValue_itoa (by omega : stime < 2 ^ 64), hint, Nat.mod_eq_of_lt hcpu, Nat.mod_eq_of_lt hrss]
    rfl
  · intro fields hfields hshort
    rw [parseStat_line pid name hfields htail, if_pos hshort]

/-- A name that looks like the end of the name and other fields. -/
theorem parseStat_statLine_spoof :
    parseStat (statLine 77 (toBytes "x) Z 0 (".toList) (statFields 83 [1, 77, 77, 0, -1, 4194624,
      100, 0, 0, 0, 250, 50, 0, 0, 20, 0, 1, 0, 98765, 300000000, 2048]) [10]) 4096 =
      .ok ⟨1, toBytes "x) Z 0 (".toList, 83, 98765, 250 + 50, 2048 * 4096⟩ :=
  (parseStat_statLine 4096 77 _ (.inr rfl)).1 83 _ 1 250 50 98765 2048
    ⟨nofun, forall_mem_singleton.mpr (by decide)⟩ rfl rfl rfl rfl rfl
    (by decide) (by decide) (by decide) (by decide)

end YominsAgent.Events
