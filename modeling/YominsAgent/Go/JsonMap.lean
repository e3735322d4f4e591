import Mathlib.Data.Finset.Sort
import YominsAgent.Go.Json
import YominsAgent.Go.Map
import YominsAgent.Go.Utf8

/- Maps with string keys and numbers in JSON.

   A Go string is bytes and JSON is text: what is not UTF-8 in a string is written as U+FFFD. A map
   whose keys are UTF-8 reads back as it was written (`decodeMap_encodeMap`).

   A map variable can also be nil. It then reads as the empty map and cannot be written to
   (`MapVar`).

   Correspondence (Go ↔ Lean):
     `json.Marshal` of a map      ↔ `encodeMap`; the keys are sorted
     `json.Unmarshal` into a map  ↔ `decodeMap`; `null` makes it nil, which is empty
     into a map variable          ↔ `decodeMapVar`
     into a string, uint64, int64 ↔ `decodeBytes`, `decodeUint64`, `decodeInt64`
     `utf8.ValidString`           ↔ `validString` -/
namespace YominsAgent.Go

def validString (b : Bytes) : Bool := toBytes (toText b) == b

theorem validString_iff {b : Bytes} : validString b = true ↔ toBytes (toText b) = b := beq_iff_eq

/-- The order of Go's strings. -/
def stringLe (a b : Bytes) : Prop := a.map UInt8.toNat ≤ b.map UInt8.toNat

instance : DecidableRel stringLe := fun a b =>
  inferInstanceAs (Decidable (a.map UInt8.toNat ≤ b.map UInt8.toNat))

instance : IsTrans Bytes stringLe := ⟨fun _ _ _ => le_trans⟩

instance : Std.Total stringLe := ⟨fun _ _ => le_total _ _⟩

instance : Std.Antisymm stringLe :=
  ⟨fun _ _ h h' => List.map_injective_iff.mpr (fun _ _ => UInt8.toNat_inj.mp) (le_antisymm h h')⟩

/-- A map variable: `none` is the nil map. -/
abbrev MapVar (κ α : Type) := Option (Map κ α)

namespace MapVar
variable {κ α : Type} [DecidableEq κ]

def get (m : MapVar κ α) (k : κ) : Option α := m.bind (·.lookup k)

/-- `m[k] = v`, or `none` for the panic of a write to a nil map. -/
def set (m : MapVar κ α) (k : κ) (v : α) : Option (MapVar κ α) :=
  m.map fun m => some (m.insert k v)

/-- `delete`, which a nil map allows. -/
def delete (m : MapVar κ α) (k : κ) : MapVar κ α := m.map (·.erase k)

end MapVar

namespace Json

def decodeBytes : Dec Bytes
  | old, .null => some old
  | _, .str s => some (toBytes s)
  | _, _ => none

def decodeUint64 : Dec UInt64
  | old, .null => some old
  | _, .num l => (parseUint l).map UInt64.ofNat
  | _, _ => none

def decodeInt64 : Dec Int64
  | old, .null => some old
  | _, .num l => (atoi l).map Int64.ofInt
  | _, _ => none

def encodeUint64 (n : UInt64) : Json := .num (itoa n.toNat)

def encodeInt64 (n : Int64) : Json := .num (itoa n.toInt)

theorem decode_encodeUint64 (old n : UInt64) : decodeUint64 old (encodeUint64 n) = some n := by
  rw [encodeUint64, decodeUint64, itoa_natCast, parseUint_toDigits n.toNat_lt, Option.map_some,
    UInt64.ofNat_toNat]

theorem decode_encodeInt64 (old n : Int64) : decodeInt64 old (encodeInt64 n) = some n := by
  rw [encodeInt64, decodeInt64, atoi_itoa n.le_toInt n.toInt_lt, Option.map_some, Int64.ofInt_toInt]

/-- A string with `omitempty`. -/
def Field.text {σ : Type} (name : Str) (get : σ → Bytes) (set : σ → Bytes → σ) : Field σ where
  name := name
  write s := if (get s).isEmpty then none else some (.str (toText (get s)))
  read s j := (decodeBytes (get s) j).map (set s)

/-- A UTF-8 string comes through, also when it is empty and left out. -/
theorem transfer_text {σ : Type} {name : Str} {get : σ → Bytes} {set : σ → Bytes → σ} {s a : σ}
    (hvalid : validString (get s) = true) (hset : set a [] = a) :
    (Field.text name get set).transfer s a = some (set a (get s)) := by
  simp only [Field.transfer, Field.text]
  cases hs : get s with
  | nil => exact congrArg some hset.symm
  | cons =>
    rw [hs] at hvalid
    simp [decodeBytes, validString_iff.mp hvalid]

section Maps
variable {α : Type} {enc : α → Json} {zero : α} {dec : Dec α} {m : Map Bytes α} {n : Str} {j : Json}

/-- The members of a map, in the order of `keys`. -/
def mapMembers (enc : α → Json) (m : Map Bytes α) (keys : List Bytes) : List (Str × Json) :=
  keys.map fun k => (toText k, ((m.lookup k).map enc).getD .null)

def encodeMap (enc : α → Json) (m : Map Bytes α) : Json :=
  .obj (mapMembers enc m (m.keys.sort stringLe))

theorem mem_encodeMap :
    (n, j) ∈ mapMembers enc m (m.keys.sort stringLe) ↔
      ∃ k v, m.lookup k = some v ∧ toText k = n ∧ enc v = j := by
  simp only [mapMembers, List.mem_map, Finset.mem_sort, Finmap.mem_keys, Prod.mk.injEq]
  constructor
  · rintro ⟨k, hk, hn, hj⟩
    obtain ⟨v, hv⟩ := Finmap.mem_iff.mp hk
    rw [hv] at hj
    exact ⟨k, v, hv, hn, hj⟩
  · rintro ⟨k, v, hv, hn, hj⟩
    refine ⟨k, Finmap.mem_iff.mpr ⟨v, hv⟩, hn, ?_⟩
    rw [hv]
    exact hj

theorem mem_encodeMap_ascii (hn : ∀ c ∈ n, c.toNat < 0x80) :
    (n, j) ∈ mapMembers enc m (m.keys.sort stringLe) ↔
      ∃ v, m.lookup (toBytes n) = some v ∧ enc v = j := by
  rw [mem_encodeMap]
  constructor
  · rintro ⟨k, v, hv, rfl, hj⟩
    rw [toBytes_toText_of_ascii hn]
    exact ⟨v, hv, hj⟩
  · rintro ⟨v, hv, hj⟩
    exact ⟨toBytes n, v, hv, toText_toBytes n, hj⟩

/-- One member; the element starts at the zero value. -/
def decodeEntry (zero : α) (dec : Dec α) (m : Map Bytes α) (kv : Str × Json) :
    Option (Map Bytes α) :=
  (dec zero kv.2).map (m.insert (toBytes kv.1))

def decodeMap (zero : α) (dec : Dec α) : Dec (Map Bytes α)
  | _, .null => some ∅
  | old, .obj members => members.foldlM (decodeEntry zero dec) old
  | _, _ => none

def decodeMapVar (zero : α) (dec : Dec α) : Dec (MapVar Bytes α)
  | _, .null => some none
  | old, .obj members => (members.foldlM (decodeEntry zero dec) (old.getD ∅)).map some
  | _, _ => none

/-- Up to the difference of the nil and the empty map, the two read the same. -/
theorem decodeMapVar_getD (old : MapVar Bytes α) (j : Json) :
    (decodeMapVar zero dec old j).map (·.getD ∅) = decodeMap zero dec (old.getD ∅) j := by
  cases j with
  | obj => simp [decodeMapVar, decodeMap, Function.comp_def]
  | _ => rfl

/-- Only `null` makes the variable nil. -/
theorem decodeMapVar_eq_none_iff {old : MapVar Bytes α} {j : Json} :
    decodeMapVar zero dec old j = some none ↔ j = .null := by
  cases j with
  | obj => simp [decodeMapVar]
  | _ => simp [decodeMapVar]

section
variable (hread : ∀ k v, m.lookup k = some v → validString k = true ∧ dec zero (enc v) = some v)
include hread

/-- In whatever order its members are written, a map reads back if its keys are UTF-8 and
its elements read back. -/
theorem foldlM_mapMembers {keys : List Bytes} (hnodup : keys.Nodup) (hmem : ∀ k, k ∈ keys ↔ k ∈ m) :
    (mapMembers enc m keys).foldlM (decodeEntry zero dec) ∅ = some m := by
  -- after some of the keys the map holds those
  have hloop : ∀ (ks : List Bytes), (∀ k ∈ ks, k ∈ m) → ∀ a : Map Bytes α,
      (mapMembers enc m ks).foldlM (decodeEntry zero dec) a =
        some (ks.foldl (fun a k => a.insert k ((m.lookup k).getD zero)) a) := by
    intro ks
    induction ks with
    | nil =>
      intro _ a
      rfl
    | cons k ks ih =>
      intro hks a
      rw [List.forall_mem_cons] at hks
      obtain ⟨v, hv⟩ := Finmap.mem_iff.mp hks.1
      obtain ⟨hk, hdec⟩ := hread k v hv
      have hstep : decodeEntry zero dec a (toText k, ((m.lookup k).map enc).getD .null) =
          some (a.insert k ((m.lookup k).getD zero)) := by
        simp only [decodeEntry, hv, Option.map_some, Option.getD_some, hdec, validString_iff.mp hk]
      simp only [mapMembers, List.map_cons, List.foldlM_cons, hstep, List.foldl_cons,
        Option.bind_eq_bind, Option.bind_some]
      exact ih hks.2 _
  rw [hloop keys (fun k hk => (hmem k).mp hk)]
  congr 1
  refine Finmap.ext_lookup fun k => ?_
  rw [lookup_foldl_insert (fun j => j) (fun j => (m.lookup j).getD zero) keys
    (by rwa [List.map_id']) ∅ k, Finmap.lookup_empty, Option.or_none]
  cases hfind : keys.find? fun j => j = k with
  | none =>
    have hk : k ∉ m := fun hk =>
      List.find?_eq_none.mp hfind k ((hmem k).mpr hk) (decide_eq_true rfl)
    exact (Finmap.lookup_eq_none.mpr hk).symm
  | some j =>
    have hj : j = k := by simpa using List.find?_some hfind
    obtain ⟨v, hv⟩ := Finmap.mem_iff.mp ((hmem j).mp (List.mem_of_find?_eq_some hfind))
    rw [hj] at hv ⊢
    simp only [Option.map_some, hv, Option.getD_some]

theorem decodeMap_encodeMap : decodeMap zero dec ∅ (encodeMap enc m) = some m := by
  refine foldlM_mapMembers hread (Finset.sort_nodup _ _) fun k => ?_
  rw [Finset.mem_sort, Finmap.mem_keys]

end

theorem written_encodeMap {d : Nat} (h : ∀ v, Written d (enc v)) :
    Written (d + 1) (encodeMap enc m) := by
  refine .obj fun kv hkv => ?_
  obtain ⟨k, -, rfl⟩ := List.mem_map.mp hkv
  cases m.lookup k with
  | none => exact .null
  | some v => exact h v

end Maps

end Json

end YominsAgent.Go
