import YominsAgent.Go.JsonMap
import YominsAgent.Logs.Read
import YominsAgent.Logs.Ship
import YominsAgent.Logs.Yearless

/- `Shipper.encode` (`ship.go`): an entry as a JSON line.

   The fields come from what a program has logged. None of them gets under a name that the
   agent or the server sets: the line of an entry depends on its fields with other names
   only (`encode_unforgeable`). Nor do they break a line: what is posted has one line for each
   entry of its batch (`payload_lines`).

   Correspondence (Go ↔ Lean):
     `Entry`, without its `ack` ↔ `LogEntry`; a nil map is an empty one
     `encode`                   ↔ `encodeObject`, the map, and `encode`, the line
     `s.redact.Redact`          ↔ the parameter `redact`
     `time.Now()`               ↔ the argument `now`
   `json.Marshal` of a map of strings does not fail. -/
namespace YominsAgent.Logs
open Go Lib List

structure LogEntry where
  time : Int
  source : Bytes
  path : Bytes
  unit : Bytes
  level : Bytes
  msg : Bytes
  fields : Map Bytes Bytes

def reservedFields : List Str :=
  ["_time", "_msg", "_stream", "source", "file", "unit", "level", "host", "agent_id", "project_id",
    "customer_id"].map String.toList

/-- Of these the agent sets none. -/
def neverSent : List Str :=
  ["_stream", "host", "agent_id", "project_id", "customer_id"].map String.toList

def isReserved (k : Bytes) : Bool := (reservedFields.map toBytes).contains k

def LogEntry.timeAt (e : LogEntry) (now : Int) : Int := if e.time = zeroTime then now else e.time

/-- `obj[k] = v` for a key of the agent. -/
def setText (k : String) (v : Bytes) (obj : Map Bytes Bytes) : Map Bytes Bytes :=
  obj.insert (toBytes k.toList) v

/-- The same unless the value is empty. -/
def setNonEmpty (k : String) (v : Bytes) (obj : Map Bytes Bytes) : Map Bytes Bytes :=
  if v ≠ [] then setText k v obj else obj

section
variable (redact : Bytes → Bytes)

/-- What a field becomes in the object. -/
def keptField (fields : Map Bytes Bytes) (k : Bytes) : Option Bytes :=
  if isReserved k = false ∧ k ≠ [] then (fields.lookup k).map redact else none

def encodeObject (r : Range Bytes Bytes) (now : Int) (e : LogEntry) : Map Bytes Bytes :=
  let obj := collect (fun k => (keptField redact e.fields k).map (k, ·)) (r.order e.fields)
  let obj := setText "_time" (toBytes (formatRFC3339Nano (e.timeAt now))) obj
  let obj := setText "_msg" (redact e.msg) obj
  let obj := setText "source" e.source obj
  let obj := setNonEmpty "file" e.path obj
  let obj := setNonEmpty "unit" e.unit obj
  setNonEmpty "level" e.level obj

def textValue (v : Bytes) : Json := .str (toText v)

def encode (r : Range Bytes Bytes) (now : Int) (e : LogEntry) : Bytes :=
  toBytes (Json.print (Json.encodeMap textValue (encodeObject redact r now e))) ++ [10]

/-! ## The object -/

variable {redact} {r : Range Bytes Bytes} {now : Int} {e : LogEntry} {k : String} {v : Bytes}
  {obj : Map Bytes Bytes} {n : Str}

theorem lookup_setText (j : Bytes) :
    (setText k v obj).lookup j = if j = toBytes k.toList then some v else obj.lookup j := by
  unfold setText
  split
  · next h => rw [h, Finmap.lookup_insert]
  · next h => rw [Finmap.lookup_insert_of_ne _ h]

theorem lookup_setNonEmpty (j : Bytes) :
    (setNonEmpty k v obj).lookup j =
      if j = toBytes k.toList ∧ v ≠ [] then some v else obj.lookup j := by
  unfold setNonEmpty
  by_cases hv : v ≠ []
  · rw [if_pos hv, lookup_setText]
    simp only [hv, ne_eq, not_false_eq_true, and_true]
  · rw [if_neg hv, if_neg fun h => hv h.2]

theorem lookup_kept (k : Bytes) :
    (collect (fun k => (keptField redact e.fields k).map (k, ·)) (r.order e.fields)).lookup k =
      keptField redact e.fields k := by
  refine lookup_collect_order r e.fields (fun k hk => ?_) k
  rw [keptField, Finmap.lookup_eq_none.mpr hk]
  split <;> rfl

theorem lookup_encodeObject (k : Bytes) :
    (encodeObject redact r now e).lookup k =
      if k = toBytes "level".toList ∧ e.level ≠ [] then some e.level
      else if k = toBytes "unit".toList ∧ e.unit ≠ [] then some e.unit
      else if k = toBytes "file".toList ∧ e.path ≠ [] then some e.path
      else if k = toBytes "source".toList then some e.source
      else if k = toBytes "_msg".toList then some (redact e.msg)
      else if k = toBytes "_time".toList then some (toBytes (formatRFC3339Nano (e.timeAt now)))
      else keptField redact e.fields k := by
  simp only [encodeObject, lookup_setNonEmpty, lookup_setText, lookup_kept]

theorem keptField_reserved {fields : Map Bytes Bytes} {k : Bytes} (h : isReserved k = true) :
    keptField redact fields k = none := by
  rw [keptField, if_neg]
  rintro ⟨hk, -⟩
  rw [h] at hk
  cases hk

theorem isReserved_of_mem (h : n ∈ reservedFields) : isReserved (toBytes n) = true :=
  contains_iff_mem.mpr (mem_map_of_mem h)

theorem ascii_reserved (h : n ∈ reservedFields) : ∀ c ∈ n, c.toNat < 0x80 := by
  have hall : (reservedFields.all fun n => n.all fun c => c.toNat < 0x80) = true := by
    decide +kernel
  intro c hc
  exact of_decide_eq_true (all_eq_true.mp (all_eq_true.mp hall n h) c hc)

theorem lookup_other {k : Bytes} (hk : isReserved k = false) :
    (encodeObject redact r now e).lookup k = keptField redact e.fields k := by
  have hne : ∀ n ∈ reservedFields, k ≠ toBytes n := by
    rintro n hn rfl
    rw [isReserved_of_mem hn] at hk
    cases hk
  have hlevel := hne "level".toList (by decide)
  have hunit := hne "unit".toList (by decide)
  have hfile := hne "file".toList (by decide)
  have hsource := hne "source".toList (by decide)
  have hmsg := hne "_msg".toList (by decide)
  have htime := hne "_time".toList (by decide)
  simp only [lookup_encodeObject, hlevel, hunit, hfile, hsource, hmsg, htime, false_and, if_false]

/-- The members of a line are those of an entry: what the agent sets is its own, and every
other member is a field. -/
structure EncodedFrom (redact : Bytes → Bytes) (now : Int) (e : LogEntry)
    (members : List (Str × Json)) : Prop where
  never : ∀ n ∈ neverSent, ∀ j, (n, j) ∉ members
  time : ∀ j, ("_time".toList, j) ∈ members ↔ .str (formatRFC3339Nano (e.timeAt now)) = j
  msg : ∀ j, ("_msg".toList, j) ∈ members ↔ textValue (redact e.msg) = j
  source : ∀ j, ("source".toList, j) ∈ members ↔ textValue e.source = j
  file : ∀ j, ("file".toList, j) ∈ members ↔ e.path ≠ [] ∧ textValue e.path = j
  unit : ∀ j, ("unit".toList, j) ∈ members ↔ e.unit ≠ [] ∧ textValue e.unit = j
  level : ∀ j, ("level".toList, j) ∈ members ↔ e.level ≠ [] ∧ textValue e.level = j
  fields : ∀ n ∉ reservedFields, ∀ j, (n, j) ∈ members ↔
    ∃ k v, k ≠ [] ∧ toText k = n ∧ e.fields.lookup k = some v ∧ textValue (redact v) = j

def encodedMembers (redact : Bytes → Bytes) (r : Range Bytes Bytes) (now : Int) (e : LogEntry) :
    List (Str × Json) :=
  let obj := encodeObject redact r now e
  Json.mapMembers textValue obj (obj.keys.sort stringLe)

theorem mem_encodedMembers (h : n ∈ reservedFields) (j : Json) :
    (n, j) ∈ encodedMembers redact r now e ↔
      ∃ v, (encodeObject redact r now e).lookup (toBytes n) = some v ∧ textValue v = j :=
  Json.mem_encodeMap_ascii (ascii_reserved h)

theorem mem_encodedMembers_other (h : n ∉ reservedFields) (j : Json) :
    (n, j) ∈ encodedMembers redact r now e ↔
      ∃ k v, k ≠ [] ∧ toText k = n ∧ e.fields.lookup k = some v ∧ textValue (redact v) = j := by
  -- a key that is read as `n` is not reserved
  have hkey : ∀ k, toText k = n → isReserved k = false := by
    rintro k rfl
    cases hk : isReserved k with
    | false => rfl
    | true =>
      obtain ⟨m, hm, rfl⟩ := mem_map.mp (contains_iff_mem.mp hk)
      rw [toText_toBytes] at h
      exact absurd hm h
  refine Json.mem_encodeMap.trans ?_
  constructor
  · rintro ⟨k, v, hv, hn, hj⟩
    rw [lookup_other (hkey k hn), keptField] at hv
    split at hv
    · next hk =>
      obtain ⟨w, hw, rfl⟩ := Option.map_eq_some_iff.mp hv
      exact ⟨k, w, hk.2, hn, hw, hj⟩
    · cases hv
  · rintro ⟨k, v, hk, hn, hv, hj⟩
    refine ⟨k, redact v, ?_, hn, hj⟩
    rw [lookup_other (hkey k hn), keptField, if_pos ⟨hkey k hn, hk⟩, hv]
    rfl

theorem parse_encode :
    Json.parse (toText (toBytes (Json.print (Json.encodeMap textValue (encodeObject redact r now e))))) =
      some (.obj (encodedMembers redact r now e)) := by
  rw [toText_toBytes]
  exact Json.parse_written (Json.written_encodeMap (d := 9999) fun v => .str _)

theorem encodedFrom : EncodedFrom redact now e (encodedMembers redact r now e) := by
  constructor
  case never =>
    intro n hn j hj
    have hreserved : ∀ n ∈ neverSent, n ∈ reservedFields := by decide +kernel
    obtain ⟨v, hv, -⟩ := (mem_encodedMembers (hreserved n hn) j).mp hj
    rw [lookup_encodeObject, keptField_reserved (isReserved_of_mem (hreserved n hn))] at hv
    simp only [neverSent, map_cons, map_nil, mem_cons, not_mem_nil, or_false] at hn
    rcases hn with rfl | rfl | rfl | rfl | rfl <;> simp [toBytes_inj] at hv
  case fields => exact fun _ hn j => mem_encodedMembers_other hn j
  -- what the agent sets
  all_goals
    intro j
    rw [mem_encodedMembers (by decide), lookup_encodeObject,
      keptField_reserved (isReserved_of_mem (by decide))]
    simp [toBytes_inj, textValue, toText_toBytes]

end

/-! ## The lines of a batch -/

theorem newline_notMem_toBytes {s : Str} (h : '\n' ∉ s) : 10 ∉ toBytes s := by
  intro hmem
  obtain ⟨c, hc, hb⟩ := mem_flatMap.mp hmem
  have hv : c.toNat < 0xD800 ∨ (0xDFFF < c.toNat ∧ c.toNat < 0x110000) := c.valid
  have hne : c.toNat ≠ 10 := by
    intro hn
    rw [← Char.ofNat_toNat c, hn] at hc
    exact h hc
  simp only [encodeRune] at hb
  split_ifs at hb <;> simp [← UInt8.toNat_inj] at hb <;> omega

theorem newline_notMem_quote (s : Str) : '\n' ∉ Json.quote s := by
  have hhex : ∀ n, '\n' ≠ Json.hexDigit n := by
    intro n
    rcases Nat.lt_or_ge n 16 with hn | hn
    · revert n
      decide
    · rw [Json.hexDigit, getD_eq_getElem?_getD, getElem?_eq_none (by exact hn)]
      decide
  have hchar : ∀ c, '\n' ∉ Json.escapeChar c := by
    intro c
    unfold Json.escapeChar
    split_ifs <;> grind
  simp [Json.quote, hchar]

theorem newline_notMem_joinWith {parts : List Str} (h : ∀ part ∈ parts, '\n' ∉ part) :
    '\n' ∉ joinWith ',' parts := by
  fun_induction joinWith <;> simp_all

theorem newline_notMem_encode (obj : Map Bytes Bytes) :
    10 ∉ toBytes (Json.print (Json.encodeMap textValue obj)) := by
  have hparts : ∀ part ∈ Json.printMembers (Json.mapMembers textValue obj (obj.keys.sort stringLe)),
      '\n' ∉ part := by
    simp only [Json.printMembers_eq, Json.mapMembers, mem_map, exists_exists_and_eq_and]
    rintro part ⟨k, -, rfl⟩
    cases obj.lookup k <;> simp [Json.printMember, Json.print, textValue, newline_notMem_quote]
  refine newline_notMem_toBytes ?_
  simpa [Json.encodeMap, Json.print] using newline_notMem_joinWith hparts

/-- The line is an object that is encoded from the entry. -/
def Renders (redact : Bytes → Bytes) (e : LogEntry) (line : Bytes) : Prop :=
  ∃ now members, Json.parse (toText line) = some (.obj members) ∧ EncodedFrom redact now e members

theorem splitLines_pack {redact : Bytes → Bytes} {seg : List (LogEntry × Bytes)}
    (h : ∀ p ∈ seg, ∃ r now, encode redact r now p.1 = p.2) :
    ∃ lines, splitLines (pack seg).2 = (lines, []) ∧ Forall₂ (Renders redact) (pack seg).1 lines := by
  induction seg with
  | nil => exact ⟨[], rfl, .nil⟩
  | cons p seg ih =>
    obtain ⟨⟨r, now, hp⟩, hseg⟩ := forall_mem_cons.mp h
    obtain ⟨lines, hsplit, hlines⟩ := ih hseg
    refine ⟨_ :: lines, ?_, .cons ⟨now, _, parse_encode (r := r), encodedFrom⟩ hlines⟩
    show splitLines (p.2 ++ (pack seg).2) = _
    rw [← hp, encode, append_assoc, singleton_append, splitLines_line (newline_notMem_encode _),
      hsplit]

/-- Whatever the entries hold, the payload of each batch splits at the newlines into one line
for each of its entries, in their order, which is the object of that entry. -/
theorem payload_lines (redact : Bytes → Bytes) (ranges : Int → LogEntry → Range Bytes Bytes)
    (cfg : ShipperConfig) (as : List (ShipLabel LogEntry)) (s : Shipper LogEntry)
    (hrun : run (guarded honest (shipStep (fun now e => some (encode redact (ranges now e) now e))
      (newShipper cfg))) newRun as = some s) :
    ∀ p ∈ s.handed, ∃ lines, splitLines p.2 = (lines, []) ∧
      Forall₂ (Renders redact) p.1 lines := by
  have hpos := positive_newShipper cfg
  have hI := run_inv (shipInv_step hpos fun _ _ => rfl) as _ s (shipInv_newRun hpos) hrun
  have henc := run_inv (encoded_step _ (newShipper cfg)) as _ s (fun _ hp => by cases hp) hrun
  obtain ⟨_, _, _, _, ht⟩ := hI.track
  obtain ⟨segs, hhanded, hpre, -⟩ := ht.segments
  rw [hhanded]
  intro p hp
  obtain ⟨seg, hseg, rfl⟩ := mem_map.mp hp
  refine splitLines_pack fun q hq => ?_
  obtain ⟨now, hline⟩ := henc q (hpre.subset (mem_flatten_of_mem hseg hq))
  exact ⟨_, now, Option.some.inj hline⟩

/-- A message with a newline in it is one line. -/
theorem newline_in_message :
    let e : LogEntry := ⟨0, [], [], [], [], [97, 10, 98], ∅⟩
    ∃ s, run (guarded honest (shipStep (fun now e => some (encode id someRange now e))
        (newShipper ⟨0, 0, 0, [], []⟩))) newRun [.recv e 5, .timer] = some s ∧
      s.handed.map Prod.fst = [[e]] ∧ ∀ p ∈ s.handed, ∃ lines, splitLines p.2 = (lines, []) ∧
        Forall₂ (Renders id) p.1 lines := by
  intro e
  exact ⟨_, rfl, rfl, payload_lines id (fun _ _ => someRange) ⟨0, 0, 0, [], []⟩
    [.recv e 5, .timer] _ rfl⟩

/-! ## Two entries -/

/-- The object depends on the fields without a reserved name only. -/
theorem encodeObject_congr (redact : Bytes → Bytes) (r r' : Range Bytes Bytes) (now : Int)
    (e : LogEntry) (fields : Map Bytes Bytes)
    (h : ∀ k, isReserved k = false → fields.lookup k = e.fields.lookup k) :
    encodeObject redact r' now { e with fields } = encodeObject redact r now e := by
  have hkept : ∀ k, keptField redact fields k = keptField redact e.fields k := by
    intro k
    cases hk : isReserved k with
    | false => rw [keptField, keptField, h k hk]
    | true => rw [keptField_reserved hk, keptField_reserved hk]
  refine Finmap.ext_lookup fun k => ?_
  rw [lookup_encodeObject, lookup_encodeObject, hkept k]
  rfl

/-- The line of an entry is an object whose reserved members are the entry's own, or not
there, and whose other members are its fields, redacted; and another entry that differs in
fields with reserved names only has the same line. -/
theorem encode_unforgeable (redact : Bytes → Bytes) (r : Range Bytes Bytes) (now : Int)
    (e : LogEntry) :
    (∃ line members, encode redact r now e = line ++ [10] ∧
      Json.parse (toText line) = some (.obj members) ∧ EncodedFrom redact now e members) ∧
    ∀ (r' : Range Bytes Bytes) (fields : Map Bytes Bytes),
      (∀ k, isReserved k = false → fields.lookup k = e.fields.lookup k) →
        encode redact r' now { e with fields } = encode redact r now e := by
  constructor
  · exact ⟨_, encodedMembers redact r now e, rfl, parse_encode, encodedFrom⟩
  · intro r' fields h
    rw [encode, encode, encodeObject_congr redact r r' now e fields h]

end YominsAgent.Logs
