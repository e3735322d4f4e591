import YominsAgent.Logs.Parse

/- The fields of a JSON access log and the order of the map (`parseNginxJSON`).

   Three members name the field `vhost` and two name `path`. The loop over the decoded map
   lets the last one visited stand, so two of them with different values make the entry
   depend on the order (`two_hosts_two_entries`). It does not exactly when the members of
   one field agree, paths up to their query (`access_order_iff`). -/
namespace YominsAgent.Logs
open Go

def shown (name s : Str) : Str := if name = pathField then cutQuery s else s

theorem lookup_cutPath (fields : Map Str Str) (name : Str) :
    (cutPath fields).lookup name = (fields.lookup name).map (shown name) := by
  have hother : name ≠ pathField → (fields.lookup name).map (shown name) = fields.lookup name := by
    intro hne
    cases fields.lookup name with
    | none => rfl
    | some => simp [shown, hne]
  unfold cutPath
  cases hp : fields.lookup pathField with
  | none =>
    by_cases hname : name = pathField
    · rw [hname, hp]
      rfl
    · exact (hother hname).symm
  | some p =>
    by_cases hname : name = pathField
    · subst hname
      rw [hp]
      by_cases hnil : p = []
      · subst hnil
        simp [hp, shown, cutQuery, cut]
      · simp [hnil, shown]
    · by_cases hnil : p = []
      · simp only [hnil]
        exact (hother hname).symm
      · simp only [ne_eq, hnil, not_false_eq_true, if_true, Finmap.lookup_insert_of_ne _ hname]
        exact (hother hname).symm

/-- The members that set one field agree on what it shows. -/
def Agrees (obj : Map Str Json) : Prop :=
  ∀ k k' name s s', accessField obj k = some (name, s) → accessField obj k' = some (name, s') →
    shown name s = shown name s'

variable {obj : Map Str Json} {k : Str}

theorem mem_of_accessField {x : Str × Str} (h : accessField obj k = some x) : k ∈ obj := by
  unfold accessField at h
  split at h
  · next v _ hv => exact Finmap.mem_iff.mpr ⟨v, hv⟩
  · cases h

/-- The fields of an object for one order of its keys. -/
def accessFields (r : Range Str Json) (obj : Map Str Json) : Map Str Str :=
  cutPath (collect (accessField obj) (r.order obj))

theorem lookup_endingWith {name s : Str} (h : accessField obj k = some (name, s)) :
    (accessFields (.endingWith k) obj).lookup name = some (shown name s) := by
  obtain ⟨l, hl⟩ := Range.order_endingWith (mem_of_accessField h)
  rw [accessFields, lookup_cutPath, hl, collect_concat, h]
  simp

/-- Fields on whose members all agree are the same for every order. -/
theorem accessFields_eq (h : Agrees obj) (r r' : Range Str Json) :
    accessFields r obj = accessFields r' obj := by
  refine Finmap.ext_lookup fun name => ?_
  -- what one order has, the other has too
  have hsub : ∀ r r' : Range Str Json, ∀ v, (accessFields r obj).lookup name = some v →
      (accessFields r' obj).lookup name = some v := by
    intro r r' v hv
    rw [accessFields, lookup_cutPath] at hv ⊢
    obtain ⟨s, hs, rfl⟩ := Option.map_eq_some_iff.mp hv
    obtain ⟨k, -, hk⟩ := exists_of_lookup_collect hs
    have hmem := (r'.mem_order obj k).mpr (mem_of_accessField hk)
    obtain ⟨s', hs'⟩ := Option.isSome_iff_exists.mp (isSome_lookup_collect hmem hk)
    obtain ⟨k', -, hk'⟩ := exists_of_lookup_collect hs'
    rw [hs', Option.map_some, h k k' name s s' hk hk']
  cases hr : (accessFields r obj).lookup name with
  | some v => exact (hsub r r' v hr).symm
  | none =>
    cases hr' : (accessFields r' obj).lookup name with
    | none => rfl
    | some v =>
      rw [hsub r' r v hr'] at hr
      cases hr

theorem fields_parseNginxJSON {unixOf : Str → Option Int} {r : Range Str Json} {line : Bytes}
    (h : decodeObject line = some obj) :
    (parseNginxJSON unixOf r line).fields = some (accessFields r obj) := by
  simp only [parseNginxJSON, h, accessFields]

/-- The entry is the same for every order of the map if and only if the line does not decode
or the members of each field agree. -/
theorem access_order_iff (unixOf : Str → Option Int) (line : Bytes) :
    (∀ r r', parseNginxJSON unixOf r line = parseNginxJSON unixOf r' line) ↔
      ∀ obj, decodeObject line = some obj → Agrees obj := by
  constructor
  · intro hsame obj hobj k k' name s s' hk hk'
    have hfields := congrArg Parsed.fields (hsame (.endingWith k) (.endingWith k'))
    rw [fields_parseNginxJSON hobj, fields_parseNginxJSON hobj] at hfields
    have hlookup := congrArg (Finmap.lookup name) (Option.some.inj hfields)
    rw [lookup_endingWith hk, lookup_endingWith hk'] at hlookup
    exact Option.some.inj hlookup
  · intro hagrees r r'
    unfold parseNginxJSON
    cases hobj : decodeObject line with
    | none => rfl
    | some obj =>
      have hfields : cutPath (collect (accessField obj) (r.order obj)) =
          cutPath (collect (accessField obj) (r'.order obj)) :=
        accessFields_eq (hagrees obj hobj) r r'
      simp only [hfields]

def twoHosts : Str := "\x7b\"host\":\"a\",\"server_name\":\"b\"\x7d".toList

/-- A line with two hosts: the vhost is the one visited last. -/
theorem two_hosts_two_entries : ∃ r r', parseNginxJSON (fun _ => none) r (toBytes twoHosts) ≠
    parseNginxJSON (fun _ => none) r' (toBytes twoHosts) := by
  let members : List (Str × Json) := [("host".toList, .str ['a']), ("server_name".toList, .str ['b'])]
  have hobj : decodeObject (toBytes twoHosts) = some (objectOf members) := by
    have htext : twoHosts = Json.print (.obj members) := by decide
    have hwritten : Json.Written Json.maxNestingDepth (.obj members) :=
      .obj (d := 9999) (by simp [members, Json.Written.str])
    rw [decodeObject, toText_toBytes, htext, Json.parse_written hwritten]
    exact if_pos rfl
  refine ⟨.endingWith "host".toList, .endingWith "server_name".toList, ?_⟩
  intro hsame
  have hfields := congrArg Parsed.fields hsame
  rw [fields_parseNginxJSON hobj, fields_parseNginxJSON hobj] at hfields
  have hvhost := congrArg (Finmap.lookup "vhost".toList) (Option.some.inj hfields)
  have hhost : accessField (objectOf members) "host".toList = some ("vhost".toList, ['a']) := by
    decide +kernel
  have hname : accessField (objectOf members) "server_name".toList =
      some ("vhost".toList, ['b']) := by
    decide +kernel
  have hboth := (lookup_endingWith hhost).symm.trans (hvhost.trans (lookup_endingWith hname))
  exact absurd hboth (by decide)

end YominsAgent.Logs
