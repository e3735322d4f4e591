import Mathlib.Data.Char
import Mathlib.Data.List.Lex
import Mathlib.Data.List.Sort
import YominsAgent.Go.Strings
import YominsAgent.Lib.Group

/- `metrics/encode.go`: the points of a push become Prometheus families.

   A family takes its declared type from the first point of its name, a metric its value kind from
   its own point. The two agree in every family exactly when points of one name agree on their type
   (`encodable_iff`); two endpoints that disagree on the type of a name make the whole push fail
   (`clash_not_encodable`). A point label named like one of the agent's is renamed, whether or not
   the point has a label of the new name already (`series_sound_iff`, `exported_source_twice`).

   Correspondence (Go ↔ Lean):
     `MetricPoint`, `MetricSet` ↔ `MetricPoint`, `MetricSet` (without
                                  `Timestamp`, `Version` and `CollectedAt`,
                                  which the encoder does not read)
     `dto.Metric`, `dto.MetricFamily` ↔ `Metric`, `MetricFamily`
     `order` and `byName`       ↔ one map that keeps its insertion order
     `expfmt`'s encoder         ↔ the parameter `enc`

   A `float64` is only carried along: its type is a parameter. -/
namespace YominsAgent.Metrics
open Go Lib List

inductive MetricType where
  | gauge
  | counter
  deriving DecidableEq, Repr

/-- A label map: no name twice. -/
structure Labels where
  entries : List (Str × Str)
  nodup : (entries.map Prod.fst).Nodup

variable {ν : Type}

structure MetricPoint (ν : Type) where
  name : Str
  help : Str
  type : MetricType
  value : ν
  labels : Labels

structure MetricSet (ν : Type) where
  points : List (MetricPoint ν)
  agentID : Str
  hostname : Str
  source : Str

structure LabelPair where
  name : Str
  value : Str
  deriving DecidableEq, Repr

/-- `dto.Metric`: the value sits in the field of its kind. -/
structure Metric (ν : Type) where
  label : List LabelPair
  counter : Option ν
  gauge : Option ν

/-- `dto.MetricType`. -/
inductive DtoType where
  | counter
  | gauge
  | summary
  | untyped
  | histogram
  deriving DecidableEq, Repr

structure MetricFamily (ν : Type) where
  name : Str
  help : Str
  type : DtoType
  metric : List (Metric ν)

def agentLabelPairs (ms : MetricSet ν) : List LabelPair :=
  [⟨"agent_id".toList, ms.agentID⟩,
   ⟨"hostname".toList, ms.hostname⟩,
   ⟨"source".toList, ms.source⟩,
   ⟨"target_name".toList, ms.agentID⟩,
   ⟨"target_type".toList, "system".toList⟩]

/-- The name under which a point label is sent: one named like an agent label
is kept under another name. -/
def labelName (agentLabels : List LabelPair) (k : Str) : Str :=
  if agentLabels.any (fun al => al.name == k) then "exported_".toList ++ k else k

def pointLabels (agentLabels : List LabelPair) (labels : Labels) : List LabelPair :=
  ((labels.entries.map Prod.fst).insertionSort (· ≤ ·)).map fun k =>
    ⟨labelName agentLabels k, (labels.entries.lookup k).getD []⟩

def dtoMetric (agentLabels : List LabelPair) (pt : MetricPoint ν) : Metric ν :=
  let label := agentLabels ++ pointLabels agentLabels pt.labels
  match pt.type with
  | .counter => { label, counter := some pt.value, gauge := none }
  | .gauge => { label, counter := none, gauge := some pt.value }

def dtoType : MetricType → DtoType
  | .counter => .counter
  | .gauge => .gauge

/-- The family a first point of a name opens, still without metrics. -/
def newFamily (pt : MetricPoint ν) : MetricFamily ν :=
  { name := pt.name, help := pt.help, type := dtoType pt.type, metric := [] }

def addMetric (agentLabels : List LabelPair) (fam : MetricFamily ν) (pt : MetricPoint ν) :
    MetricFamily ν :=
  { fam with metric := fam.metric ++ [dtoMetric agentLabels pt] }

/-- Groups the points by name, in the order in which the names first occur. -/
def buildFamilies (ms : MetricSet ν) : List (MetricFamily ν) :=
  (group MetricPoint.name newFamily (addMetric (agentLabelPairs ms)) ms.points).map Prod.snd

/-- `Encode`: the families' texts one after another, or the name of the family
the encoder fails on, with its error. -/
def encode {η : Type} (enc : MetricFamily ν → Except η Str) (ms : MetricSet ν) :
    Except (Str × η) Str :=
  (buildFamilies ms).foldlM (fun buf f =>
    match enc f with
    | .ok text => .ok (buf ++ text)
    | .error e => .error (f.name, e)) []

/-! ## What a family holds -/

/-- The metric carries the value kind a family's type requires. A metric built
here is never one of the other kinds. -/
def Metric.carries (m : Metric ν) : DtoType → Bool
  | .counter => m.counter.isSome
  | .gauge => m.gauge.isSome
  | _ => false

def MetricFamily.wellKinded (f : MetricFamily ν) : Bool := f.metric.all (·.carries f.type)

theorem dtoMetric_carries (agentLabels : List LabelPair) (pt : MetricPoint ν) (t : MetricType) :
    (dtoMetric agentLabels pt).carries (dtoType t) = decide (pt.type = t) := by
  unfold dtoMetric
  cases pt.type <;> cases t <;> rfl

theorem foldl_addMetric (agentLabels : List LabelPair) (l : List (MetricPoint ν))
    (fam : MetricFamily ν) :
    l.foldl (addMetric agentLabels) fam =
      { fam with metric := fam.metric ++ l.map (dtoMetric agentLabels) } := by
  induction l generalizing fam with
  | nil => simp
  | cons pt l ih => rw [foldl_cons, ih]; simp [addMetric]

theorem name_of_filter {points : List (MetricPoint ν)} {k : Str} {pt : MetricPoint ν}
    {rest : List (MetricPoint ν)} (h : points.filter (fun p => p.name = k) = pt :: rest) :
    pt.name = k := by
  have hpt : pt ∈ points.filter (fun p => p.name = k) := by rw [h]; exact mem_cons_self
  simpa using (mem_filter.mp hpt).2

/-- The families are the points of each name: name, help and type of the first
of them, and a metric for each. -/
theorem mem_buildFamilies {ms : MetricSet ν} {f : MetricFamily ν} :
    f ∈ buildFamilies ms ↔ ∃ pt rest, ms.points.filter (fun p => p.name = pt.name) = pt :: rest ∧
      f = { name := pt.name, help := pt.help, type := dtoType pt.type,
            metric := (pt :: rest).map (dtoMetric (agentLabelPairs ms)) } := by
  simp only [buildFamilies, mem_map, Prod.exists, exists_eq_right, mem_group]
  constructor
  · rintro ⟨k, hk⟩
    cases hl : ms.points.filter (fun p => p.name = k) with
    | nil => rw [hl] at hk; cases hk
    | cons pt rest =>
      rw [hl, groupOf, foldl_addMetric] at hk
      exact ⟨pt, rest, by rw [name_of_filter hl]; exact hl, (Option.some.inj hk).symm⟩
  · rintro ⟨pt, rest, hl, rfl⟩
    refine ⟨pt.name, ?_⟩
    rw [hl, groupOf, foldl_addMetric]
    rfl

/-! ## When a push can be encoded -/

/-- Points of one name have one type. -/
def TypesAgree (points : List (MetricPoint ν)) : Prop :=
  ∀ p ∈ points, ∀ q ∈ points, p.name = q.name → p.type = q.type

theorem wellKinded_iff (ms : MetricSet ν) :
    (∀ f ∈ buildFamilies ms, f.wellKinded = true) ↔ TypesAgree ms.points := by
  constructor
  · intro h
    -- the type of a point is that of the first point of its name
    have hfirst : ∀ p ∈ ms.points, ∀ pt rest,
        ms.points.filter (fun q => q.name = p.name) = pt :: rest → p.type = pt.type := by
      intro p hp pt rest hl
      have hf := h _ (mem_buildFamilies.mpr ⟨pt, rest, by rw [name_of_filter hl]; exact hl, rfl⟩)
      have hmem : p ∈ pt :: rest := by
        rw [← hl]
        exact mem_filter.mpr ⟨hp, by simp⟩
      have := all_eq_true.mp hf _ (mem_map_of_mem hmem)
      rw [dtoMetric_carries] at this
      exact of_decide_eq_true this
    intro p hp q hq hname
    cases hl : ms.points.filter (fun r => r.name = p.name) with
    | nil =>
      have : p ∈ ms.points.filter (fun r => r.name = p.name) :=
        mem_filter.mpr ⟨hp, by simp⟩
      rw [hl] at this
      cases this
    | cons pt rest => rw [hfirst p hp pt rest hl, hfirst q hq pt rest (by rw [← hname]; exact hl)]
  · intro h f hf
    obtain ⟨pt, rest, hl, rfl⟩ := mem_buildFamilies.mp hf
    refine all_eq_true.mpr fun m hm => ?_
    obtain ⟨p, hp, rfl⟩ := mem_map.mp hm
    have hmem : ∀ r ∈ pt :: rest, r ∈ ms.points ∧ r.name = pt.name := by
      intro r hr
      rw [← hl] at hr
      simpa using hr
    rw [dtoMetric_carries, decide_eq_true_eq]
    have hpt := hmem pt mem_cons_self
    exact h p (hmem p hp).1 pt hpt.1 (hmem p hp).2

/-- `Encode` succeeds when the encoder takes every family. -/
theorem encode_isOk {η : Type} {enc : MetricFamily ν → Except η Str} {ms : MetricSet ν}
    (h : ∀ f ∈ buildFamilies ms, (enc f).isOk = true) : (encode enc ms).isOk = true := by
  unfold encode
  generalize buildFamilies ms = fams at h
  generalize ([] : Str) = buf
  induction fams generalizing buf with
  | nil => rfl
  | cons f fams ih =>
    have hf := h f mem_cons_self
    cases he : enc f with
    | error => rw [he] at hf; cases hf
    | ok text =>
      rw [foldlM_cons, he]
      exact ih (fun g hg => h g (mem_cons_of_mem f hg)) (buf ++ text)

/-- Every metric of a push carries the kind its family declares, and `Encode`
succeeds with every encoder that fails only on a metric without it, exactly when
points of one name have one type. -/
theorem encodable_iff (ms : MetricSet ν) :
    ((∀ f ∈ buildFamilies ms, ∀ m ∈ f.metric, m.carries f.type = true) ∧
      ∀ (η : Type) (enc : MetricFamily ν → Except η Str),
        (∀ f, (enc f).isOk = false → ∃ m ∈ f.metric, m.carries f.type = false) →
        (encode enc ms).isOk = true) ↔
    TypesAgree ms.points := by
  rw [← wellKinded_iff]
  constructor
  · intro h f hf
    exact all_eq_true.mpr (h.1 f hf)
  · intro h
    have hkind : ∀ f ∈ buildFamilies ms, ∀ m ∈ f.metric, m.carries f.type = true :=
      fun f hf => all_eq_true.mp (h f hf)
    refine ⟨hkind, fun η enc henc => encode_isOk fun f hf => ?_⟩
    by_contra hfail
    obtain ⟨m, hm, hno⟩ := henc f (by simpa using hfail)
    rw [hkind f hf m hm] at hno
    cases hno

/-- A reading of `queue_depth` from the endpoint `target`. -/
def queueDepth (t : MetricType) (target : String) : MetricPoint Int :=
  { name := "queue_depth".toList, help := [], type := t, value := 1,
    labels := ⟨[("scrape_target".toList, target.toList)], List.nodup_singleton _⟩ }

/-- Two endpoints that export `queue_depth`, one as a counter, one as a gauge:
the gauge lands in a counter family, and the push cannot be encoded. -/
theorem clash_not_encodable : ∃ ms : MetricSet Int,
    (∃ f ∈ buildFamilies ms, ∃ m ∈ f.metric, m.carries f.type = false) ∧
    ∃ enc : MetricFamily Int → Except Unit Str,
      (∀ f, (enc f).isOk = false → ∃ m ∈ f.metric, m.carries f.type = false) ∧
      encode enc ms = .error ("queue_depth".toList, ()) := by
  refine ⟨⟨[queueDepth .counter "app:9090", queueDepth .gauge "worker:9090"], "a".toList,
    "h".toList, "yomins_agent".toList⟩, ⟨_, mem_cons_self, _,
      mem_cons_of_mem _ mem_cons_self, rfl⟩,
    fun f => if f.wellKinded then .ok [] else .error (), ?_, rfl⟩
  intro f hf
  by_contra hall
  have : f.wellKinded = true := all_eq_true.mpr (by simpa using hall)
  simp [this, Except.isOk, Except.toBool] at hf

/-! ## The labels of a series -/

def agentLabelNames : List Str :=
  ["agent_id", "hostname", "source", "target_name", "target_type"].map String.toList

def Labels.names (l : Labels) : List Str := l.entries.map Prod.fst

/-- A label is named like one of the agent's, and another like its new name. -/
def Labels.Clash (l : Labels) : Prop :=
  ∃ a ∈ agentLabelNames, a ∈ l.names ∧ "exported_".toList ++ a ∈ l.names

/-- What the server needs of the families of a push. -/
structure SeriesSound (ms : MetricSet ν) : Prop where
  /-- No series has a label name twice. -/
  distinct : ∀ f ∈ buildFamilies ms, ∀ m ∈ f.metric, (m.label.map LabelPair.name).Nodup
  /-- The agent's labels are there, with its values only. -/
  agent : ∀ f ∈ buildFamilies ms, ∀ m ∈ f.metric, ∀ al ∈ agentLabelPairs ms,
    al ∈ m.label ∧ ∀ l ∈ m.label, l.name = al.name → l.value = al.value
  families : ((buildFamilies ms).map MetricFamily.name).Nodup
  /-- A family has the points of its name, each once, in their order. -/
  members : ∀ f ∈ buildFamilies ms,
    f.metric = (ms.points.filter fun pt => pt.name = f.name).map (dtoMetric (agentLabelPairs ms))
  covered : ∀ pt ∈ ms.points, ∃ f ∈ buildFamilies ms, f.name = pt.name

section
variable {ms : MetricSet ν}

theorem label_dtoMetric (agentLabels : List LabelPair) (pt : MetricPoint ν) :
    (dtoMetric agentLabels pt).label = agentLabels ++ pointLabels agentLabels pt.labels := by
  unfold dtoMetric
  cases pt.type <;> rfl

theorem labelName_eq (ms : MetricSet ν) (k : Str) : labelName (agentLabelPairs ms) k =
      if k ∈ agentLabelNames then "exported_".toList ++ k else k := by
  have hany : ((agentLabelPairs ms).any fun al => al.name == k) = true ↔ k ∈ agentLabelNames := by
    rw [show agentLabelNames = (agentLabelPairs ms).map LabelPair.name from rfl]
    simp [any_eq_true]
  simp only [labelName, hany]

/-- No label of a point ends up under a name of the agent. -/
theorem labelName_notMem (ms : MetricSet ν) (k : Str) :
    labelName (agentLabelPairs ms) k ∉ agentLabelNames := by
  have hexported : ∀ a ∈ agentLabelNames, "exported_".toList ++ a ∉ agentLabelNames := by
    decide +kernel
  rw [labelName_eq]
  split
  · next hk => exact hexported k hk
  · next hk => exact hk

theorem labelName_inj_iff (ms : MetricSet ν) (l : Labels) :
    (∀ x ∈ l.names, ∀ y ∈ l.names,
      labelName (agentLabelPairs ms) x = labelName (agentLabelPairs ms) y → x = y) ↔
    ¬ l.Clash := by
  constructor
  · rintro hinj ⟨a, ha, hmem, hexported⟩
    have hnot : "exported_".toList ++ a ∉ agentLabelNames := by
      have := labelName_notMem ms a
      rwa [labelName_eq, if_pos ha] at this
    have hsame := hinj a hmem _ hexported (by rw [labelName_eq, labelName_eq, if_pos ha, if_neg hnot])
    exact hnot (hsame ▸ ha)
  · intro hclash x hx y hy hname
    rw [labelName_eq, labelName_eq] at hname
    by_cases hxa : x ∈ agentLabelNames
    · rw [if_pos hxa] at hname
      by_cases hya : y ∈ agentLabelNames
      · rw [if_pos hya] at hname
        exact append_cancel_left hname
      · rw [if_neg hya] at hname
        exact absurd ⟨x, hxa, hx, hname ▸ hy⟩ hclash
    · rw [if_neg hxa] at hname
      by_cases hya : y ∈ agentLabelNames
      · rw [if_pos hya] at hname
        exact absurd ⟨y, hya, hy, hname ▸ hx⟩ hclash
      · rwa [if_neg hya] at hname

/-- The labels of a series have distinct names unless two of its point's labels meet. -/
theorem nodup_label_iff (ms : MetricSet ν) (pt : MetricPoint ν) :
    ((dtoMetric (agentLabelPairs ms) pt).label.map LabelPair.name).Nodup ↔ ¬ pt.labels.Clash := by
  have hperm := perm_insertionSort (· ≤ ·) pt.labels.names
  have hkeys : (pt.labels.names.insertionSort (· ≤ ·)).Nodup :=
    hperm.nodup_iff.mpr pt.labels.nodup
  have hnames : (pointLabels (agentLabelPairs ms) pt.labels).map LabelPair.name =
      (pt.labels.names.insertionSort (· ≤ ·)).map (labelName (agentLabelPairs ms)) := by
    rw [pointLabels, map_map]
    rfl
  have hagent : (agentLabelPairs ms).map LabelPair.name = agentLabelNames := rfl
  have hnodup : agentLabelNames.Nodup := by decide +kernel
  rw [label_dtoMetric, map_append, hnames, hagent, ← labelName_inj_iff ms,
    nodup_append, nodup_map_iff_inj_on hkeys]
  simp only [hperm.mem_iff]
  constructor
  · intro h
    exact h.2.1
  · intro hinj
    refine ⟨hnodup, hinj, ?_⟩
    rintro a ha b hb rfl
    obtain ⟨k, -, hk⟩ := mem_map.mp hb
    exact labelName_notMem ms k (hk ▸ ha)

theorem agent_label {pt : MetricPoint ν} {al : LabelPair} (hal : al ∈ agentLabelPairs ms) :
    al ∈ (dtoMetric (agentLabelPairs ms) pt).label ∧
      ∀ l ∈ (dtoMetric (agentLabelPairs ms) pt).label, l.name = al.name → l.value = al.value := by
  have hname : al.name ∈ agentLabelNames := mem_map_of_mem hal
  rw [label_dtoMetric]
  refine ⟨mem_append_left _ hal, fun l hl he => ?_⟩
  rcases mem_append.mp hl with hagent | hpoint
  · have hnodup : ((agentLabelPairs ms).map LabelPair.name).Nodup := by
      show agentLabelNames.Nodup
      decide +kernel
    exact congrArg LabelPair.value (inj_on_of_nodup_map hnodup hagent hal he)
  · obtain ⟨k, -, rfl⟩ := mem_map.mp hpoint
    have hk : labelName (agentLabelPairs ms) k = al.name := he
    exact absurd (hk ▸ hname) (labelName_notMem ms k)

theorem nodup_families (ms : MetricSet ν) : ((buildFamilies ms).map MetricFamily.name).Nodup := by
  have hkeys : (buildFamilies ms).map MetricFamily.name =
      (group MetricPoint.name newFamily (addMetric (agentLabelPairs ms)) ms.points).map
        Prod.fst := by
    rw [buildFamilies, map_map]
    apply map_congr_left
    rintro ⟨k, f⟩ hf
    rw [mem_group] at hf
    cases hl : ms.points.filter (fun p => p.name = k) with
    | nil => rw [hl] at hf; cases hf
    | cons =>
      rw [hl, groupOf, foldl_addMetric] at hf
      rw [← Option.some.inj hf]
      exact name_of_filter hl
  rw [hkeys]
  exact nodup_group _ _ _ ms.points

theorem metric_of_family {f : MetricFamily ν} (hf : f ∈ buildFamilies ms) :
    f.metric = (ms.points.filter fun pt => pt.name = f.name).map
      (dtoMetric (agentLabelPairs ms)) := by
  obtain ⟨pt, rest, hl, rfl⟩ := mem_buildFamilies.mp hf
  rw [hl]

theorem family_of_point {pt : MetricPoint ν} (hpt : pt ∈ ms.points) :
    ∃ f ∈ buildFamilies ms, f.name = pt.name := by
  cases hl : ms.points.filter (fun p => p.name = pt.name) with
  | nil =>
    have : pt ∈ ms.points.filter (fun p => p.name = pt.name) :=
      mem_filter.mpr ⟨hpt, by simp⟩
    rw [hl] at this
    cases this
  | cons first rest =>
    have hname := name_of_filter hl
    exact ⟨_, mem_buildFamilies.mpr ⟨first, rest, by rw [hname]; exact hl, rfl⟩, hname⟩

end

/-- The families of a push are sound if and only if no point has both a label named like one
of the agent's and one named like it with `exported_` in front. -/
theorem series_sound_iff (ms : MetricSet ν) :
    SeriesSound ms ↔ ∀ pt ∈ ms.points, ¬ pt.labels.Clash := by
  have hpoint : ∀ f ∈ buildFamilies ms, ∀ m ∈ f.metric, ∃ pt ∈ ms.points,
      m = dtoMetric (agentLabelPairs ms) pt := by
    intro f hf m hm
    rw [metric_of_family hf] at hm
    obtain ⟨pt, hpt, rfl⟩ := mem_map.mp hm
    exact ⟨pt, (mem_filter.mp hpt).1, rfl⟩
  constructor
  · intro h pt hpt
    obtain ⟨f, hf, hname⟩ := family_of_point hpt
    have hm : dtoMetric (agentLabelPairs ms) pt ∈ f.metric := by
      rw [metric_of_family hf]
      exact mem_map_of_mem (mem_filter.mpr ⟨hpt, by simp [hname]⟩)
    exact (nodup_label_iff ms pt).mp (h.distinct f hf _ hm)
  · intro h
    refine ⟨?_, ?_, nodup_families ms, fun f hf => metric_of_family hf,
      fun pt hpt => family_of_point hpt⟩
    · intro f hf m hm
      obtain ⟨pt, hpt, rfl⟩ := hpoint f hf m hm
      exact (nodup_label_iff ms pt).mpr (h pt hpt)
    · intro f hf m hm al hal
      obtain ⟨pt, -, rfl⟩ := hpoint f hf m hm
      exact agent_label hal

/-- A point with the labels `source` and `exported_source`. -/
def exportedTwice : MetricPoint Int :=
  { name := "up".toList, help := [], type := .gauge, value := 1,
    labels := ⟨[("source".toList, "a".toList), ("exported_source".toList, "b".toList)],
      by decide +kernel⟩ }

/-- Its series has the label `exported_source` twice. -/
theorem exported_source_twice :
    ∃ ms : MetricSet Int, ∃ f ∈ buildFamilies ms, ∃ m ∈ f.metric,
      ⟨"exported_source".toList, "a".toList⟩ ∈ m.label ∧
      ⟨"exported_source".toList, "b".toList⟩ ∈ m.label ∧
      ¬ (m.label.map LabelPair.name).Nodup := by
  refine ⟨⟨[exportedTwice], "a".toList, "h".toList, "yomins_agent".toList⟩, _,
    mem_cons_self, _, mem_cons_self, ?_, ?_, ?_⟩
  · decide +kernel
  · decide +kernel
  · decide +kernel

end YominsAgent.Metrics
