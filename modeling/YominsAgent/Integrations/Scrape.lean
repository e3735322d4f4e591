import YominsAgent.Go.Path
import YominsAgent.Metrics.Encode

/- Local Prometheus endpoints (`internal/integrations/scrape.go`): the families an endpoint
   answers with become points, with the host of the endpoint in the label `scrape_target`.

   What an endpoint answers with is spelled out as the series of the text format (`series`);
   `scrape` makes one point of each, up to a limit (`scrape_series`). The points of a pass are
   pairwise different and keep the label values of their series exactly if the conditions of
   `KeepsIdentity` hold (`identity_iff`). They fail for two URLs of one host and for a series
   that has a reserved label under both its names (`identity_lost`).

   Correspondence (Go ↔ Lean):
     `dto.MetricFamily`, `dto.Metric` ↔ `SourceFamily`, `SourceMetric`; what is nil is zero
     the map of the text parser       ↔ `Families`
     `flatten`, `scrape`              ↔ `flatten`, `scrapeNames`, `scrape`
     `url.Parse`                      ↔ the parameter `parseURL`, the host if there is no error
     the GET request and the parser   ↔ an `Endpoint`, with what comes out of them
   The `float64` and its texts are a parameter (`Numbers`). -/
namespace YominsAgent.Metrics
open Go

namespace Labels

/-- `labels[k]` -/
def get (l : Labels) (k : Str) : Option Str := l.entries.lookup k

/-- `labels[k] = v` -/
def set (l : Labels) (k v : Str) : Labels where
  entries := (k, v) :: l.entries.filter fun kv => kv.1 != k
  nodup := by
    rw [List.map_cons, List.nodup_cons]
    constructor
    · intro hk
      obtain ⟨kv, hkv, heq⟩ := List.mem_map.mp hk
      simpa [heq] using (List.mem_filter.mp hkv).2
    · exact l.nodup.sublist (List.filter_sublist.map _)

def empty : Labels := ⟨[], List.nodup_nil⟩

def Same (l l' : Labels) : Prop := ∀ k, l.get k = l'.get k

theorem get_set (l : Labels) (k v n : Str) :
    (l.set k v).get n = if n = k then some v else l.get n := by
  unfold get set
  rw [List.lookup_cons]
  by_cases hn : n = k
  · simp [hn]
  · have hbeq : (n == k) = false := beq_eq_false_iff_ne.mpr hn
    rw [hbeq, if_neg hn]
    simp only
    -- the entries that go have another name
    induction l.entries with
    | nil => rfl
    | cons kv es ih =>
      by_cases hk : kv.1 = k
      · have hne : (n == kv.1) = false := by rw [hk]; exact hbeq
        rw [List.filter_cons_of_neg (by simp [hk]), ih, List.lookup_cons, hne]
      · rw [List.filter_cons_of_pos (by simp [hk]), List.lookup_cons, List.lookup_cons, ih]

end Labels

end YominsAgent.Metrics

namespace YominsAgent.Integrations
open Go Metrics

/-! ## What an endpoint returns -/

structure SourceSummary (ν : Type) where
  /-- the quantiles with their values -/
  quantile : List (ν × ν)
  sampleSum : ν
  sampleCount : Nat

structure SourceHistogram (ν : Type) where
  /-- the upper bounds with their cumulative counts -/
  bucket : List (ν × Nat)
  sampleSum : ν
  sampleCount : Nat

structure SourceMetric (ν : Type) where
  label : List (Str × Str)
  counter : ν
  gauge : ν
  untyped : ν
  summary : SourceSummary ν
  histogram : SourceHistogram ν

structure SourceFamily (ν : Type) where
  name : Str
  help : Str
  /-- `none` is a type `flatten` has no case for -/
  type : Option DtoType
  metric : List (SourceMetric ν)

/-- The families of an answer by their names. -/
structure Families (ν : Type) where
  entries : List (Str × SourceFamily ν)
  nodup : (entries.map Prod.fst).Nodup

/-- The arithmetic of `float64`, as far as it is used. -/
structure Numbers (ν : Type) where
  zero : ν
  one : ν
  /-- `float64(n)` -/
  ofCount : Nat → ν
  /-- `strconv.FormatFloat(v, 'g', -1, 64)` -/
  format : ν → Str
  /-- `math.IsInf(v, 1)` -/
  isInf : ν → Bool

/-- A URL with what its endpoint answered; `none` is an error. -/
structure Endpoint (ν : Type) where
  url : Str
  answer : Option (Families ν)

def maxScrapeSeries : Nat := 5000

def reservedLabels : List Str :=
  ["agent_id", "hostname", "source", "target_name", "target_type", "project_id", "customer_id",
    "environment", "scrape_target"].map String.toList

def sentName (k : Str) : Str := if reservedLabels.contains k then "exported_".toList ++ k else k

def scrapeTarget : Str := "scrape_target".toList

/-! ## The code -/

variable {ν : Type} {label : List (Str × Str)} {v : Str}

section
variable (num : Numbers ν)

def gauge (name help : Str) (value : ν) (labels : Labels) : MetricPoint ν :=
  { name, help, type := .gauge, value, labels }

def counter (name help : Str) (value : ν) (labels : Labels) : MetricPoint ν :=
  { name, help, type := .counter, value, labels }

/-- The point that reports how an integration fared. -/
def status (integration state inst : Str) : MetricPoint ν :=
  let l := (Labels.empty.set "integration".toList integration).set "status".toList state
  { name := "agent_integration_status".toList
    help := ("1 per integration and instance, labelled with how reading it went " ++
      "(ok, unconfigured, error)").toList
    type := .gauge
    value := num.one
    labels := if inst ≠ [] then l.set "instance".toList inst else l }

/-- The labels of a series, with the reserved ones renamed. -/
def sentLabels (target : Str) (label : List (Str × Str)) : Labels :=
  label.foldl (fun l kv => l.set (sentName kv.1) kv.2) (Labels.empty.set scrapeTarget target)

def leText (b : ν) : Str := if num.isInf b then "+Inf".toList else num.format b

def flattenMetric (f : SourceFamily ν) (target : Str) (m : SourceMetric ν) :
    List (MetricPoint ν) :=
  let labels := sentLabels target m.label
  match f.type with
  | some .counter => [counter f.name f.help m.counter labels]
  | some .gauge => [gauge f.name f.help m.gauge labels]
  | some .untyped => [gauge f.name f.help m.untyped labels]
  | some .summary =>
    m.summary.quantile.map (fun q =>
      gauge f.name f.help q.2 (labels.set "quantile".toList (num.format q.1))) ++
    [counter (f.name ++ "_sum".toList) f.help m.summary.sampleSum labels,
     counter (f.name ++ "_count".toList) f.help (num.ofCount m.summary.sampleCount) labels]
  | some .histogram =>
    let bucket (n : Nat) (le : Str) : MetricPoint ν :=
      counter (f.name ++ "_bucket".toList) f.help (num.ofCount n) (labels.set "le".toList le)
    m.histogram.bucket.map (fun b => bucket b.2 (leText num b.1)) ++
    (if m.histogram.bucket.any fun b => num.isInf b.1 then []
      else [bucket m.histogram.sampleCount "+Inf".toList]) ++
    [counter (f.name ++ "_sum".toList) f.help m.histogram.sampleSum labels,
     counter (f.name ++ "_count".toList) f.help (num.ofCount m.histogram.sampleCount) labels]
  | none => []

/-- Counters and gauges, the way the text format spells histograms and summaries. -/
def flatten (f : SourceFamily ν) (target : Str) : List (MetricPoint ν) :=
  f.metric.flatMap (flattenMetric num f target)

def Families.names (fams : Families ν) : List Str :=
  (fams.entries.map Prod.fst).insertionSort (· ≤ ·)

/-- The loop over the names; it ends once there are too many points. -/
def scrapeNames (fams : Families ν) (target : Str) :
    List Str → List (MetricPoint ν) → List (MetricPoint ν)
  | [], pts => pts
  | n :: names, pts =>
    let pts := pts ++ ((fams.entries.lookup n).map fun f => flatten num f target).getD []
    if maxScrapeSeries < pts.length then pts.take maxScrapeSeries
    else scrapeNames fams target names pts

def scrape (fams : Families ν) (target : Str) : List (MetricPoint ν) :=
  scrapeNames num fams target fams.names []

def scrapeUp (v : ν) (target : Str) : MetricPoint ν :=
  gauge "scrape_up".toList "1 when the endpoint answered with metrics".toList v
    (Labels.empty.set scrapeTarget target)

variable (parseURL : Str → Option Str)

/-- The host of the URL, or the URL. -/
def Endpoint.target (e : Endpoint ν) : Str := (parseURL e.url).getD e.url

def collectEndpoint (e : Endpoint ν) : List (MetricPoint ν) :=
  let target := e.target parseURL
  match e.answer with
  | none => [status num "scrape".toList "error".toList target, scrapeUp num.zero target]
  | some fams => scrape num fams target ++
      [status num "scrape".toList "ok".toList target, scrapeUp num.one target]

def collect (endpoints : List (Endpoint ν)) : List (MetricPoint ν) :=
  endpoints.flatMap (collectEndpoint num parseURL)

end

/-! ## Series -/

/-- A series of an endpoint: a name with labels. -/
structure Series where
  name : Str
  labels : List (Str × Str)
  deriving DecidableEq

section
variable (num : Numbers ν)

/-- The series of a metric as the text format spells them, the bucket of `+Inf` included. -/
def metricSeries (f : SourceFamily ν) (m : SourceMetric ν) : List Series :=
  match f.type with
  | some .counter | some .gauge | some .untyped => [⟨f.name, m.label⟩]
  | some .summary =>
    m.summary.quantile.map (fun q => ⟨f.name, m.label ++ [("quantile".toList, num.format q.1)]⟩) ++
    [⟨f.name ++ "_sum".toList, m.label⟩, ⟨f.name ++ "_count".toList, m.label⟩]
  | some .histogram =>
    let bucket (le : Str) : Series := ⟨f.name ++ "_bucket".toList, m.label ++ [("le".toList, le)]⟩
    m.histogram.bucket.map (fun b => bucket (leText num b.1)) ++
    (if m.histogram.bucket.any fun b => num.isInf b.1 then [] else [bucket "+Inf".toList]) ++
    [⟨f.name ++ "_sum".toList, m.label⟩, ⟨f.name ++ "_count".toList, m.label⟩]
  | none => []

/-- All series of an answer, family by family. -/
def series (fams : Families ν) : List Series :=
  fams.names.flatMap fun n =>
    ((fams.entries.lookup n).map fun f => f.metric.flatMap (metricSeries num f)).getD []

/-- The series that points are made of. -/
def kept (fams : Families ν) : List Series := (series num fams).take maxScrapeSeries

end

/-- The last label of the series that is sent under a name. -/
def LastSent (label : List (Str × Str)) (k v : Str) : Prop :=
  ∃ before rest, label = before ++ (k, v) :: rest ∧ ∀ kv ∈ rest, sentName kv.1 ≠ sentName k

def sentValue (label : List (Str × Str)) (n : Str) : Option Str :=
  (label.reverse.find? fun kv => sentName kv.1 = n).map Prod.snd

/-- Two series have the same labels once the reserved names are renamed. -/
def Alike (label label' : List (Str × Str)) : Prop := ∀ n, sentValue label n = sentValue label' n

section
variable (num : Numbers ν) (parseURL : Str → Option Str)

/-- No two points of a pass have one name and the same labels, and every label value of a
series is among the labels of its point. -/
structure Identity (endpoints : List (Endpoint ν)) : Prop where
  distinct : (collect num parseURL endpoints).Pairwise fun p q =>
    ¬ (p.name = q.name ∧ p.labels.Same q.labels)
  values : ∀ e ∈ endpoints, ∀ fams, e.answer = some fams →
    ∀ (i : Nat) (s : Series), (kept num fams)[i]? = some s →
      ∃ p : MetricPoint ν, (scrape num fams (e.target parseURL))[i]? = some p ∧ p.name = s.name ∧
        ∀ kv ∈ s.labels, ∃ k, p.labels.get k = some kv.2

/-- The URLs have different hosts. Of the series of an endpoint that points are made of, no
two of one name have the same labels but for the renaming, none is `scrape_up` without
labels, and each label value is the target or that of a label no later label is sent under
the name of. -/
structure KeepsIdentity (endpoints : List (Endpoint ν)) : Prop where
  hosts : endpoints.Pairwise fun e e' => e.target parseURL ≠ e'.target parseURL
  apart : ∀ e ∈ endpoints, ∀ fams, e.answer = some fams →
    (kept num fams).Pairwise fun s s' => ¬ (s.name = s'.name ∧ Alike s.labels s'.labels)
  notUp : ∀ e ∈ endpoints, ∀ fams, e.answer = some fams →
    ∀ s ∈ kept num fams, s.name = "scrape_up".toList → s.labels ≠ []
  values : ∀ e ∈ endpoints, ∀ fams, e.answer = some fams →
    ∀ s ∈ kept num fams, ∀ kv ∈ s.labels,
      kv.2 = e.target parseURL ∨ ∃ k, LastSent s.labels k kv.2

end

/-! ## The labels that are sent -/

theorem sentName_ne_target (k : Str) : sentName k ≠ scrapeTarget := by
  intro h
  by_cases hk : reservedLabels.contains k = true
  · rw [sentName, if_pos hk] at h
    have hhead : some 'e' = some 's' := congrArg List.head? h
    exact absurd hhead (by decide)
  · rw [sentName, if_neg hk] at h
    apply hk
    rw [h]
    decide

theorem sentValue_concat (label : List (Str × Str)) (kv : Str × Str) (n : Str) :
    sentValue (label ++ [kv]) n = if sentName kv.1 = n then some kv.2 else sentValue label n := by
  unfold sentValue
  rw [List.reverse_append, List.reverse_singleton, List.singleton_append, List.find?_cons]
  by_cases h : sentName kv.1 = n <;> simp [h]

theorem sentLabels_concat (target : Str) (label : List (Str × Str)) (kv : Str × Str) :
    sentLabels target (label ++ [kv]) = (sentLabels target label).set (sentName kv.1) kv.2 := by
  rw [sentLabels, List.foldl_append]
  rfl

theorem get_sentLabels (target : Str) (label : List (Str × Str)) (n : Str) :
    (sentLabels target label).get n =
      (sentValue label n).or (if n = scrapeTarget then some target else none) := by
  induction label using List.reverseRecOn with
  | nil => exact Labels.get_set ..
  | append_singleton label kv ih =>
    rw [sentLabels_concat, Labels.get_set, sentValue_concat, ih]
    by_cases h : n = sentName kv.1
    · rw [if_pos h, if_pos h.symm]
      rfl
    · rw [if_neg h, if_neg (Ne.symm h)]

/-- A value is sent under a name if a label of that name is the last one. -/
theorem sentValue_eq_some {n : Str} :
    sentValue label n = some v ↔ ∃ k, sentName k = n ∧ LastSent label k v := by
  induction label using List.reverseRecOn with
  | nil =>
    constructor
    · intro h
      cases h
    · rintro ⟨k, -, before, rest, h, -⟩
      exact absurd h.symm (by simp)
  | append_singleton label kv ih =>
    rw [sentValue_concat]
    constructor
    · intro h
      split at h
      · next hn =>
        cases h
        exact ⟨kv.1, hn, label, [], rfl, nofun⟩
      · next hn =>
        obtain ⟨k, rfl, before, rest, rfl, hrest⟩ := ih.mp h
        refine ⟨k, rfl, before, rest ++ [kv], by simp, ?_⟩
        intro kv' hkv'
        rcases List.mem_append.mp hkv' with hkv' | hkv'
        · exact hrest kv' hkv'
        · rw [List.mem_singleton.mp hkv']
          exact hn
    · rintro ⟨k, rfl, before, rest, hsplit, hrest⟩
      cases rest using List.reverseRecOn with
      | nil =>
        obtain ⟨-, rfl⟩ := List.append_inj' hsplit rfl |>.imp id List.singleton_inj.mp
        rw [if_pos rfl]
      | append_singleton rest last =>
        have hkv : label = before ++ (k, v) :: rest ∧ kv = last := by
          have h : label ++ [kv] = (before ++ (k, v) :: rest) ++ [last] := by
            rw [hsplit]
            simp
          exact (List.append_inj' h rfl).imp id List.singleton_inj.mp
        obtain ⟨rfl, rfl⟩ := hkv
        rw [if_neg (hrest kv (List.mem_append_right _ List.mem_cons_self))]
        exact ih.mpr ⟨k, rfl, before, rest, rfl,
          fun kv' hkv' => hrest kv' (List.mem_append_left _ hkv')⟩

theorem sentValue_target (label : List (Str × Str)) : sentValue label scrapeTarget = none := by
  rw [Option.eq_none_iff_forall_ne_some]
  intro v hv
  obtain ⟨k, hk, -⟩ := sentValue_eq_some.mp hv
  exact sentName_ne_target k hk

theorem get_target (target : Str) (label : List (Str × Str)) :
    (sentLabels target label).get scrapeTarget = some target := by
  rw [get_sentLabels, sentValue_target, if_pos rfl]
  rfl

theorem same_sentLabels {target : Str} {label' : List (Str × Str)} :
    (sentLabels target label).Same (sentLabels target label') ↔ Alike label label' := by
  constructor
  · intro h n
    by_cases hn : n = scrapeTarget
    · rw [hn, sentValue_target, sentValue_target]
    · have hget := h n
      rwa [get_sentLabels, get_sentLabels, if_neg hn, Option.or_none, Option.or_none] at hget
  · intro h n
    rw [get_sentLabels, get_sentLabels, h n]

/-- A value is among the labels that are sent if it is the target or the last of a name. -/
theorem value_sent {target : Str} :
    (∃ n, (sentLabels target label).get n = some v) ↔ v = target ∨ ∃ k, LastSent label k v := by
  constructor
  · rintro ⟨n, hn⟩
    rw [get_sentLabels, Option.or_eq_some_iff] at hn
    rcases hn with hn | ⟨-, hn⟩
    · obtain ⟨k, -, hk⟩ := sentValue_eq_some.mp hn
      exact .inr ⟨k, hk⟩
    · split at hn
      · exact .inl (Option.some.inj hn).symm
      · cases hn
  · rintro (rfl | ⟨k, hk⟩)
    · exact ⟨scrapeTarget, get_target v label⟩
    · refine ⟨sentName k, ?_⟩
      rw [get_sentLabels, sentValue_eq_some.mpr ⟨k, rfl, hk⟩]
      rfl

/-- Only a series without labels is sent with the target alone. -/
theorem alike_nil : Alike label [] ↔ label = [] := by
  constructor
  · intro h
    cases label using List.reverseRecOn with
    | nil => rfl
    | append_singleton label kv =>
      have hn := h (sentName kv.1)
      rw [sentValue_concat, if_pos rfl] at hn
      cases hn
  · rintro rfl
    exact fun _ => rfl

/-! ## One point for each series -/

/-- The name and the labels of a point. -/
def identOf (p : MetricPoint ν) : Str × Labels := (p.name, p.labels)

/-- The name and the labels of the point of a series. -/
def Series.ident (target : Str) (s : Series) : Str × Labels := (s.name, sentLabels target s.labels)

section
variable (num : Numbers ν)

theorem sentLabels_with (target : Str) (label : List (Str × Str)) {k : Str} (v : Str)
    (hk : sentName k = k) :
    (sentLabels target label).set k v = sentLabels target (label ++ [(k, v)]) := by
  rw [sentLabels_concat, hk]

theorem flattenMetric_series (f : SourceFamily ν) (target : Str) (m : SourceMetric ν) :
    (flattenMetric num f target m).map identOf =
      (metricSeries num f m).map (Series.ident target) := by
  have hquantile : sentName "quantile".toList = "quantile".toList := by decide
  have hle : sentName "le".toList = "le".toList := by decide
  unfold flattenMetric metricSeries
  cases f.type with
  | none => rfl
  | some type =>
    cases type with
    | counter => rfl
    | gauge => rfl
    | untyped => rfl
    | summary =>
      simp only [List.map_append, List.map_map, sentLabels_with target m.label _ hquantile]
      rfl
    | histogram =>
      simp only [List.map_append, List.map_map, sentLabels_with target m.label _ hle]
      split <;> rfl

theorem flatten_series (f : SourceFamily ν) (target : Str) :
    (flatten num f target).map identOf =
      (f.metric.flatMap (metricSeries num f)).map (Series.ident target) := by
  rw [flatten, List.map_flatMap, List.map_flatMap]
  exact List.flatMap_congr fun m _ => flattenMetric_series num f target m

def familyPoints (fams : Families ν) (target n : Str) : List (MetricPoint ν) :=
  ((fams.entries.lookup n).map fun f => flatten num f target).getD []

/-- The loop stops where the points of all families would be cut. -/
theorem scrapeNames_eq (fams : Families ν) (target : Str) (names : List Str)
    (pts : List (MetricPoint ν)) (h : pts.length ≤ maxScrapeSeries) :
    scrapeNames num fams target names pts =
      (pts ++ names.flatMap (familyPoints num fams target)).take maxScrapeSeries := by
  induction names generalizing pts with
  | nil =>
    rw [List.flatMap_nil, List.append_nil, List.take_of_length_le h]
    rfl
  | cons n names ih =>
    rw [List.flatMap_cons, ← List.append_assoc]
    simp only [scrapeNames]
    split
    · next hlong => exact (List.take_append_of_le_length (Nat.le_of_lt hlong)).symm
    · next hshort => exact ih _ (Nat.le_of_not_lt hshort)

theorem scrape_series (fams : Families ν) (target : Str) :
    (scrape num fams target).map identOf = (kept num fams).map (Series.ident target) := by
  have hfamily : ∀ n, (familyPoints num fams target n).map identOf =
      (((fams.entries.lookup n).map fun f => f.metric.flatMap (metricSeries num f)).getD []).map
        (Series.ident target) := by
    intro n
    unfold familyPoints
    cases fams.entries.lookup n with
    | none => rfl
    | some f => exact flatten_series num f target
  rw [scrape, scrapeNames_eq num fams target _ [] (Nat.zero_le _), List.nil_append, kept, series,
    List.map_take, List.map_take, List.map_flatMap, List.map_flatMap]
  congr 1
  exact List.flatMap_congr fun n _ => hfamily n

end

/-! ## The points of an endpoint -/

/-- Two points are different series. -/
def Apart (a b : Str × Labels) : Prop := ¬ (a.1 = b.1 ∧ a.2.Same b.2)

def upIdent (target : Str) : Str × Labels :=
  ("scrape_up".toList, Labels.empty.set scrapeTarget target)

theorem upIdent_eq (target : Str) :
    upIdent target = Series.ident target ⟨"scrape_up".toList, []⟩ := rfl

section
variable (num : Numbers ν) (parseURL : Str → Option Str) {e e' : Endpoint ν} {a : Str × Labels}

/-- The series of an endpoint that points are made of. -/
def Endpoint.kept (e : Endpoint ν) : List Series := (e.answer.map (Integrations.kept num)).getD []

def Endpoint.state (e : Endpoint ν) : Str :=
  if e.answer.isSome then "ok".toList else "error".toList

theorem collectEndpoint_idents (e : Endpoint ν) :
    (collectEndpoint num parseURL e).map identOf =
      (e.kept num).map (Series.ident (e.target parseURL)) ++
      [identOf (status num "scrape".toList e.state (e.target parseURL)),
        upIdent (e.target parseURL)] := by
  unfold collectEndpoint Endpoint.kept Endpoint.state
  cases e.answer with
  | none => rfl
  | some =>
    simp only [List.map_append, scrape_series]
    rfl

theorem status_get (state target : Str) :
    (identOf (status num "scrape".toList state target)).2.get scrapeTarget = none ∧
    (identOf (status num "scrape".toList state target)).2.get "instance".toList =
      if target ≠ [] then some target else none := by
  unfold status identOf
  constructor
  · simp only
    split <;> rfl
  · simp only
    split
    · exact (Labels.get_set ..).trans (if_pos rfl)
    · rfl

/-- A point has the target in `scrape_target`, or is a status and has it as its instance. -/
theorem target_of_ident (h : a ∈ (collectEndpoint num parseURL e).map identOf) :
    a.2.get scrapeTarget = some (e.target parseURL) ∨
    (a.2.get scrapeTarget = none ∧ a.2.get "instance".toList =
      if e.target parseURL ≠ [] then some (e.target parseURL) else none) := by
  rw [collectEndpoint_idents] at h
  rcases List.mem_append.mp h with h | h
  · obtain ⟨s, -, rfl⟩ := List.mem_map.mp h
    exact .inl (get_target ..)
  · rcases List.mem_cons.mp h with rfl | h
    · exact .inr (status_get ..)
    · rw [List.mem_singleton.mp h, upIdent_eq]
      exact .inl (get_target ..)

/-- Points of endpoints with different targets are different series. -/
theorem apart_of_targets (ht : e.target parseURL ≠ e'.target parseURL) {b : Str × Labels}
    (ha : a ∈ (collectEndpoint num parseURL e).map identOf)
    (hb : b ∈ (collectEndpoint num parseURL e').map identOf) : Apart a b := by
  rintro ⟨-, hsame⟩
  have htarget := hsame scrapeTarget
  have hinst := hsame "instance".toList
  rcases target_of_ident num parseURL ha with hta | ⟨hta, hia⟩ <;>
    rcases target_of_ident num parseURL hb with htb | ⟨htb, hib⟩ <;> rw [hta, htb] at htarget
  · exact ht (Option.some.inj htarget)
  · cases htarget
  · cases htarget
  · rw [hia, hib] at hinst
    split at hinst <;> split at hinst
    · exact ht (Option.some.inj hinst)
    · cases hinst
    · cases hinst
    · next h h' => exact ht ((not_not.mp h).trans (not_not.mp h').symm)

theorem not_apart_of_target_eq (ht : e.target parseURL = e'.target parseURL) :
    ∃ a ∈ (collectEndpoint num parseURL e).map identOf,
      ∃ b ∈ (collectEndpoint num parseURL e').map identOf, ¬ Apart a b := by
  have hup : ∀ e : Endpoint ν,
      upIdent (e.target parseURL) ∈ (collectEndpoint num parseURL e).map identOf := by
    intro e
    rw [collectEndpoint_idents]
    exact List.mem_append_right _ (List.mem_cons_of_mem _ List.mem_cons_self)
  refine ⟨_, hup e, _, hup e', ?_⟩
  rw [ht]
  exact fun h => h ⟨rfl, fun _ => rfl⟩

theorem apart_series {target : Str} {s s' : Series} : Apart (s.ident target) (s'.ident target) ↔
      ¬ (s.name = s'.name ∧ Alike s.labels s'.labels) := by
  unfold Apart Series.ident
  rw [same_sentLabels]

/-- Within one endpoint only series can be alike, and one of them and `scrape_up`. -/
theorem endpoint_apart_iff (e : Endpoint ν) :
    ((collectEndpoint num parseURL e).map identOf).Pairwise Apart ↔
      ((e.kept num).Pairwise fun s s' => ¬ (s.name = s'.name ∧ Alike s.labels s'.labels)) ∧
      ∀ s ∈ e.kept num, s.name = "scrape_up".toList → s.labels ≠ [] := by
  have hstatus : ∀ s : Series, Apart (s.ident (e.target parseURL))
      (identOf (status num "scrape".toList e.state (e.target parseURL))) := by
    rintro s ⟨-, hsame⟩
    have htarget := hsame scrapeTarget
    rw [(status_get ..).1, show (s.ident _).2.get scrapeTarget = _ from get_target ..] at htarget
    cases htarget
  have hup : ∀ s : Series, Apart (s.ident (e.target parseURL)) (upIdent (e.target parseURL)) ↔
      (s.name = "scrape_up".toList → s.labels ≠ []) := by
    intro s
    rw [upIdent_eq, apart_series, alike_nil, not_and]
  have hlast : Apart (identOf (status num "scrape".toList e.state (e.target parseURL)))
      (upIdent (e.target parseURL)) := by
    rintro ⟨hname, -⟩
    have hnames : "agent_integration_status".toList = "scrape_up".toList := hname
    exact absurd hnames (by decide)
  rw [collectEndpoint_idents, List.pairwise_append, List.pairwise_map]
  simp only [List.pairwise_cons, List.forall_mem_map, List.mem_cons, List.not_mem_nil, or_false,
    forall_eq_or_imp, forall_eq, hstatus, hup, hlast, apart_series, true_and, and_true,
    List.Pairwise.nil, IsEmpty.forall_iff, implies_true]

/-- All points of a pass are different series if those of each endpoint are, and the targets
are different. -/
theorem collect_apart_iff (endpoints : List (Endpoint ν)) :
    ((collect num parseURL endpoints).Pairwise fun p q =>
      ¬ (p.name = q.name ∧ p.labels.Same q.labels)) ↔
    (∀ e ∈ endpoints, ((collectEndpoint num parseURL e).map identOf).Pairwise Apart) ∧
      endpoints.Pairwise fun e e' => e.target parseURL ≠ e'.target parseURL := by
  have hcross : ∀ e e' : Endpoint ν,
      (∀ p ∈ collectEndpoint num parseURL e, ∀ q ∈ collectEndpoint num parseURL e',
        ¬ (p.name = q.name ∧ p.labels.Same q.labels)) ↔
      e.target parseURL ≠ e'.target parseURL := by
    intro e e'
    constructor
    · intro h ht
      obtain ⟨a, ha, b, hb, hnot⟩ := not_apart_of_target_eq num parseURL ht
      obtain ⟨p, hp, rfl⟩ := List.mem_map.mp ha
      obtain ⟨q, hq, rfl⟩ := List.mem_map.mp hb
      exact hnot (h p hp q hq)
    · intro ht p hp q hq
      exact apart_of_targets num parseURL ht (List.mem_map_of_mem hp) (List.mem_map_of_mem hq)
  rw [collect, List.pairwise_flatMap]
  simp only [hcross, List.pairwise_map]
  rfl

/-- The values of a series are among the labels of its point. -/
theorem values_iff (fams : Families ν) (target : Str) :
    (∀ (i : Nat) (s : Series), (kept num fams)[i]? = some s →
      ∃ p : MetricPoint ν, (scrape num fams target)[i]? = some p ∧ p.name = s.name ∧
        ∀ kv ∈ s.labels, ∃ k, p.labels.get k = some kv.2) ↔
    ∀ s ∈ kept num fams, ∀ kv ∈ s.labels, kv.2 = target ∨ ∃ k, LastSent s.labels k kv.2 := by
  have hpoint : ∀ (i : Nat) (s : Series), (kept num fams)[i]? = some s →
      ∃ p : MetricPoint ν, (scrape num fams target)[i]? = some p ∧ identOf p = s.ident target := by
    intro i s hs
    have hi := congrArg (·[i]?) (scrape_series num fams target)
    simp only [List.getElem?_map, hs, Option.map_some] at hi
    exact Option.map_eq_some_iff.mp hi
  constructor
  · intro h s hs kv hkv
    obtain ⟨i, hi⟩ := List.getElem?_of_mem hs
    obtain ⟨p, hp, -, hvalues⟩ := h i s hi
    obtain ⟨q, hq, hident⟩ := hpoint i s hi
    obtain rfl : p = q := Option.some.inj (hp.symm.trans hq)
    have hlabels : p.labels = sentLabels target s.labels := congrArg Prod.snd hident
    rw [← value_sent, ← hlabels]
    exact hvalues kv hkv
  · intro h i s hi
    obtain ⟨p, hp, hident⟩ := hpoint i s hi
    refine ⟨p, hp, congrArg Prod.fst hident, ?_⟩
    intro kv hkv
    have hlabels : p.labels = sentLabels target s.labels := congrArg Prod.snd hident
    rw [hlabels]
    exact value_sent.mpr (h s (List.mem_of_getElem? hi) kv hkv)

end

/-- For any URLs and any families their endpoints return: no two points of a pass have one
name and the same labels, and every label value of a series is among the labels of its
point, exactly if the conditions of `KeepsIdentity` hold. -/
theorem identity_iff (num : Numbers ν) (parseURL : Str → Option Str)
    (endpoints : List (Endpoint ν)) :
    Identity num parseURL endpoints ↔ KeepsIdentity num parseURL endpoints := by
  have hkept : ∀ {e : Endpoint ν} {fams : Families ν}, e.answer = some fams →
      e.kept num = kept num fams := by
    intro e fams h
    rw [Endpoint.kept, h]
    rfl
  constructor
  · intro h
    obtain ⟨hblocks, hhosts⟩ := (collect_apart_iff num parseURL endpoints).mp h.distinct
    refine ⟨hhosts, ?_, ?_, ?_⟩
    · intro e he fams hfams
      rw [← hkept hfams]
      exact ((endpoint_apart_iff num parseURL e).mp (hblocks e he)).1
    · intro e he fams hfams
      rw [← hkept hfams]
      exact ((endpoint_apart_iff num parseURL e).mp (hblocks e he)).2
    · intro e he fams hfams
      exact (values_iff num fams _).mp (h.values e he fams hfams)
  · intro h
    refine ⟨(collect_apart_iff num parseURL endpoints).mpr ⟨?_, h.hosts⟩, ?_⟩
    · intro e he
      rw [endpoint_apart_iff]
      cases hfams : e.answer with
      | none =>
        have hnone : e.kept num = [] := by rw [Endpoint.kept, hfams]; rfl
        rw [hnone]
        exact ⟨List.Pairwise.nil, nofun⟩
      | some fams =>
        rw [hkept hfams]
        exact ⟨h.apart e he fams hfams, h.notUp e he fams hfams⟩
    · intro e he fams hfams
      exact (values_iff num fams _).mpr (h.values e he fams hfams)

/-- The host of `scheme://host/path`. -/
def plainHost (u : Str) : Option Str :=
  (cut "://".toList u).map fun p => p.2.takeWhile (· != '/')

/-- Numbers that are not looked at. -/
def noNumbers : Numbers Unit := ⟨(), (), fun _ => (), fun _ => [], fun _ => false⟩

/-- A gauge `x` with one series, which has the label `source` and the label under which
`source` is sent. -/
def twinFamilies : Families Unit where
  entries := [("x".toList,
    { name := "x".toList, help := [], type := some .gauge
      metric := [{
        label := [("source".toList, "a".toList), ("exported_source".toList, "b".toList)]
        counter := (), gauge := (), untyped := (), summary := ⟨[], (), 0⟩
        histogram := ⟨[], (), 0⟩ }] })]
  nodup := List.nodup_singleton _

/-- Two URLs of one host give `scrape_up` twice; the value of `source` is lost where
`exported_source` is there as well. -/
theorem identity_lost :
    ¬ Identity noNumbers plainHost
      [⟨"http://localhost:9100/metrics".toList, none⟩,
        ⟨"http://localhost:9100/probe".toList, none⟩] ∧
    ¬ Identity noNumbers plainHost
      [⟨"http://localhost:9100/metrics".toList, some twinFamilies⟩] := by
  constructor
  · intro h
    have hhosts := ((collect_apart_iff noNumbers plainHost _).mp h.distinct).2
    exact absurd (List.rel_of_pairwise_cons hhosts List.mem_cons_self) (by decide)
  · intro h
    have hvalues := (values_iff noNumbers twinFamilies _).mp
      (h.values _ List.mem_cons_self twinFamilies rfl)
    have hvalue := hvalues
      ⟨"x".toList, [("source".toList, "a".toList), ("exported_source".toList, "b".toList)]⟩
      (by decide) ("source".toList, "a".toList) List.mem_cons_self
    rcases hvalue with htarget | ⟨k, before, rest, hsplit, hrest⟩
    · exact absurd htarget (by decide)
    · cases before with
      | nil =>
        cases hsplit
        exact hrest _ List.mem_cons_self (by decide)
      | cons kv before =>
        obtain ⟨-, hsplit⟩ := List.cons.inj hsplit
        cases before with
        | nil => cases hsplit
        | cons kv' before => cases before <;> cases hsplit

end YominsAgent.Integrations
