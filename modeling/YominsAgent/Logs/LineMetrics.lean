import YominsAgent.Logs.Encode
import YominsAgent.Logs.Parsers

/- The metrics of the lines that go through the pipeline (`internal/logs/httpmetrics.go`):
   lines by source and level, and for access logs requests by vhost and class of status,
   bytes and response times by vhost.

   The limit on vhosts is tested on one of three maps. The other two never have a vhost
   this one has not, and all together have at most one more than the limit, which is
   `other`; the lines and the requests are counted completely (`lineMetrics_bounded`).

   Correspondence (Go ↔ Lean):
     `strconv.ParseFloat`, `+` and `<=` on `float64` ↔ `Floats`
   What is only counted up is a natural number: a `float64` counts exactly up to `2^53`. -/
namespace YominsAgent.Logs
open Go Lib List

def ascii (s : String) : Bytes := toBytes s.toList

/-- The arithmetic of `float64`, as far as it is used. -/
structure Floats (ν : Type) where
  zero : ν
  add : ν → ν → ν
  atMost : ν → ℚ → Bool
  /-- the number, and whether there is no error -/
  parse : Bytes → ν × Bool

structure Histogram (ν : Type) where
  counts : List Nat
  sum : ν
  n : Nat

structure LineMetrics (ν : Type) where
  /-- by source and level -/
  lines : Map (Bytes × Bytes) Nat := ∅
  /-- by vhost and class of status -/
  requests : Map (Bytes × Bytes) Nat := ∅
  bytes : Map Bytes ν := ∅
  hist : Map Bytes (Histogram ν) := ∅

def maxVhosts : Nat := 50

def durationBuckets : List ℚ := [1/20, 1/10, 1/4, 1/2, 1, 5/2, 5, 10]

/-! ## The vhost of a file -/

def vhostSuffixes : List Bytes :=
  [".access.log", "-access.log", "_access.log", ".analytics.log", ".log"].map ascii

/-- `metro.dp.ua.access.log` is the log of `metro.dp.ua`. -/
def vhostFromFile (path : Bytes) : Bytes :=
  let name := baseOf 0x2F 0x2E path
  let name := match vhostSuffixes.find? (·.isSuffixOf name) with
    | some suf => name.take (name.length - suf.length)
    | none => name
  let name := if (ascii "prom_").isPrefixOf name then name.drop 5 else name
  if name = [] ∨ name = ascii "access" ∨ name = ascii "other_vhosts_access" then ascii "default"
  else name

/-! ## One line -/

/-- `e.Fields[k]` -/
def LogEntry.field (e : LogEntry) (k : String) : Bytes := (e.fields.lookup (ascii k)).getD []

/-- The level under which the line is counted. -/
def LogEntry.levelLabel (e : LogEntry) : Bytes := if e.level = [] then ascii "none" else e.level

def LogEntry.isRequest (e : LogEntry) : Bool :=
  (e.source == ascii "nginx" || e.source == ascii "apache") && (e.field "status").length == 3

def LogEntry.vhost (e : LogEntry) : Bytes :=
  if e.field "vhost" = [] then vhostFromFile e.path else e.field "vhost"

def LogEntry.statusClass (e : LogEntry) : Bytes := (e.field "status").take 1 ++ ascii "xx"

variable {ν : Type}

section
variable (fl : Floats ν)

/-- A response time goes into every bucket whose bound it does not exceed. -/
def Histogram.observe (h : Histogram ν) (d : ν) : Histogram ν :=
  { counts := List.zipWith (fun c ub => if fl.atMost d ub then c + 1 else c) h.counts
      durationBuckets
    sum := fl.add h.sum d
    n := h.n + 1 }

def newHistogram : Histogram ν :=
  { counts := List.replicate durationBuckets.length 0, sum := fl.zero, n := 0 }

namespace LineMetrics

/-- The vhost under which the request is counted: a new one beyond the limit is not named. -/
def vhostFor (m : LineMetrics ν) (e : LogEntry) : Bytes :=
  if e.vhost ∉ m.bytes ∧ maxVhosts ≤ m.bytes.len then ascii "other" else e.vhost

def addBytes (m : LineMetrics ν) (vhost : Bytes) (e : LogEntry) : Map Bytes ν :=
  m.bytes.insert vhost
    (fl.add ((m.bytes.lookup vhost).getD fl.zero) (fl.parse (e.field "bytes")).1)

def addTime (m : LineMetrics ν) (vhost : Bytes) (e : LogEntry) : Map Bytes (Histogram ν) :=
  match fl.parse (e.field "request_time") with
  | (d, true) =>
    m.hist.insert vhost (((m.hist.lookup vhost).getD (newHistogram fl)).observe fl d)
  | (_, false) => m.hist

def observe (m : LineMetrics ν) (e : LogEntry) : LineMetrics ν :=
  let lines := m.lines.inc (e.source, e.levelLabel)
  if e.isRequest then
    { lines
      requests := m.requests.inc (m.vhostFor e, e.statusClass)
      bytes := m.addBytes fl (m.vhostFor e) e
      hist := m.addTime fl (m.vhostFor e) e }
  else { m with lines }

def after (es : List LogEntry) : LineMetrics ν := es.foldl (observe fl) {}

def requestVhosts (m : LineMetrics ν) : Finset Bytes := m.requests.keys.image Prod.fst

end LineMetrics

end

/-! ## Entries of the parsers -/

def Level.text : Level → Bytes
  | .error => ascii "error"
  | .warn => ascii "warn"
  | .info => ascii "info"
  | .debug => ascii "debug"

def levelText (l : Option Level) : Bytes := (l.map Level.text).getD []

/-- The entry has its level from a parser: that of a file, or of a record of the journal.
Everything else in it may be anything. -/
inductive Produced (e : LogEntry) : Prop where
  | file (env : ParseEnv) (name path : Str) (line : Bytes)
      (h : e.level = levelText (parserForFile env name path line).level)
  | journal (line : Bytes) (je : JournalEntry) (hj : parseJournalJSON line = some je)
      (h : e.level = levelText je.parsed.level)

def levelLabels : Finset Bytes :=
  {ascii "none", ascii "error", ascii "warn", ascii "info", ascii "debug"}

theorem levelLabel_mem {e : LogEntry} (h : Produced e) : e.levelLabel ∈ levelLabels := by
  have hlevel : ∃ l, e.level = levelText l := by
    cases h with
    | file _ _ _ _ h | journal _ _ _ h => exact ⟨_, h⟩
  obtain ⟨l, hl⟩ := hlevel
  unfold LogEntry.levelLabel
  rw [hl]
  cases l with
  | none => decide
  | some l => cases l <;> decide

/-! ## Invariants -/

namespace LineMetrics
variable {fl : Floats ν} {m : LineMetrics ν} {e : LogEntry}

/-- The vhosts of all maps are among those with bytes, and those beside `other` keep within
the limit. -/
structure Bounded (m : LineMetrics ν) : Prop where
  requests : ∀ k ∈ m.requests, k.1 ∈ m.bytes
  hist : ∀ v ∈ m.hist, v ∈ m.bytes
  named : (m.bytes.keys.erase (ascii "other")).card ≤ maxVhosts

theorem bounded_init : Bounded ({} : LineMetrics ν) :=
  ⟨fun _ hk => absurd hk Finmap.notMem_empty, fun _ hv => absurd hv Finmap.notMem_empty, by simp⟩

theorem keys_addBytes (v : Bytes) : (m.addBytes fl v e).keys = insert v m.bytes.keys :=
  Map.keys_insert ..

/-- A vhost that is new is counted only while there is room for it. -/
theorem named_vhostFor (h : (m.bytes.keys.erase (ascii "other")).card ≤ maxVhosts) :
    ((insert (m.vhostFor e) m.bytes.keys).erase (ascii "other")).card ≤ maxVhosts := by
  unfold vhostFor
  split
  · rwa [Finset.erase_insert_eq_erase]
  · next hroom =>
    by_cases hknown : e.vhost ∈ m.bytes
    · rwa [Finset.insert_eq_of_mem (Finmap.mem_keys.mpr hknown)]
    · have hlt : m.bytes.keys.card < maxVhosts := by
        by_contra hge
        exact hroom ⟨hknown, Nat.le_of_not_lt hge⟩
      calc ((insert e.vhost m.bytes.keys).erase (ascii "other")).card
          ≤ (insert e.vhost m.bytes.keys).card := Finset.card_erase_le
        _ ≤ m.bytes.keys.card + 1 := Finset.card_insert_le _ _
        _ ≤ maxVhosts := hlt

theorem Bounded.observe (h : Bounded m) (fl : Floats ν) (e : LogEntry) :
    Bounded (m.observe fl e) := by
  unfold LineMetrics.observe
  split
  · have hmem : ∀ v, v ∈ m.addBytes fl (m.vhostFor e) e ↔ v = m.vhostFor e ∨ v ∈ m.bytes :=
      fun v => Finmap.mem_insert
    refine ⟨?_, ?_, ?_⟩
    · intro k hk
      rw [hmem]
      rcases Finmap.mem_insert.mp hk with hk | hk
      · exact .inl (congrArg Prod.fst hk)
      · exact .inr (h.requests k hk)
    · intro v hv
      rw [hmem]
      simp only [addTime] at hv
      split at hv
      · rcases Finmap.mem_insert.mp hv with hv | hv
        · exact .inl hv
        · exact .inr (h.hist v hv)
      · exact .inr (h.hist v hv)
    · rw [keys_addBytes]
      exact named_vhostFor h.named
  · exact ⟨h.requests, h.hist, h.named⟩

/-- What the counters have counted of the lines so far. -/
structure Counts (m : LineMetrics ν) (es : List LogEntry) : Prop where
  lines : m.lines.total = es.length
  requests : m.requests.total = es.countP LogEntry.isRequest

theorem Counts.observe {es : List LogEntry} (h : Counts m es) (fl : Floats ν) (e : LogEntry) :
    Counts (m.observe fl e) (es ++ [e]) := by
  unfold LineMetrics.observe
  split
  · next he =>
    exact ⟨by rw [Map.total_inc, h.lines, length_append, length_singleton],
      by rw [Map.total_inc, h.requests, countP_append, countP_singleton, if_pos he]⟩
  · next he =>
    exact ⟨by rw [Map.total_inc, h.lines, length_append, length_singleton],
      by rw [h.requests, countP_append, countP_singleton, if_neg he, Nat.add_zero]⟩

theorem lines_observe (fl : Floats ν) (e : LogEntry) :
    (m.observe fl e).lines = m.lines.inc (e.source, e.levelLabel) := by
  unfold LineMetrics.observe
  split <;> rfl

theorem level_observe (fl : Floats ν) (e : LogEntry) {k : Bytes × Bytes}
    (hk : k ∈ (m.observe fl e).lines) : k.2 = e.levelLabel ∨ k ∈ m.lines := by
  rw [lines_observe] at hk
  rcases Finmap.mem_insert.mp hk with hk | hk
  · exact .inl (congrArg Prod.snd hk)
  · exact .inr hk

theorem after_concat (fl : Floats ν) (es : List LogEntry) (e : LogEntry) :
    after fl (es ++ [e]) = (after fl es).observe fl e := by
  rw [after, foldl_append]
  rfl

theorem bounded_after (fl : Floats ν) (es : List LogEntry) : Bounded (after fl es) := by
  induction es using reverseRecOn with
  | nil => exact bounded_init
  | append_singleton es e ih =>
    rw [after_concat]
    exact ih.observe fl e

theorem counts_after (fl : Floats ν) (es : List LogEntry) : Counts (after fl es) es := by
  induction es using reverseRecOn with
  | nil => exact ⟨rfl, rfl⟩
  | append_singleton es e ih =>
    rw [after_concat]
    exact ih.observe fl e

theorem levels_after (fl : Floats ν) {es : List LogEntry} (h : ∀ e ∈ es, Produced e) :
    (after fl es).lines.keys.image Prod.snd ⊆ levelLabels := by
  suffices hmem : ∀ k ∈ (after fl es).lines, k.2 ∈ levelLabels by
    intro l hl
    obtain ⟨k, hk, rfl⟩ := Finset.mem_image.mp hl
    exact hmem k (Finmap.mem_keys.mp hk)
  induction es using reverseRecOn with
  | nil => exact fun k hk => absurd hk Finmap.notMem_empty
  | append_singleton es e ih =>
    intro k hk
    rw [after_concat] at hk
    rcases level_observe fl e hk with hk | hk
    · rw [hk]
      exact levelLabel_mem (h e (mem_append_right es mem_cons_self))
    · exact ih (fun e' he' => h e' (mem_append_left _ he')) k hk

end LineMetrics

/-- For every sequence of entries whose levels come from the parsers, and any arithmetic of
bytes and times: the vhosts of the three maps together are at most `maxVhosts` and one, the
requests and histograms have none the bytes have not, the level label takes one of five
values, the line counts sum to the number of entries and the request counts to the number
of nginx and apache entries with a status of three bytes. -/
theorem lineMetrics_bounded (fl : Floats ν) (es : List LogEntry) (h : ∀ e ∈ es, Produced e) :
    let m := LineMetrics.after fl es
    (m.requestVhosts ∪ m.bytes.keys ∪ m.hist.keys).card ≤ maxVhosts + 1 ∧
    m.requestVhosts ∪ m.hist.keys ⊆ m.bytes.keys ∧
    (m.lines.keys.image Prod.snd).card ≤ 5 ∧
    m.lines.total = es.length ∧
    m.requests.total = es.countP fun e =>
      (e.source == ascii "nginx" || e.source == ascii "apache") &&
        (e.field "status").length == 3 := by
  intro m
  have hb : m.Bounded := LineMetrics.bounded_after fl es
  have hreq : m.requestVhosts ⊆ m.bytes.keys := by
    intro v hv
    obtain ⟨k, hk, rfl⟩ := Finset.mem_image.mp hv
    exact Finmap.mem_keys.mpr (hb.requests k (Finmap.mem_keys.mp hk))
  have hhist : m.hist.keys ⊆ m.bytes.keys := by
    intro v hv
    exact Finmap.mem_keys.mpr (hb.hist v (Finmap.mem_keys.mp hv))
  have hbytes : m.bytes.keys.card ≤ maxVhosts + 1 := by
    have hpred : m.bytes.keys.card - 1 ≤ (m.bytes.keys.erase (ascii "other")).card :=
      Finset.pred_card_le_card_erase
    have hnamed := hb.named
    omega
  refine ⟨?_, Finset.union_subset hreq hhist, ?_, (LineMetrics.counts_after fl es).lines,
    (LineMetrics.counts_after fl es).requests⟩
  · rw [Finset.union_eq_right.mpr hreq, Finset.union_eq_left.mpr hhist]
    exact hbytes
  · exact (Finset.card_le_card (LineMetrics.levels_after fl h)).trans (by decide)

/-- A request to the host that nginx answered with an error. -/
def errorLine (host : String) : LogEntry :=
  { time := 0, source := ascii "nginx", path := [], unit := [], level := ascii "error"
    msg := ascii "error"
    fields := ((∅ : Map Bytes Bytes).insert (ascii "status") (ascii "502")).insert
      (ascii "vhost") (ascii host) }

def errorLines : List LogEntry := [errorLine "a", errorLine "b", errorLine "a"]

/-- Numbers of which nothing is kept. -/
def noFloats : Floats Unit := ⟨(), fun _ _ => (), fun _ _ => true, fun _ => ((), true)⟩

theorem error_line_counted :
    let m := LineMetrics.after noFloats errorLines
    (m.requestVhosts ∪ m.bytes.keys ∪ m.hist.keys).card ≤ maxVhosts + 1 ∧
    m.requestVhosts ∪ m.hist.keys ⊆ m.bytes.keys ∧ (m.lines.keys.image Prod.snd).card ≤ 5 ∧
    m.lines.total = 3 ∧ m.requests.total = 3 ∧ m.requestVhosts = {ascii "a", ascii "b"} := by
  have hlevel : ∀ host, Produced (errorLine host) := fun _ =>
    .file ⟨0, fun _ => none, fun _ => none, fun _ _ => none, fun _ => none, fun _ => none,
      someRange⟩ [] [] (ascii "error") rfl
  obtain ⟨hcard, hsub, hlevels, hlines, hreq⟩ :=
    lineMetrics_bounded noFloats errorLines (by simp [errorLines, hlevel])
  exact ⟨hcard, hsub, hlevels, hlines, hreq.trans (by decide +kernel), by decide +kernel⟩

end YominsAgent.Logs
