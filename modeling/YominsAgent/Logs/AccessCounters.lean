import YominsAgent.Logs.LineMetrics

/- The counters and histograms of the access logs (`internal/logs/httpmetrics.go`) in exact
   arithmetic.

   A bucket holds the number of response times up to its bound. The bytes and the sum of
   the times are published as counters, and go down when a log has a negative number
   (`bytes_go_down`), which `strconv.ParseFloat` takes from JSON access logs like any other.
   No published counter is ever lower than before exactly if every request of a vhost that
   is known has no negative number (`access_counters_iff`).

   Correspondence (Go ↔ Lean):
     the texts `strconv.ParseFloat` reads as finite decimal numbers ↔ `decimal`
     `points`                                                       ↔ `Series`, `published` -/
namespace YominsAgent.Logs
open Go Lib List Option

/-! ## Decimal numbers -/

/-- Nothing, or an exponent. -/
def isExponent : Str → Bool
  | [] => true
  | c :: s =>
    let digits := match s with
      | '+' :: t | '-' :: t => t
      | t => t
    (c == 'e' || c == 'E') && !digits.isEmpty && digits.all Char.isDigit

/-- Digits with at most one point among or around them, and an exponent. -/
def isUnsignedDecimal (s : Str) : Bool :=
  let whole := s.takeWhile Char.isDigit
  let rest := s.dropWhile Char.isDigit
  match rest with
  | '.' :: t =>
    !(whole ++ t.takeWhile Char.isDigit).isEmpty && isExponent (t.dropWhile Char.isDigit)
  | t => !whole.isEmpty && isExponent t

/-- The value of a finite decimal number. -/
def decimal (b : Bytes) : Option ℚ :=
  match toText b with
  | '-' :: s => if isUnsignedDecimal s then some (-literalAbs s) else none
  | '+' :: s => if isUnsignedDecimal s then some (literalAbs s) else none
  | s => if isUnsignedDecimal s then some (literalAbs s) else none

/-- `strconv.ParseFloat` with exact numbers, on the texts it is asked about here: what is
absent is an error, a decimal number is its value. -/
structure Exact (parse : Bytes → ℚ × Bool) : Prop where
  absent : parse [] = (0, false)
  value : ∀ b q, decimal b = some q → parse b = (q, true)

def exactFloats (parse : Bytes → ℚ × Bool) : Floats ℚ where
  zero := 0
  add := (· + ·)
  atMost d ub := d ≤ ub
  parse := parse

namespace LogEntry

/-- The numbers of the entry are absent or finite decimals. -/
def Readable (e : LogEntry) : Prop :=
  ∀ k ∈ ["bytes", "request_time"], e.field k = [] ∨ (decimal (e.field k)).isSome = true

instance : DecidablePred Readable := fun e =>
  inferInstanceAs (Decidable (∀ k ∈ ["bytes", "request_time"],
    e.field k = [] ∨ (decimal (e.field k)).isSome = true))

def sentBytes (e : LogEntry) : ℚ := (decimal (e.field "bytes")).getD 0

def time? (e : LogEntry) : Option ℚ := decimal (e.field "request_time")

variable {e : LogEntry} {parse : Bytes → ℚ × Bool}

theorem parse_field (hp : Exact parse) (he : e.Readable) {k : String}
    (hk : k ∈ ["bytes", "request_time"]) :
    parse (e.field k) = match decimal (e.field k) with
      | some q => (q, true)
      | none => (0, false) := by
  rcases he k hk with habsent | hsome
  · rw [habsent]
    exact hp.absent
  · obtain ⟨q, hq⟩ := isSome_iff_exists.mp hsome
    rw [hq]
    exact hp.value _ q hq

theorem parse_bytes (hp : Exact parse) (he : e.Readable) :
    (parse (e.field "bytes")).1 = e.sentBytes := by
  rw [parse_field hp he (by decide), sentBytes]
  cases decimal (e.field "bytes") <;> rfl

end LogEntry

/-! ## The requests of a vhost -/

section
variable {ν : Type} (fl : Floats ν)

/-- The requests among some lines, each with the vhost under which it is counted. -/
def served : LineMetrics ν → List LogEntry → List (Bytes × LogEntry)
  | _, [] => []
  | m, e :: es => (if e.isRequest then [(m.vhostFor e, e)] else []) ++ served (m.observe fl e) es

theorem served_concat (m : LineMetrics ν) (es : List LogEntry) (e : LogEntry) :
    served fl m (es ++ [e]) = served fl m es ++
      if e.isRequest then [((es.foldl (LineMetrics.observe fl) m).vhostFor e, e)] else [] := by
  induction es generalizing m with
  | nil => simp [served]
  | cons e' es ih => simp [served, ih]

end

def timesOf (v : Bytes) (l : List (Bytes × LogEntry)) : List ℚ :=
  l.filterMap fun r => if r.1 = v then r.2.time? else none

theorem timesOf_append (v : Bytes) (l l' : List (Bytes × LogEntry)) :
    timesOf v (l ++ l') = timesOf v l ++ timesOf v l' := filterMap_append ..

def histogramOf (ts : List ℚ) : Histogram ℚ :=
  { counts := durationBuckets.map fun u => ts.countP (· ≤ u), sum := ts.sum, n := ts.length }

variable {parse : Bytes → ℚ × Bool} {es : List LogEntry}

theorem observe_histogramOf (ts : List ℚ) (d : ℚ) :
    (histogramOf ts).observe (exactFloats parse) d = histogramOf (ts ++ [d]) := by
  simp only [Histogram.observe, histogramOf, exactFloats, zipWith_map_left, sum_append,
    sum_singleton, length_append, length_singleton, countP_append,
    countP_singleton, Histogram.mk.injEq, and_true]
  rw [zipWith_self]
  apply map_congr_left
  intro u _
  by_cases hd : d ≤ u <;> simp [hd]

namespace LineMetrics
variable {m : LineMetrics ℚ} {e : LogEntry}

/-- Each histogram is that of the response times of its vhost. -/
def Measured (m : LineMetrics ℚ) (l : List (Bytes × LogEntry)) : Prop :=
  ∀ v, m.hist.lookup v = if timesOf v l = [] then none else some (histogramOf (timesOf v l))

theorem lookup_addTime (hp : Exact parse) (he : e.Readable) (v w : Bytes) :
    (m.addTime (exactFloats parse) v e).lookup w =
      match e.time? with
      | some d => if w = v then
          some (((m.hist.lookup v).getD (newHistogram (exactFloats parse))).observe
            (exactFloats parse) d)
        else m.hist.lookup w
      | none => m.hist.lookup w := by
  have hparse := LogEntry.parse_field (k := "request_time") hp he (by decide)
  unfold addTime LogEntry.time?
  simp only [exactFloats, hparse]
  cases decimal (e.field "request_time") with
  | none => rfl
  | some =>
    simp only
    split
    · next h => rw [h, Finmap.lookup_insert]
    · next h => rw [Finmap.lookup_insert_of_ne _ h]

theorem Measured.observe {l : List (Bytes × LogEntry)} (h : Measured m l) (hp : Exact parse)
    (he : e.Readable) :
    Measured (m.observe (exactFloats parse) e)
      (l ++ if e.isRequest then [(m.vhostFor e, e)] else []) := by
  intro v
  unfold LineMetrics.observe
  split
  · simp only [lookup_addTime hp he, timesOf_append]
    have hone : timesOf v [(m.vhostFor e, e)] =
        if m.vhostFor e = v then e.time?.toList else [] := by
      by_cases hv : m.vhostFor e = v
      · cases ht : e.time? <;> simp [timesOf, hv, ht]
      · simp [timesOf, hv]
    rw [hone]
    cases ht : e.time? with
    | none => simpa using h v
    | some =>
      by_cases hv : m.vhostFor e = v
      · subst hv
        have hold : (m.hist.lookup (m.vhostFor e)).getD (newHistogram (exactFloats parse)) =
            histogramOf (timesOf (m.vhostFor e) l) := by
          rw [h (m.vhostFor e)]
          split
          · next hnil => rw [hnil]; rfl
          · rfl
        simp only [if_true, hold, observe_histogramOf]
        simp
      · simp only [if_neg hv, if_neg (Ne.symm hv), append_nil]
        exact h v
  · simpa using h v

theorem measured_after (hp : Exact parse) (hes : ∀ e ∈ es, e.Readable) :
    Measured (after (exactFloats parse) es) (served (exactFloats parse) {} es) := by
  induction es using reverseRecOn with
  | nil => exact fun v => rfl
  | append_singleton es e ih =>
    rw [after_concat, served_concat]
    exact (ih fun e' he' => hes e' (mem_append_left _ he')).observe hp
      (hes e (mem_append_right es mem_cons_self))

end LineMetrics

/-! ## What is published -/

/-- A series that `points` may publish, by its name and labels. -/
inductive Series where
  | lines (source level : Bytes)
  | requests (vhost statusClass : Bytes)
  | bytes (vhost : Bytes)
  /-- the bucket of a bound of `durationBuckets` -/
  | bucket (vhost : Bytes) (i : Nat)
  | infBucket (vhost : Bytes)
  | sum (vhost : Bytes)
  | count (vhost : Bytes)

namespace LineMetrics

/-- The histograms go out with the bytes of their vhost. -/
def publishedHist (m : LineMetrics ℚ) (v : Bytes) : Option (Histogram ℚ) :=
  if v ∈ m.bytes then m.hist.lookup v else none

/-- The value of a series, if there is a point for it. -/
def published (m : LineMetrics ℚ) : Series → Option ℚ
  | .lines source level => (m.lines.lookup (source, level)).map Nat.cast
  | .requests v c => (m.requests.lookup (v, c)).map Nat.cast
  | .bytes v => m.bytes.lookup v
  | .bucket v i => (m.publishedHist v).bind fun h => h.counts[i]?.map Nat.cast
  | .infBucket v | .count v => (m.publishedHist v).map fun h => h.n
  | .sum v => (m.publishedHist v).map Histogram.sum

/-- Every counter that was published is published, and is not lower. -/
def NotLowered (m m' : LineMetrics ℚ) : Prop :=
  ∀ s x, m.published s = some x → ∃ y, m'.published s = some y ∧ x ≤ y

theorem NotLowered.refl (m : LineMetrics ℚ) : NotLowered m m := fun _ x h => ⟨x, h, le_refl x⟩

theorem NotLowered.trans {m1 m2 m3 : LineMetrics ℚ} (h : NotLowered m1 m2)
    (h' : NotLowered m2 m3) : NotLowered m1 m3 := by
  intro s x hx
  obtain ⟨y, hy, hxy⟩ := h s x hx
  obtain ⟨z, hz, hyz⟩ := h' s y hy
  exact ⟨z, hz, hxy.trans hyz⟩

/-- The entry takes nothing from a counter its vhost has. -/
def Raises (m : LineMetrics ℚ) (e : LogEntry) : Prop :=
  e.isRequest = true →
    (m.vhostFor e ∈ m.bytes → 0 ≤ e.sentBytes) ∧
    (m.vhostFor e ∈ m.hist → ∀ d, e.time? = some d → 0 ≤ d)

variable {m : LineMetrics ℚ} {e : LogEntry} {x : ℚ} {h : Histogram ℚ} {w : Bytes}

theorem notLowered_inc {κ : Type} [DecidableEq κ] (c : Map κ Nat) (k j : κ)
    (hx : (c.lookup j).map Nat.cast = some x) :
    ∃ y : ℚ, ((c.inc k).lookup j).map Nat.cast = some y ∧ x ≤ y := by
  obtain ⟨n, hn, rfl⟩ := map_eq_some_iff.mp hx
  by_cases hj : j = k
  · subst hj
    refine ⟨(n + 1 : Nat), ?_, Nat.cast_le.mpr (Nat.le_succ n)⟩
    rw [Map.inc, Finmap.lookup_insert, hn]
    rfl
  · refine ⟨n, ?_, le_refl _⟩
    rw [Map.inc, Finmap.lookup_insert_of_ne _ hj, hn]
    rfl

theorem Histogram.observe_counts (hlen : h.counts.length = durationBuckets.length) (d : ℚ)
    {i c : Nat} (hc : h.counts[i]? = some c) :
    ∃ c', (h.observe (exactFloats parse) d).counts[i]? = some c' ∧ c ≤ c' := by
  have hi : i < durationBuckets.length := by
    rw [← hlen]
    exact (List.getElem?_eq_some_iff.mp hc).1
  simp only [Histogram.observe, List.getElem?_zipWith, hc, List.getElem?_eq_getElem hi]
  refine ⟨_, rfl, ?_⟩
  split <;> omega

theorem lookup_addBytes (hp : Exact parse) (he : e.Readable) (v w : Bytes) :
    (m.addBytes (exactFloats parse) v e).lookup w =
      if w = v then some ((m.bytes.lookup v).getD 0 + e.sentBytes) else m.bytes.lookup w := by
  have hparse := LogEntry.parse_bytes hp he
  unfold addBytes
  simp only [exactFloats, hparse]
  split
  · next h => rw [h, Finmap.lookup_insert]
  · next h => rw [Finmap.lookup_insert_of_ne _ h]

theorem bytes_observe (hp : Exact parse) (he : e.Readable) (hreq : e.isRequest = true)
    (hx : m.bytes.lookup w = some x) :
    (m.observe (exactFloats parse) e).bytes.lookup w =
      some (if w = m.vhostFor e then x + e.sentBytes else x) := by
  rw [LineMetrics.observe, if_pos hreq]
  simp only [lookup_addBytes hp he]
  by_cases hw : w = m.vhostFor e
  · subst hw
    simp [hx]
  · simp [hw, hx]

/-- A histogram that goes out still does, as it was or with the time of the request. -/
theorem publishedHist_observe (hp : Exact parse) (he : e.Readable) (hreq : e.isRequest = true)
    (hh : m.publishedHist w = some h) :
    (m.observe (exactFloats parse) e).publishedHist w =
      some (match e.time? with
        | some d => if w = m.vhostFor e then h.observe (exactFloats parse) d else h
        | none => h) := by
  unfold publishedHist at hh
  split at hh
  · next hw =>
    have hmem : w ∈ (m.observe (exactFloats parse) e).bytes := by
      obtain ⟨x, hx⟩ := Finmap.mem_iff.mp hw
      exact Finmap.mem_iff.mpr ⟨_, bytes_observe hp he hreq hx⟩
    rw [publishedHist, if_pos hmem, LineMetrics.observe, if_pos hreq]
    simp only [lookup_addTime hp he]
    cases e.time? with
    | none => exact hh
    | some =>
      by_cases hv : w = m.vhostFor e
      · subst hv
        simp [hh]
      · simp [hv, hh]
  · cases hh

/-- A line that is no request changes the counts of the lines only. -/
theorem published_observe_other (hreq : ¬ e.isRequest = true) {s : Series}
    (hs : ∀ source level, s ≠ .lines source level) :
    (m.observe (exactFloats parse) e).published s = m.published s := by
  rw [LineMetrics.observe, if_neg hreq]
  cases s with
  | lines source level => exact absurd rfl (hs source level)
  | _ => rfl

theorem raises_of_notLowered (hp : Exact parse) (he : e.Readable) (hb : m.Bounded)
    (h : NotLowered m (m.observe (exactFloats parse) e)) : m.Raises e := by
  intro hreq
  constructor
  · intro hv
    obtain ⟨x, hx⟩ := Finmap.mem_iff.mp hv
    obtain ⟨y, hy, hle⟩ := h (.bytes (m.vhostFor e)) x hx
    have hnew := bytes_observe hp he hreq hx
    rw [if_pos rfl] at hnew
    obtain rfl : x + e.sentBytes = y := some.inj (hnew.symm.trans hy)
    exact le_add_iff_nonneg_right x |>.mp hle
  · intro hv d hd
    obtain ⟨hist, hh⟩ := Finmap.mem_iff.mp hv
    have hpub : m.publishedHist (m.vhostFor e) = some hist := by
      rw [publishedHist, if_pos (hb.hist _ hv), hh]
    have hnew := publishedHist_observe hp he hreq hpub
    rw [hd] at hnew
    simp only [if_true] at hnew
    obtain ⟨y, hy, hle⟩ := h (.sum (m.vhostFor e)) hist.sum (by rw [published, hpub]; rfl)
    rw [published, hnew] at hy
    obtain rfl : hist.sum + d = y := some.inj hy
    exact le_add_iff_nonneg_right _ |>.mp hle

/-- A histogram only grows by a time that is not negative. -/
theorem histogram_notLowered (hp : Exact parse) (he : e.Readable) (hreq : e.isRequest = true)
    (hr : m.Raises e)
    (hlen : ∀ v h, m.hist.lookup v = some h → h.counts.length = durationBuckets.length)
    (hh : m.publishedHist w = some h) :
    ∃ h', (m.observe (exactFloats parse) e).publishedHist w = some h' ∧ h.sum ≤ h'.sum ∧
      h.n ≤ h'.n ∧ ∀ i c : Nat, h.counts[i]? = some c → ∃ c', h'.counts[i]? = some c' ∧ c ≤ c' := by
  have hlook : m.hist.lookup w = some h := by
    unfold publishedHist at hh
    split at hh
    · exact hh
    · cases hh
  refine ⟨_, publishedHist_observe hp he hreq hh, ?_⟩
  cases ht : e.time? with
  | none => exact ⟨le_refl _, le_refl _, fun i c hc => ⟨c, hc, le_refl c⟩⟩
  | some d =>
    by_cases hw : w = m.vhostFor e
    · have hd : 0 ≤ d := by
        refine (hr hreq).2 ?_ d ht
        rw [← hw]
        exact Finmap.mem_iff.mpr ⟨h, hlook⟩
      simp only [if_pos hw]
      exact ⟨le_add_of_nonneg_right hd, Nat.le_succ _,
        fun i c hc => Histogram.observe_counts (hlen w h hlook) d hc⟩
    · simp only [if_neg hw]
      exact ⟨le_refl _, le_refl _, fun i c hc => ⟨c, hc, le_refl c⟩⟩

theorem notLowered_of_raises (hp : Exact parse) (he : e.Readable) (hr : m.Raises e)
    (hlen : ∀ v h, m.hist.lookup v = some h → h.counts.length = durationBuckets.length) :
    NotLowered m (m.observe (exactFloats parse) e) := by
  intro s x hx
  by_cases hs : ∃ source level, s = .lines source level
  · obtain ⟨source, level, rfl⟩ := hs
    rw [published, lines_observe]
    exact notLowered_inc m.lines _ _ hx
  · by_cases hreq : e.isRequest = true
    · have hgrown := fun w h => histogram_notLowered (w := w) (h := h) hp he hreq hr hlen
      cases s with
      | lines source level => exact absurd ⟨source, level, rfl⟩ hs
      | requests =>
        rw [published, LineMetrics.observe, if_pos hreq]
        exact notLowered_inc m.requests _ _ hx
      | bytes =>
        refine ⟨_, bytes_observe hp he hreq hx, ?_⟩
        split
        · next hw =>
          have hmem : m.vhostFor e ∈ m.bytes := hw ▸ Finmap.mem_iff.mpr ⟨x, hx⟩
          exact le_add_of_nonneg_right ((hr hreq).1 hmem)
        · exact le_refl x
      | bucket w i =>
        obtain ⟨h, hh, hx⟩ := bind_eq_some_iff.mp hx
        obtain ⟨c, hc, rfl⟩ := map_eq_some_iff.mp hx
        obtain ⟨h', hh', -, -, hcounts⟩ := hgrown w h hh
        obtain ⟨c', hc', hle⟩ := hcounts i c hc
        refine ⟨c', ?_, Nat.cast_le.mpr hle⟩
        rw [published, hh', bind_some, hc']
        rfl
      | infBucket w | count w =>
        obtain ⟨h, hh, rfl⟩ := map_eq_some_iff.mp hx
        obtain ⟨h', hh', -, hn, -⟩ := hgrown w h hh
        exact ⟨h'.n, by rw [published, hh']; rfl, Nat.cast_le.mpr hn⟩
      | sum w =>
        obtain ⟨h, hh, rfl⟩ := map_eq_some_iff.mp hx
        obtain ⟨h', hh', hsum, -, -⟩ := hgrown w h hh
        exact ⟨h'.sum, by rw [published, hh']; rfl, hsum⟩
    · refine ⟨x, ?_, le_refl x⟩
      rw [published_observe_other hreq fun source level he => hs ⟨source, level, he⟩]
      exact hx

/-- The state of every counter follows from that of the lines before. -/
theorem length_counts_after (hp : Exact parse) (hes : ∀ e ∈ es, e.Readable) (v : Bytes)
    (h : Histogram ℚ) (hh : (after (exactFloats parse) es).hist.lookup v = some h) :
    h.counts.length = durationBuckets.length := by
  rw [measured_after hp hes v] at hh
  split at hh
  · cases hh
  · cases hh
    exact length_map ..

/-- Steps that lower nothing make a run that lowers nothing. -/
theorem notLowered_run (fl : Floats ℚ) {es1 : List LogEntry} (es2 : List LogEntry)
    (h : ∀ as e bs, es2 = as ++ e :: bs →
      NotLowered (after fl (es1 ++ as)) (after fl (es1 ++ as ++ [e]))) :
    NotLowered (after fl es1) (after fl (es1 ++ es2)) := by
  induction es2 using reverseRecOn with
  | nil =>
    rw [append_nil]
    exact NotLowered.refl _
  | append_singleton as e ih =>
    have hfront : NotLowered (after fl es1) (after fl (es1 ++ as)) := by
      refine ih fun cs e' ds hcs => h cs e' (ds ++ [e]) ?_
      rw [hcs, append_assoc, cons_append]
    rw [← append_assoc]
    exact hfront.trans (h as e [] rfl)

end LineMetrics

/-- The bounds of the buckets grow, and with them the counts. -/
theorem histogramOf_counts (ts : List ℚ) :
    (histogramOf ts).counts.Pairwise (· ≤ ·) ∧
      ∀ c ∈ (histogramOf ts).counts, c ≤ (histogramOf ts).n := by
  have hbounds : durationBuckets.Pairwise (· ≤ ·) := by decide +kernel
  constructor
  · refine pairwise_map.mpr (hbounds.imp ?_)
    intro u u' huu
    apply countP_mono_left
    intro d _ hd
    exact decide_eq_true ((of_decide_eq_true hd).trans huu)
  · intro c hc
    obtain ⟨u, -, rfl⟩ := mem_map.mp hc
    exact countP_le_length

/-- For every sequence of entries whose bytes and response times are absent or finite decimal
numbers, in exact arithmetic: the bucket of a bound holds the number of response times of
the vhost up to the bound, so that the buckets grow with their bounds up to the count; and
no published counter is ever lower than before exactly if each request adds no negative
bytes to a vhost that has bytes, and no negative time to one that has times. -/
theorem access_counters_iff (parse : Bytes → ℚ × Bool) (hp : Exact parse) (es : List LogEntry)
    (hes : ∀ e ∈ es, e.Readable) :
    let after := LineMetrics.after (exactFloats parse)
    (∀ v, let ts := timesOf v (served (exactFloats parse) {} es)
      ((after es).hist.lookup v = none → ts = []) ∧
      ∀ h, (after es).hist.lookup v = some h →
        h.counts = durationBuckets.map (fun u => ts.countP (· ≤ u)) ∧ h.n = ts.length ∧
        h.counts.Pairwise (· ≤ ·) ∧ ∀ c ∈ h.counts, c ≤ h.n) ∧
    ((∀ es1 es2 es3, es = es1 ++ es2 ++ es3 →
        LineMetrics.NotLowered (after es1) (after (es1 ++ es2))) ↔
      ∀ es1 e es2, es = es1 ++ e :: es2 → (after es1).Raises e) := by
  intro after
  have hstep : ∀ es1 e es2, es = es1 ++ e :: es2 →
      (LineMetrics.NotLowered (after es1) (after (es1 ++ [e])) ↔ (after es1).Raises e) := by
    intro es1 e es2 he
    have hread : ∀ x ∈ es1 ++ [e], x.Readable := by
      intro x hx
      refine hes x ?_
      rw [he, ← singleton_append, ← append_assoc]
      exact mem_append_left _ hx
    have hfront : ∀ x ∈ es1, x.Readable := fun x hx => hread x (mem_append_left _ hx)
    have hread' : e.Readable := hread e (mem_append_right es1 mem_cons_self)
    rw [show after (es1 ++ [e]) = _ from LineMetrics.after_concat ..]
    constructor
    · exact LineMetrics.raises_of_notLowered hp hread' (LineMetrics.bounded_after _ es1)
    · intro hr
      exact LineMetrics.notLowered_of_raises hp hread' hr
        (LineMetrics.length_counts_after hp hfront)
  refine ⟨?_, ?_, ?_⟩
  · intro v ts
    have hmeasured : (after es).hist.lookup v = if ts = [] then none else some (histogramOf ts) :=
      LineMetrics.measured_after hp hes v
    rw [hmeasured]
    split
    · next hnone => exact ⟨fun _ => hnone, nofun⟩
    · refine ⟨nofun, ?_⟩
      intro h hh
      cases hh
      exact ⟨rfl, rfl, histogramOf_counts ts⟩
  · intro hall es1 e es2 he
    refine (hstep es1 e es2 he).mp (hall es1 [e] es2 ?_)
    rw [he, append_assoc, singleton_append]
  · intro hall es1 es2 es3 he
    apply LineMetrics.notLowered_run
    intro as e bs has
    have hsplit : es = (es1 ++ as) ++ e :: (bs ++ es3) := by
      rw [he, has]
      simp
    exact (hstep (es1 ++ as) e (bs ++ es3) hsplit).mpr (hall _ _ _ hsplit)

/-- `strconv.ParseFloat` on decimal numbers, and an error on everything else. -/
def exactParse (b : Bytes) : ℚ × Bool :=
  match decimal b with
  | some q => (q, true)
  | none => (0, false)

theorem exact_exactParse : Exact exactParse := by
  refine ⟨rfl, ?_⟩
  intro b q hq
  rw [exactParse, hq]

/-- A request of the vhost `a`, with its bytes and its time. -/
def requestLine (bytes time : String) : LogEntry :=
  { time := 0, source := ascii "nginx", path := [], unit := [], level := [], msg := []
    fields := ((((∅ : Map Bytes Bytes).insert (ascii "vhost") (ascii "a")).insert
      (ascii "status") (ascii "200")).insert (ascii "bytes") (ascii bytes)).insert
      (ascii "request_time") (ascii time) }

theorem two_requests_raise :
    let after := LineMetrics.after (exactFloats exactParse)
    (after [requestLine "10" "0.5", requestLine "5" "1"]).published (.bytes (ascii "a")) =
      some 15 ∧
    LineMetrics.NotLowered (after [requestLine "10" "0.5"])
      (after [requestLine "10" "0.5", requestLine "5" "1"]) := by
  intro after
  refine ⟨by decide +kernel, ?_⟩
  refine (access_counters_iff exactParse exact_exactParse
    [requestLine "10" "0.5", requestLine "5" "1"] (by decide +kernel)).2.mpr ?_
    [requestLine "10" "0.5"] [requestLine "5" "1"] [] rfl
  have hall : ∀ e ∈ [requestLine "10" "0.5", requestLine "5" "1"],
      0 ≤ e.sentBytes ∧ ∀ d ∈ e.time?, 0 ≤ d := by
    decide +kernel
  intro es1 e es2 he _
  obtain ⟨hbytes, htime⟩ := hall e (he ▸ mem_append_right es1 mem_cons_self)
  exact ⟨fun _ => hbytes, fun _ => htime⟩

/-- A JSON access log with negative numbers: the bytes of the vhost fall from 10 to 5, and
the sum of its times from a half to minus a half. -/
theorem bytes_go_down :
    let after := LineMetrics.after (exactFloats exactParse)
    let es := [requestLine "10" "0.5", requestLine "-5" "-1"]
    (∀ e ∈ es, e.Readable) ∧
    (after (es.take 1)).published (.bytes (ascii "a")) = some 10 ∧
    (after es).published (.bytes (ascii "a")) = some 5 ∧
    (after (es.take 1)).published (.sum (ascii "a")) = some (1 / 2) ∧
    (after es).published (.sum (ascii "a")) = some (-1 / 2) := by
  decide +kernel

end YominsAgent.Logs
