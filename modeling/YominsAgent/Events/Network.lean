import YominsAgent.Events.Types
import YominsAgent.Go.Map

/- The network collector (`events/network/collector.go`): each poll compares the LISTEN sockets of
   one scan with those of the last scan that worked, and the number of sockets with its last value.

   Several sockets may listen on one address and port (`SO_REUSEPORT`), and a scan lists each of
   them. The loop of `poll` asks only whether the last scan had a socket, so a new one that is
   listed twice is reported twice: `poll_once_iff`.

   Correspondence (Go ↔ Lean):
     a result of the scanner ↔ `Scan`
     `Collector`, `poll`     ↔ `NetworkCollector`, `pollNetwork`
     the first scan of `Run` ↔ `baseline`
     `make…Event`            ↔ `NetworkNotice.event`
   `id i` is what the `i`-th call of `uuid.New` in a poll returns. -/
namespace YominsAgent.Events
open Go List

inductive Proto where
  | tcp | tcp6
  deriving DecidableEq, Repr

def Proto.text : Proto → Str
  | .tcp => "tcp".toList
  | .tcp6 => "tcp6".toList

structure ListenEntry where
  proto : Proto
  localIP : Str
  localPort : UInt16
  deriving DecidableEq, Repr

namespace ListenEntry

/-- `fmt.Sprintf("%s:%s:%d", …)`. -/
def key (e : ListenEntry) : Str :=
  e.proto.text ++ ':' :: (e.localIP ++ ':' :: Nat.toDigits 10 e.localPort.toNat)

def detail (e : ListenEntry) : NetworkDetail := ⟨e.localIP, e.localPort, e.proto.text⟩

end ListenEntry

structure NetworkConfig where
  pollInterval : Int
  scanDeltaThreshold : Int
  scanMultiplier : Float
  host : HostInfo
  agent : AgentInfo

/-- The defaults of `newCollectorWithScanner`. -/
def newNetworkConfig (cfg : NetworkConfig) : NetworkConfig :=
  { cfg with
    pollInterval := if cfg.pollInterval ≤ 0 then 5 * second else cfg.pollInterval
    scanDeltaThreshold := if cfg.scanDeltaThreshold ≤ 0 then 50 else cfg.scanDeltaThreshold
    scanMultiplier := if cfg.scanMultiplier ≤ 0 then 2 else cfg.scanMultiplier }

/-- The LISTEN sockets and the number of all sockets. -/
abbrev Scan := List ListenEntry × Int

structure NetworkCollector where
  prevListen : Map Str ListenEntry
  prevTotal : Int

inductive NetworkNotice where
  | connectionOpen (l : ListenEntry)
  | suspiciousPort (l : ListenEntry)
  | scanDetected
  deriving DecidableEq, Repr

section
variable (cfg : NetworkConfig) (id : Nat → Str) (now : Int)

def NetworkNotice.event (i : Nat) : NetworkNotice → Event
  | .connectionOpen l =>
    { id := id i, timestamp := now, type := .networkConnectionOpen, category := .systemCheck
      severity := .info, host := cfg.host, agent := cfg.agent, network := some l.detail
      tags := ["network".toList, "listen".toList] }
  | .suspiciousPort l =>
    { id := id i, timestamp := now, type := .networkSuspiciousPort, category := .threatActivity
      severity := .warning, confidence := some .medium, host := cfg.host, agent := cfg.agent
      network := some l.detail, tags := ["network".toList, "suspicious_port".toList] }
  | .scanDetected =>
    { id := id i, timestamp := now, type := .networkScanDetected, category := .threatActivity
      severity := .critical, host := cfg.host, agent := cfg.agent
      context := some { reason := "connection_burst".toList }
      tags := ["network".toList, "scan".toList] }

def listenMap (listeners : List ListenEntry) : Map Str ListenEntry :=
  listeners.foldl (fun m l => m.insert l.key l) ∅

/-- The first scan of `Run`: what listens already is not reported. -/
def baseline (scan : Scan) : NetworkCollector := ⟨listenMap scan.1, scan.2⟩

/-- The listeners of a scan that the last one did not have. -/
def newListeners (prev : Map Str ListenEntry) (listeners : List ListenEntry) :
    List NetworkNotice :=
  listeners.flatMap fun l => if l.key ∈ prev then [] else [.connectionOpen l, .suspiciousPort l]

/-- The number of sockets has grown by the threshold and by the multiplier. -/
def isBurst (prevTotal total : Int) : Bool :=
  decide (prevTotal > 0) && decide (total - prevTotal ≥ cfg.scanDeltaThreshold) &&
    decide (Float.ofInt total ≥ Float.ofInt prevTotal * cfg.scanMultiplier)

/-- `Collector.poll`, with the result of the scan. -/
def pollNetwork (c : NetworkCollector) : Option Scan → NetworkCollector × List Event
  | none => (c, [])
  | some (listeners, total) =>
    let notices := newListeners c.prevListen listeners ++
      if isBurst cfg c.prevTotal total then [.scanDetected] else []
    (⟨listenMap listeners, total⟩, notices.mapIdx fun i n => n.event cfg id now i)

end

/-! ## Keys -/

theorem Proto.colon_not_mem (p : Proto) : ':' ∉ p.text := by
  cases p <;> decide

theorem Proto.text_inj {p q : Proto} (h : p.text = q.text) : p = q := by
  cases p <;> cases q <;> first | rfl | exact absurd h (by decide)

theorem colon_not_mem_toDigits (n : Nat) : ':' ∉ Nat.toDigits 10 n :=
  fun h => absurd (Nat.isDigit_of_mem_toDigits (by decide) (by decide) h) (by decide)

/-- The key names the listener: an address may have colons, the text before it and the
port after it have none. -/
theorem ListenEntry.key_inj {e f : ListenEntry} (h : e.key = f.key) : e = f := by
  obtain ⟨hproto, hrest⟩ := first_unique e.proto.colon_not_mem f.proto.colon_not_mem h
  obtain ⟨hip, hport⟩ := last_unique (colon_not_mem_toDigits _) (colon_not_mem_toDigits _) hrest
  have hp : e.localPort = f.localPort := by
    have hd := congrArg (Nat.ofDigitChars 10 · 0) hport
    simp only [Nat.ofDigitChars_ten_toDigits] at hd
    exact UInt16.toNat_inj.mp hd
  cases e
  cases f
  simp only [ListenEntry.mk.injEq]
  exact ⟨Proto.text_inj hproto, hip, hp⟩

theorem ListenEntry.detail_inj {e f : ListenEntry} : e.detail = f.detail ↔ e = f := by
  constructor
  · intro h
    simp only [detail, NetworkDetail.mk.injEq] at h
    cases e
    cases f
    simp only [ListenEntry.mk.injEq]
    exact ⟨Proto.text_inj h.2.2, h.1, h.2.1⟩
  · exact congrArg _

theorem mem_foldl_insert (listeners : List ListenEntry) (m : Map Str ListenEntry) (k : Str) :
    k ∈ listeners.foldl (fun m l => m.insert l.key l) m ↔ k ∈ m ∨ ∃ l ∈ listeners, l.key = k := by
  induction listeners generalizing m with
  | nil => simp
  | cons l ls ih =>
    rw [foldl_cons, ih, Finmap.mem_insert]
    simp only [mem_cons, exists_eq_or_imp]
    tauto

theorem mem_listenMap {listeners : List ListenEntry} {l : ListenEntry} :
    l.key ∈ listenMap listeners ↔ l ∈ listeners := by
  rw [listenMap, mem_foldl_insert]
  constructor
  · rintro (h | ⟨l', hl', hkey⟩)
    · exact (Finmap.notMem_empty h).elim
    · exact ListenEntry.key_inj hkey ▸ hl'
  · exact fun h => .inr ⟨l, h, rfl⟩

/-! ## What a poll reports -/

/-- The event reports the listener. -/
def reportsListener (type : EventType) (l : ListenEntry) (ev : Event) : Bool :=
  ev.type = type && ev.network = some l.detail

def NetworkNotice.reports (type : EventType) (l : ListenEntry) : NetworkNotice → Bool
  | .connectionOpen l' => EventType.networkConnectionOpen = type && l' = l
  | .suspiciousPort l' => EventType.networkSuspiciousPort = type && l' = l
  | .scanDetected => false

def listenerEvents : List EventType := [.networkConnectionOpen, .networkSuspiciousPort]

section
variable {cfg : NetworkConfig} {id : Nat → Str} {now : Int}

theorem reportsListener_event (type : EventType) (l : ListenEntry) (i : Nat) (n : NetworkNotice) :
    reportsListener type l (n.event cfg id now i) = n.reports type l := by
  have hdetail : ∀ l' : ListenEntry,
      decide (some l'.detail = some l.detail) = decide (l' = l) := fun l' =>
    decide_eq_decide.mpr (Option.some_inj.trans ListenEntry.detail_inj)
  cases n with
  | scanDetected => simp [reportsListener, NetworkNotice.event, NetworkNotice.reports]
  | connectionOpen l' | suspiciousPort l' => exact congrArg (_ && ·) (hdetail l')

theorem countP_mapIdx_event (type : EventType) (l : ListenEntry) (ns : List NetworkNotice)
    (k : Nat) :
    (ns.mapIdx fun i n => n.event cfg id now (k + i)).countP (reportsListener type l) =
      ns.countP (NetworkNotice.reports type l) := by
  induction ns generalizing k with
  | nil => rfl
  | cons n ns ih =>
    have hshift : (fun i n => NetworkNotice.event cfg id now (k + (i + 1)) n) =
        fun i n => NetworkNotice.event cfg id now (k + 1 + i) n := by
      funext i n
      rw [Nat.add_assoc, Nat.add_comm 1 i]
    rw [mapIdx_cons, countP_cons, countP_cons, reportsListener_event, hshift, ih (k + 1)]

/-- A listener that the last scan did not have is reported as often as it is listed. -/
theorem countP_newListeners {type : EventType} (ht : type ∈ listenerEvents) (l : ListenEntry)
    (prev : Map Str ListenEntry) (listeners : List ListenEntry) :
    (newListeners prev listeners).countP (NetworkNotice.reports type l) =
      if l.key ∈ prev then 0 else listeners.count l := by
  induction listeners with
  | nil => simp [newListeners]
  | cons x xs ih =>
    have hcons : newListeners prev (x :: xs) =
        (if x.key ∈ prev then [] else [.connectionOpen x, .suspiciousPort x]) ++
          newListeners prev xs := rfl
    have hone : [NetworkNotice.connectionOpen x, .suspiciousPort x].countP
        (NetworkNotice.reports type l) = if x = l then 1 else 0 := by
      simp only [listenerEvents, mem_cons, not_mem_nil, or_false] at ht
      rcases ht with rfl | rfl <;> by_cases hx : x = l <;>
        simp [NetworkNotice.reports, hx]
    rw [hcons, countP_append, ih, count_cons]
    by_cases hx : x = l
    · subst hx
      by_cases hk : x.key ∈ prev
      · simp [hk]
      · simp only [if_neg hk, hone, if_true, beq_self_eq_true]
        omega
    · by_cases hk : x.key ∈ prev
      · simp [hk, hx]
      · simp [hk, hone, hx]

/-- Each new listener is reported by exactly one event of either type, and nothing else
is reported. -/
def OnceEach (last listeners : List ListenEntry) (evs : List Event) : Prop :=
  ∀ l : ListenEntry, ∀ type ∈ listenerEvents,
    evs.countP (reportsListener type l) = if l ∈ listeners ∧ l ∉ last then 1 else 0

theorem countP_poll {c : NetworkCollector} {last : List ListenEntry}
    (hlast : ∀ l : ListenEntry, l.key ∈ c.prevListen ↔ l ∈ last) {type : EventType}
    (ht : type ∈ listenerEvents) (l : ListenEntry) (scan : Scan) :
    (pollNetwork cfg id now c (some scan)).2.countP (reportsListener type l) =
      if l ∈ last then 0 else scan.1.count l := by
  have hburst : (if isBurst cfg c.prevTotal scan.2 then [NetworkNotice.scanDetected]
      else []).countP (NetworkNotice.reports type l) = 0 := by
    split <;> rfl
  have hevs : (pollNetwork cfg id now c (some scan)).2 = (newListeners c.prevListen scan.1 ++
      if isBurst cfg c.prevTotal scan.2 then [NetworkNotice.scanDetected] else []).mapIdx
        fun i n => n.event cfg id now (0 + i) := by
    simp only [pollNetwork, Nat.zero_add]
  rw [hevs, countP_mapIdx_event, countP_append, hburst, countP_newListeners ht]
  simp only [hlast, Nat.add_zero]

end

/-! ## Runs -/

/-- The listeners of the last scan that worked. -/
def lastListeners (base : Scan) (scans : List (Option Scan)) : List ListenEntry :=
  scans.foldl (fun last s => (s.map Prod.fst).getD last) base.1

/-- The collector after the polls with the results of these scans: what it keeps does
not depend on the identifiers and the clock. -/
def polled (cfg : NetworkConfig) (c : NetworkCollector) (scans : List (Option Scan)) :
    NetworkCollector :=
  scans.foldl (fun c s => (pollNetwork cfg (fun _ => []) 0 c s).1) c

/-- The collector knows the listeners of the last scan that worked. -/
theorem known_polled (cfg : NetworkConfig) (base : Scan) (scans : List (Option Scan))
    (l : ListenEntry) :
    l.key ∈ (polled cfg (baseline base) scans).prevListen ↔ l ∈ lastListeners base scans := by
  suffices hrun : ∀ (c : NetworkCollector) (last : List ListenEntry),
      (l.key ∈ c.prevListen ↔ l ∈ last) →
      (l.key ∈ (polled cfg c scans).prevListen ↔
        l ∈ scans.foldl (fun last s => (s.map Prod.fst).getD last) last) from
    hrun (baseline base) base.1 mem_listenMap
  induction scans with
  | nil => exact fun c last h => h
  | cons s scans ih =>
    intro c last h
    refine ih (pollNetwork cfg (fun _ => []) 0 c s).1 _ ?_
    cases s with
    | none => exact h
    | some => exact mem_listenMap

/-- After every baseline and every sequence of scans: a failed scan emits nothing and
changes nothing, and the poll with a scan reports each new listener exactly once exactly
when no new listener is listed twice. -/
theorem poll_once_iff (cfg : NetworkConfig) (id : Nat → Str) (now : Int) (base : Scan)
    (scans : List (Option Scan)) (scan : Scan) :
    pollNetwork cfg id now (polled cfg (baseline base) scans) none =
      (polled cfg (baseline base) scans, []) ∧
    (OnceEach (lastListeners base scans) scan.1
        (pollNetwork cfg id now (polled cfg (baseline base) scans) (some scan)).2 ↔
      ∀ l ∈ scan.1, l ∉ lastListeners base scans → scan.1.count l = 1) := by
  have hcount : ∀ type ∈ listenerEvents, ∀ l : ListenEntry,
      (pollNetwork cfg id now (polled cfg (baseline base) scans) (some scan)).2.countP
        (reportsListener type l) =
        if l ∈ lastListeners base scans then 0 else scan.1.count l :=
    fun type ht l => countP_poll (known_polled cfg base scans) ht l scan
  refine ⟨rfl, fun h l hl hnew => ?_, fun h l type ht => ?_⟩
  · have hl' := h l .networkConnectionOpen mem_cons_self
    rwa [hcount _ mem_cons_self, if_neg hnew, if_pos ⟨hl, hnew⟩] at hl'
  · rw [hcount type ht]
    by_cases hnew : l ∈ lastListeners base scans
    · rw [if_pos hnew, if_neg fun hc => hc.2 hnew]
    · rw [if_neg hnew]
      by_cases hl : l ∈ scan.1
      · rw [if_pos ⟨hl, hnew⟩, h l hl hnew]
      · rw [if_neg fun hc => hl hc.1, count_eq_zero_of_not_mem hl]

/-- A configuration without settings. -/
def defaultNetworkConfig : NetworkConfig :=
  newNetworkConfig ⟨0, 0, 0, ⟨"web-1".toList, []⟩, ⟨"yomins-agent".toList, []⟩⟩

def webPort : ListenEntry := ⟨.tcp, "0.0.0.0".toList, 8080⟩

/-- A port that two sockets share is reported twice by the poll that first sees it. -/
theorem poll_reusePort_twice :
    (pollNetwork defaultNetworkConfig (fun _ => []) 0 (baseline ([], 0))
      (some ([webPort, webPort], 2))).2.countP
        (reportsListener .networkConnectionOpen webPort) = 2 ∧
    ¬ OnceEach (lastListeners ([], 0) []) [webPort, webPort]
      (pollNetwork defaultNetworkConfig (fun _ => []) 0 (baseline ([], 0))
        (some ([webPort, webPort], 2))).2 := by
  rw [and_iff_left_of_imp]
  · exact (countP_poll (known_polled defaultNetworkConfig ([], 0) []) mem_cons_self webPort
      ([webPort, webPort], 2)).trans (by decide)
  · intro htwo h
    exact absurd (htwo.symm.trans (h webPort .networkConnectionOpen mem_cons_self)) (by decide)

end YominsAgent.Events
