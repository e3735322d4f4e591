import Mathlib.Algebra.Order.BigOperators.Group.List
import Mathlib.Algebra.Order.Field.Basic
import Mathlib.Tactic.FieldSimp
import Mathlib.Tactic.Linarith
import YominsAgent.Events.Process
import YominsAgent.Events.RingBuffer

/- When a spike of a process raises an alert (`poll` of
   `internal/events/process/collector.go`, `snapshot.go`), with exact rational numbers in
   place of the floating-point ones of `Events.Process`.

   The average a reading is compared with is taken over the window after the reading was
   pushed, so the spike raises the bar it has to clear. Of `n` readings in the window a
   reading `c` that is more than `m` times the average of the others, whose sum is `S`,
   raises the alert exactly if `m * S < (n - m) * c` (`spike_alerts_iff`): with the default
   multiplier of three a third reading does not (`third_reading_no_alert`).

   Correspondence (Go ↔ Lean):
     `ProcessSnapshot`                    ↔ `ExactSnapshot`, the fields this part uses
     `cpu > threshold && (avg == 0 || …)` ↔ `ExactConfig.spikes`
     the turn of `poll` for a process it knows ↔ `survivingProcess`, folded by `track`
   How the processes are listed, found and lost is in `Events.Process`. -/
namespace YominsAgent.Events
open Go Lib List Bool

structure ExactConfig where
  cpuAlertThreshold : ℚ
  cpuAlertMultiplier : ℚ
  memAlertThreshold : ℚ
  memAlertMultiplier : ℚ
  alertCooldown : Int

structure ExactSnapshot where
  cpuTicks : Nat
  sampledAt : Int
  cpuHistory : List ℚ := List.replicate rollingWindowSize 0
  memHistory : List ℚ := List.replicate rollingWindowSize 0
  historyIdx : Nat := 0
  historyFilled : Nat := 0
  lastCPUAlertAt : Int := zeroTime
  lastMemAlertAt : Int := zeroTime

/-- What a poll learns of the process. -/
structure ExactPoll where
  cpu : Nat
  rss : Nat
  mono : Int
  now : Int
  memTotal : Nat
  clockTicks : ℚ

inductive SpikeAlert where
  | highCPU (current avg : ℚ)
  | highMemory (current avg : ℚ)

def SpikeAlert.isCPU : SpikeAlert → Bool
  | .highCPU _ _ => true
  | .highMemory _ _ => false

def SpikeAlert.isMemory : SpikeAlert → Bool
  | .highCPU _ _ => false
  | .highMemory _ _ => true

/-! ## A poll of a process that was there before -/

/-- The average of the readings that are valid. -/
def windowAvg (history : List ℚ) (filled : Nat) : ℚ :=
  if filled = 0 then 0 else (history.take filled).foldl (· + ·) 0 / filled

namespace ExactSnapshot

def advance (s : ExactSnapshot) : ExactSnapshot :=
  { s with
    historyIdx := (s.historyIdx + 1) % rollingWindowSize
    historyFilled :=
      if s.historyFilled < rollingWindowSize then s.historyFilled + 1 else s.historyFilled }

def cpuAvg (s : ExactSnapshot) : ℚ := windowAvg s.cpuHistory s.historyFilled

def memAvg (s : ExactSnapshot) : ℚ := windowAvg s.memHistory s.historyFilled

def pushMetrics (s : ExactSnapshot) (cpu mem : ℚ) : ExactSnapshot :=
  { s with
    cpuHistory := s.cpuHistory.set s.historyIdx cpu
    memHistory := s.memHistory.set s.historyIdx mem }.advance

def readyForAnomaly (s : ExactSnapshot) : Bool := 3 ≤ s.historyFilled

end ExactSnapshot

/-- The share of one core used since the last poll. -/
def ExactPoll.cpuPercent (poll : ExactPoll) (s : ExactSnapshot) : ℚ :=
  let elapsed : ℚ := timeSub poll.mono s.sampledAt / second
  if 0 < elapsed ∧ s.cpuTicks ≤ poll.cpu then
    ((poll.cpu - s.cpuTicks : Nat) : ℚ) / poll.clockTicks / elapsed * 100
  else 0

def ExactPoll.memPercent (poll : ExactPoll) : ℚ :=
  if 0 < poll.memTotal then (poll.rss : ℚ) / poll.memTotal * 100 else 0

/-- The snapshot with the readings of a poll in its windows. -/
def ExactSnapshot.take (s : ExactSnapshot) (poll : ExactPoll) : ExactSnapshot :=
  { s with cpuTicks := poll.cpu, sampledAt := poll.mono }.pushMetrics (poll.cpuPercent s)
    poll.memPercent

namespace ExactConfig
variable (cfg : ExactConfig)

/-- The last alert is longer ago than the cooldown. -/
def cooledDown (now last : Int) : Bool := cfg.alertCooldown < timeSub now last

def spikes (threshold multiplier : ℚ) (now last : Int) (current avg : ℚ) : Bool :=
  threshold < current && (avg = 0 || multiplier * avg < current) && cfg.cooledDown now last

def alertCPU (now : Int) (cpu avg : ℚ) (s : ExactSnapshot) : ExactSnapshot × List SpikeAlert :=
  if cfg.spikes cfg.cpuAlertThreshold cfg.cpuAlertMultiplier now s.lastCPUAlertAt cpu avg then
    ({ s with lastCPUAlertAt := now }, [.highCPU cpu avg])
  else (s, [])

def alertMem (now : Int) (mem avg : ℚ) (s : ExactSnapshot) : ExactSnapshot × List SpikeAlert :=
  if cfg.spikes cfg.memAlertThreshold cfg.memAlertMultiplier now s.lastMemAlertAt mem avg then
    ({ s with lastMemAlertAt := now }, [.highMemory mem avg])
  else (s, [])

def survivingProcess (s : ExactSnapshot) (poll : ExactPoll) : ExactSnapshot × List SpikeAlert :=
  let pushed := s.take poll
  if !pushed.readyForAnomaly then (pushed, [])
  else
    let (s₁, cpuEvs) := cfg.alertCPU poll.now (poll.cpuPercent s) pushed.cpuAvg pushed
    let (s₂, memEvs) := cfg.alertMem poll.now poll.memPercent pushed.memAvg s₁
    (s₂, cpuEvs ++ memEvs)

def track (s : ExactSnapshot) (polls : List ExactPoll) : ExactSnapshot :=
  polls.foldl (fun s poll => (cfg.survivingProcess s poll).1) s

/-- The CPU and memory readings of these polls, in their order. -/
def readings (s : ExactSnapshot) : List ExactPoll → List (ℚ × ℚ)
  | [] => []
  | poll :: polls =>
    (poll.cpuPercent s, poll.memPercent) :: readings (cfg.survivingProcess s poll).1 polls

end ExactConfig

/-- A reading against the other ones in the window: there are at least three in all, and it
exceeds the threshold and `multiplier` times the average of the others. -/
@[mk_iff]
structure Spike (threshold multiplier : ℚ) (others : List ℚ) (current : ℚ) : Prop where
  factor : 1 ≤ multiplier
  nonneg : ∀ r ∈ others, 0 ≤ r
  enough : 3 ≤ others.length + 1
  above : threshold < current
  exceeds : multiplier * (others.sum / others.length) < current

instance (threshold multiplier : ℚ) (others : List ℚ) (current : ℚ) :
    Decidable (Spike threshold multiplier others current) :=
  decidable_of_iff' _ (spike_iff ..)

/-! ## The window holds the last readings -/

/-- The window is a ring buffer that holds the last readings. -/
def Holds (history : List ℚ) (idx filled : Nat) (readings : List ℚ) : Prop :=
  ∃ r : RingBuffer ℚ, r.cap = rollingWindowSize ∧ r.buf = history ∧ r.tail = idx ∧
    r.size = filled ∧ (r.size < r.cap → r.head = 0) ∧ r.contents = readings.rtake rollingWindowSize

theorem holds_init : Holds (List.replicate rollingWindowSize 0) 0 0 [] :=
  ⟨{ buf := replicate rollingWindowSize 0, head := 0, tail := 0, size := 0
     cap := rollingWindowSize, dropped := 0, cap_pos := by decide
     buf_length := length_replicate, head_lt := by decide
     size_le := Nat.zero_le _, tail_eq := rfl },
   rfl, rfl, rfl, rfl, fun _ => rfl, rfl⟩

variable {history : List ℚ} {idx : Nat}

theorem Holds.push {filled : Nat} {readings : List ℚ} (h : Holds history idx filled readings)
    (v : ℚ) :
    Holds (history.set idx v) ((idx + 1) % rollingWindowSize)
      (if filled < rollingWindowSize then filled + 1 else filled) (readings ++ [v]) := by
  obtain ⟨r, hcap, rfl, rfl, rfl, hhead, hcontents⟩ := h
  have hle := r.size_le
  refine ⟨r.push v, by rw [RingBuffer.push_cap, hcap], ?_, ?_, ?_, ?_, ?_⟩
  · unfold RingBuffer.push
    split <;> rfl
  · unfold RingBuffer.push
    split <;> simp only [hcap]
  · rw [RingBuffer.push_size]
    split <;> split <;> omega
  · rw [RingBuffer.push_cap]
    unfold RingBuffer.push
    split
    · next hfull => exact fun hlt => absurd hlt (by simp only [hfull]; omega)
    · exact fun hlt => hhead (by omega)
  · rw [RingBuffer.contents_push, hcontents, hcap]
    exact pushBounded_rtake (by decide) readings v

theorem Holds.filled {filled : Nat} {readings : List ℚ} (h : Holds history idx filled readings) :
    filled = min rollingWindowSize readings.length := by
  obtain ⟨r, -, -, -, rfl, -, hcontents⟩ := h
  rw [← RingBuffer.contents_length, hcontents, length_rtake]

theorem Holds.avg {filled : Nat} {readings : List ℚ} (h : Holds history idx filled readings) :
    windowAvg history filled = (readings.rtake rollingWindowSize).sum / filled := by
  obtain ⟨r, -, rfl, -, rfl, hhead, hcontents⟩ := h
  rw [windowAvg]
  split
  · next hzero => rw [hzero, Nat.cast_zero, div_zero]
  · rw [← sum_eq_foldl, (r.take_size_perm hhead).sum_eq, hcontents]

/-! ## Along the polls -/

/-- Both windows hold the last readings. -/
def ExactSnapshot.Tracks (s : ExactSnapshot) (rs : List (ℚ × ℚ)) : Prop :=
  Holds s.cpuHistory s.historyIdx s.historyFilled (rs.map Prod.fst) ∧
    Holds s.memHistory s.historyIdx s.historyFilled (rs.map Prod.snd)

/-- The snapshot after these calls of `pushMetrics`. -/
def ExactSnapshot.pushAll (s : ExactSnapshot) (rs : List (ℚ × ℚ)) : ExactSnapshot :=
  rs.foldl (fun s r => s.pushMetrics r.1 r.2) s

section
variable {s : ExactSnapshot} {rs : List (ℚ × ℚ)}

theorem ExactSnapshot.Tracks.push (h : s.Tracks rs) (r : ℚ × ℚ) :
    (s.pushMetrics r.1 r.2).Tracks (rs ++ [r]) := by
  unfold ExactSnapshot.Tracks
  rw [map_append, map_append]
  exact ⟨h.1.push _, h.2.push _⟩

theorem tracks_pushAll (ticks : Nat) (since : Int) (rs : List (ℚ × ℚ)) :
    ({ cpuTicks := ticks, sampledAt := since } : ExactSnapshot).pushAll rs |>.Tracks rs := by
  induction rs using reverseRecOn with
  | nil => exact ⟨holds_init, holds_init⟩
  | append_singleton rs r ih =>
    rw [ExactSnapshot.pushAll, foldl_concat]
    exact ih.push r

/-- After any calls on a fresh snapshot each average is the mean of the last five readings,
of all while there are fewer, and from the third reading on the snapshot is ready. -/
theorem pushMetrics_averages (ticks : Nat) (since : Int) (rs : List (ℚ × ℚ)) :
    let s : ExactSnapshot := .pushAll { cpuTicks := ticks, sampledAt := since } rs
    s.cpuAvg = ((rs.map Prod.fst).rtake 5).sum / (min rs.length 5 : Nat) ∧
      s.memAvg = ((rs.map Prod.snd).rtake 5).sum / (min rs.length 5 : Nat) ∧
      (s.readyForAnomaly = true ↔ 3 ≤ rs.length) := by
  intro s
  have htracks : s.Tracks rs := tracks_pushAll ticks since rs
  have hfilled : s.historyFilled = min rs.length 5 := by
    rw [htracks.1.filled, length_map, rollingWindowSize, Nat.min_comm]
  refine ⟨hfilled ▸ htracks.1.avg, hfilled ▸ htracks.2.avg, ?_⟩
  rw [ExactSnapshot.readyForAnomaly, hfilled, decide_eq_true_eq]
  omega

end

namespace ExactConfig
variable (cfg : ExactConfig) {s : ExactSnapshot} {rs : List (ℚ × ℚ)}

theorem survivingProcess_window (s : ExactSnapshot) (poll : ExactPoll) :
    let s' := (cfg.survivingProcess s poll).1
    s'.cpuHistory = (s.take poll).cpuHistory ∧ s'.memHistory = (s.take poll).memHistory ∧
      s'.historyIdx = (s.take poll).historyIdx ∧
      s'.historyFilled = (s.take poll).historyFilled := by
  simp only [survivingProcess, alertCPU, alertMem]
  split
  · exact ⟨rfl, rfl, rfl, rfl⟩
  · split <;> split <;> exact ⟨rfl, rfl, rfl, rfl⟩

theorem tracks_take (h : s.Tracks rs) (poll : ExactPoll) :
    (s.take poll).Tracks (rs ++ [(poll.cpuPercent s, poll.memPercent)]) :=
  ExactSnapshot.Tracks.push (s := { s with cpuTicks := poll.cpu, sampledAt := poll.mono }) h
    (poll.cpuPercent s, poll.memPercent)

theorem tracks_step (h : s.Tracks rs) (poll : ExactPoll) :
    (cfg.survivingProcess s poll).1.Tracks (rs ++ [(poll.cpuPercent s, poll.memPercent)]) := by
  obtain ⟨hcpu, hmem, hidx, hfilled⟩ := cfg.survivingProcess_window s poll
  unfold ExactSnapshot.Tracks
  rw [hcpu, hmem, hidx, hfilled]
  exact tracks_take h poll

theorem tracks_run (h : s.Tracks rs) (polls : List ExactPoll) :
    (cfg.track s polls).Tracks (rs ++ cfg.readings s polls) := by
  induction polls generalizing s rs with
  | nil => simpa [track, readings] using h
  | cons poll polls ih =>
    have hrest := ih (cfg.tracks_step h poll)
    rwa [append_assoc, singleton_append] at hrest

end ExactConfig

/-! ## The alert -/

variable {current : ℚ}

/-- With the reading itself in the window, the bar is the average of all. -/
theorem Spike.spikes_iff {cfg : ExactConfig} {threshold multiplier : ℚ} {others : List ℚ}
    {now last : Int} (h : Spike threshold multiplier others current)
    (hcool : cfg.cooledDown now last = true) :
    cfg.spikes threshold multiplier now last current
        ((others.sum + current) / (others.length + 1 : Nat)) = true ↔
      multiplier * others.sum < (others.length + 1 - multiplier) * current := by
  have hsum : 0 ≤ others.sum := List.sum_nonneg h.nonneg
  have hmul : 0 < multiplier := lt_of_lt_of_le one_pos h.factor
  have hpos : 0 < current := by
    refine lt_of_le_of_lt ?_ h.exceeds
    exact mul_nonneg hmul.le (div_nonneg hsum (Nat.cast_nonneg _))
  have hn : (0 : ℚ) < (others.length + 1 : Nat) := Nat.cast_pos.mpr (Nat.succ_pos _)
  have havg : (others.sum + current) / (others.length + 1 : Nat) ≠ 0 :=
    (div_pos (by linarith) hn).ne'
  simp only [ExactConfig.spikes, hcool, h.above, havg, decide_true, decide_false, Bool.true_and,
    Bool.and_true, Bool.false_or, decide_eq_true_eq]
  rw [← mul_div_assoc, div_lt_iff₀ hn, Nat.cast_add, Nat.cast_one]
  constructor <;> intro hlt <;> linarith

/-- The readings beside the current one in the window. -/
def others (rs : List ℚ) : List ℚ := rs.rtake (rollingWindowSize - 1)

theorem Holds.avg_concat {filled : Nat} {rs : List ℚ}
    (h : Holds history idx filled (rs ++ [current])) :
    filled = (others rs).length + 1 ∧
      windowAvg history filled = ((others rs).sum + current) / ((others rs).length + 1 : Nat) := by
  have hfilled := h.filled
  rw [length_append, length_singleton] at hfilled
  have hlen : filled = (others rs).length + 1 := by
    rw [hfilled, others, length_rtake, rollingWindowSize]
    omega
  refine ⟨hlen, ?_⟩
  rw [h.avg, hlen, rollingWindowSize, rtake_concat_succ, sum_append, sum_singleton]
  rfl

namespace ExactConfig
variable (cfg : ExactConfig) (s : ExactSnapshot) (poll : ExactPoll)

theorem emits :
    (cfg.survivingProcess s poll).2.any SpikeAlert.isCPU = ((s.take poll).readyForAnomaly &&
      cfg.spikes cfg.cpuAlertThreshold cfg.cpuAlertMultiplier poll.now s.lastCPUAlertAt
        (poll.cpuPercent s) (s.take poll).cpuAvg) ∧
    (cfg.survivingProcess s poll).2.any SpikeAlert.isMemory = ((s.take poll).readyForAnomaly &&
      cfg.spikes cfg.memAlertThreshold cfg.memAlertMultiplier poll.now s.lastMemAlertAt
        poll.memPercent (s.take poll).memAvg) := by
  have hlast : (s.take poll).lastCPUAlertAt = s.lastCPUAlertAt ∧
      (s.take poll).lastMemAlertAt = s.lastMemAlertAt := ⟨rfl, rfl⟩
  cases hready : (s.take poll).readyForAnomaly with
  | false => simp [survivingProcess, hready]
  | true =>
    simp only [survivingProcess, alertCPU, alertMem, hready, hlast, Bool.not_true,
      Bool.false_eq_true, if_false, Bool.true_and]
    split <;> split <;> simp_all [SpikeAlert.isCPU, SpikeAlert.isMemory]

end ExactConfig

/-- For every process and every sequence of polls of it, in exact arithmetic and outside the
cooldown: a reading of the CPU that exceeds the threshold and is more than the multiplier
times the average of the other readings in the window raises `process.high_cpu` exactly if
the other readings, the multiplier times their sum, stay below the reading times what the
number of readings has over the multiplier. The same holds of the memory. -/
theorem spike_alerts_iff (cfg : ExactConfig) (ticks : Nat) (since : Int)
    (earlier : List ExactPoll) (poll : ExactPoll) :
    let first : ExactSnapshot := { cpuTicks := ticks, sampledAt := since }
    let s := cfg.track first earlier
    let cpus := others ((cfg.readings first earlier).map Prod.fst)
    let mems := others ((cfg.readings first earlier).map Prod.snd)
    (Spike cfg.cpuAlertThreshold cfg.cpuAlertMultiplier cpus (poll.cpuPercent s) →
      cfg.cooledDown poll.now s.lastCPUAlertAt = true →
      ((cfg.survivingProcess s poll).2.any SpikeAlert.isCPU = true ↔
        cfg.cpuAlertMultiplier * cpus.sum <
          (cpus.length + 1 - cfg.cpuAlertMultiplier) * poll.cpuPercent s)) ∧
    (Spike cfg.memAlertThreshold cfg.memAlertMultiplier mems poll.memPercent →
      cfg.cooledDown poll.now s.lastMemAlertAt = true →
      ((cfg.survivingProcess s poll).2.any SpikeAlert.isMemory = true ↔
        cfg.memAlertMultiplier * mems.sum <
          (mems.length + 1 - cfg.memAlertMultiplier) * poll.memPercent)) := by
  intro first s cpus mems
  have hfirst : first.Tracks [] := ⟨holds_init, holds_init⟩
  obtain ⟨hcpu, hmem⟩ := ExactConfig.tracks_take (cfg.tracks_run hfirst earlier) poll
  rw [List.nil_append, List.map_append] at hcpu hmem
  obtain ⟨hcpus, hcpuAvg⟩ := hcpu.avg_concat
  obtain ⟨hmems, hmemAvg⟩ := hmem.avg_concat
  obtain ⟨hemitsCPU, hemitsMem⟩ := cfg.emits s poll
  constructor
  · intro hspike hcool
    have hready : (s.take poll).readyForAnomaly = true := by
      rw [ExactSnapshot.readyForAnomaly, hcpus]
      exact decide_eq_true hspike.enough
    rw [hemitsCPU, hready, Bool.true_and, ExactSnapshot.cpuAvg, hcpuAvg]
    exact hspike.spikes_iff hcool
  · intro hspike hcool
    have hready : (s.take poll).readyForAnomaly = true := by
      rw [ExactSnapshot.readyForAnomaly, hmems]
      exact decide_eq_true hspike.enough
    rw [hemitsMem, hready, Bool.true_and, ExactSnapshot.memAvg, hmemAvg]
    exact hspike.spikes_iff hcool

/-- The values `newCollectorWithSource` puts in for zeros. -/
def defaultExactConfig : ExactConfig := ⟨5, 3, 10, 3, 60 * second⟩

def foundSnapshot : ExactSnapshot := { cpuTicks := 0, sampledAt := 0 }

/-- A poll after `n` seconds, with a hundred clock ticks a second. -/
def polledAfter (n : Int) (cpu rss : Nat) : ExactPoll :=
  ⟨cpu, rss, n * second, n * second, 1000, 100⟩

/-- Four readings of one percent, then eighty percent of a core and of the memory. -/
theorem fifth_reading_alerts :
    let s := defaultExactConfig.track foundSnapshot
      [polledAfter 1 1 10, polledAfter 2 2 10, polledAfter 3 3 10, polledAfter 4 4 10]
    let alerts := (defaultExactConfig.survivingProcess s (polledAfter 5 84 800)).2
    alerts.any SpikeAlert.isCPU = true ∧ alerts.any SpikeAlert.isMemory = true := by
  intro s alerts
  have h := spike_alerts_iff defaultExactConfig 0 0
    [polledAfter 1 1 10, polledAfter 2 2 10, polledAfter 3 3 10, polledAfter 4 4 10]
    (polledAfter 5 84 800)
  exact ⟨(h.1 (by decide +kernel) (by decide +kernel)).mpr (by decide +kernel),
    (h.2 (by decide +kernel) (by decide +kernel)).mpr (by decide +kernel)⟩

/-- Two readings of one percent, then the process takes three cores and ninety percent of
the memory. The third reading is the first that is looked at; it is three hundred and
ninety times the average of the others, and raises no alert. -/
theorem third_reading_no_alert :
    let cfg := defaultExactConfig
    let earlier := [polledAfter 1 1 10, polledAfter 2 2 10]
    let poll := polledAfter 3 302 900
    let s := cfg.track foundSnapshot earlier
    let rs := cfg.readings foundSnapshot earlier
    Spike cfg.cpuAlertThreshold cfg.cpuAlertMultiplier (others (rs.map Prod.fst))
      (poll.cpuPercent s) ∧
    Spike cfg.memAlertThreshold cfg.memAlertMultiplier (others (rs.map Prod.snd))
      poll.memPercent ∧
    cfg.cooledDown poll.now s.lastCPUAlertAt = true ∧
    cfg.cooledDown poll.now s.lastMemAlertAt = true ∧
    (cfg.survivingProcess s poll).2.length = 0 := by
  decide +kernel

end YominsAgent.Events
