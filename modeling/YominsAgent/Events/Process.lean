import YominsAgent.Events.Types
import YominsAgent.Go.Map
import YominsAgent.Go.Path

/- The watch over the processes (`internal/events/process/collector.go`,
   `snapshot.go`): each poll compares the list of processes with those it tracks.

   Correspondence (Go ↔ Lean):
     the two loops of `poll` ↔ `exitStep`, `sampleStep`, folded by `poll`
   What a loop appends to `evs` is a `Notice`, the process with what is said about it;
   `makeEvent` turns it into the event. A compiled pattern is the predicate
   `MatchString`. The mutex makes a poll one step. -/
namespace YominsAgent.Events
open Go

structure Sample where
  pid : Int
  ppid : Int
  name : Str
  /-- The start time in clock ticks since boot. -/
  start : Nat
  cpu : Nat
  rss : Nat

structure ProcessConfig where
  cpuAlertThreshold : Float
  cpuAlertMultiplier : Float
  memAlertThreshold : Float32
  memAlertMultiplier : Float32
  alertCooldown : Int
  monitorLifecycle : Bool
  monitorTmpPaths : Bool
  patterns : List (Str → Bool)
  reverseShells : List (Str → Bool)
  host : HostInfo
  agent : AgentInfo

def rollingWindowSize : Nat := 5

structure ProcessSnapshot where
  pid : Int
  ppid : Int
  name : Str
  exe : Str
  cmdline : Str
  /-- The process was found after the start of the agent. -/
  isNew : Bool
  start : Nat
  cpuTicks : Nat
  sampledAt : Int
  cpuHistory : List Float := List.replicate rollingWindowSize 0
  memHistory : List Float32 := List.replicate rollingWindowSize 0
  historyIdx : Nat := 0
  historyFilled : Nat := 0
  lastCPUAlertAt : Int := zeroTime
  lastMemAlertAt : Int := zeroTime

/-- A process, through all reuses of its PID. -/
abbrev Instance := Int × Nat

def Sample.inst (p : Sample) : Instance := (p.pid, p.start)

def ProcessSnapshot.inst (s : ProcessSnapshot) : Instance := (s.pid, s.start)

abbrev Procs := Map Int ProcessSnapshot

/-! ## The rolling windows -/

namespace ProcessSnapshot

def advance (s : ProcessSnapshot) : ProcessSnapshot :=
  { s with
    historyIdx := (s.historyIdx + 1) % rollingWindowSize
    historyFilled :=
      if s.historyFilled < rollingWindowSize then s.historyFilled + 1 else s.historyFilled }

def cpuAvg (s : ProcessSnapshot) : Float :=
  if s.historyFilled = 0 then 0
  else (s.cpuHistory.take s.historyFilled).foldl (· + ·) 0 / Float.ofNat s.historyFilled

def memAvg (s : ProcessSnapshot) : Float32 :=
  if s.historyFilled = 0 then 0
  else (s.memHistory.take s.historyFilled).foldl (· + ·) 0 / Float32.ofNat s.historyFilled

/-- The snapshot with the two readings; the averages are `cpuAvg` and `memAvg` of it. -/
def pushMetrics (s : ProcessSnapshot) (cpu : Float) (mem : Float32) : ProcessSnapshot :=
  { s with
    cpuHistory := s.cpuHistory.set s.historyIdx cpu
    memHistory := s.memHistory.set s.historyIdx mem }.advance

def readyForAnomaly (s : ProcessSnapshot) : Bool := 3 ≤ s.historyFilled

end ProcessSnapshot

/-! ## Events -/

inductive Notice where
  | start (s : ProcessSnapshot)
  | stop (s : ProcessSnapshot)
  | execTmp (s : ProcessSnapshot)
  | reverseShell (s : ProcessSnapshot)
  | suspicious (s : ProcessSnapshot)
  | cpu (s : ProcessSnapshot) (current : Float)
  | mem (s : ProcessSnapshot) (current : Float32)

section
variable (cfg : ProcessConfig) (id : Notice → Str) (now : Int)

/-- The events of the notices about a whole process. -/
def processEvent (n : Notice) (type : EventType) (category : Category) (severity : Severity)
    (confidence : Option Confidence) (tag : Str) (s : ProcessSnapshot) : Event :=
  { id := id n, timestamp := now, type, category, severity, confidence
    host := cfg.host, agent := cfg.agent
    process := some { name := s.name, pid := s.pid, ppid := s.ppid, cmdline := s.cmdline, exe := s.exe }
    tags := ["process".toList, tag] }

/-- The event constructors; `id` is what `uuid.New` returns. -/
def makeEvent : Notice → Event
  | n@(.start s) =>
    processEvent cfg id now n .processStart .systemCheck .info none "start".toList s
  | n@(.stop s) =>
    processEvent cfg id now n .processStop .systemCheck .info none "stop".toList s
  | n@(.suspicious s) =>
    processEvent cfg id now n .processSuspicious .threatActivity .critical none "suspicious".toList s
  | n@(.execTmp s) =>
    processEvent cfg id now n .processExecTmp .threatActivity .warning (some .medium)
      "exec_tmp".toList s
  | n@(.reverseShell s) =>
    processEvent cfg id now n .processReverseShell .threatActivity .critical (some .high)
      "reverse_shell".toList s
  | n@(.cpu s current) =>
    { id := id n, timestamp := now, type := .processHighCPU, category := .systemCheck
      severity := .warning, host := cfg.host, agent := cfg.agent
      process := some { name := s.name, pid := s.pid, cmdline := s.cmdline, cpuPercent := current }
      context := some { reason := "cpu_spike".toList }
      tags := ["process".toList, "high_cpu".toList] }
  | n@(.mem s current) =>
    { id := id n, timestamp := now, type := .processHighMemory, category := .systemCheck
      severity := .warning, host := cfg.host, agent := cfg.agent
      process := some { name := s.name, pid := s.pid, cmdline := s.cmdline, memoryPercent := current }
      context := some { reason := "memory_spike".toList }
      tags := ["process".toList, "high_memory".toList] }

end

/-! ## A poll -/

def defaultTmpPaths : List Str := ["/tmp/".toList, "/var/tmp/".toList, "/dev/shm/".toList]

def isExecFromTmp (exe : Str) : Bool := defaultTmpPaths.any fun pre => hasPrefix exe pre

def isReverseShell (cfg : ProcessConfig) (cmdline : Str) : Bool :=
  cfg.reverseShells.any fun re => re cmdline

def isSuspicious (cfg : ProcessConfig) (cmdline : Str) : Bool := cfg.patterns.any fun re => re cmdline

/-- What one tick of the ticker meets. -/
structure ProcessPoll where
  /-- `none` if the processes cannot be listed. -/
  list : Option (List Sample)
  /-- The two readings of the clock. -/
  mono : Int
  now : Int
  memTotal : Nat
  clockTicks : Float
  /-- The binary path and the command line of a PID. -/
  details : Int → Str × Str
  id : Notice → Str
  /-- The order in which the tracked processes are looked at. -/
  exits : Range Int ProcessSnapshot

def snapshotProcess (details : Int → Str × Str) (p : Sample) (isNew : Bool) (now : Int) :
    ProcessSnapshot :=
  let (exe, cmdline) := details p.pid
  { pid := p.pid, ppid := p.ppid, name := p.name, exe
    cmdline := if cmdline.isEmpty then p.name else cmdline
    isNew, start := p.start, cpuTicks := p.cpu, sampledAt := now }

/-- The processes of the first list, of which no start or stop is reported. -/
def buildBaseline (details : Int → Str × Str) (now : Int) (list : Option (List Sample)) : Procs :=
  (list.getD []).foldl (fun procs p => procs.insert p.pid (snapshotProcess details p false now)) ∅

section
variable (cfg : ProcessConfig)

def newProcessEvents (s : ProcessSnapshot) : List Notice :=
  (if cfg.monitorLifecycle then [.start s] else []) ++
  (if cfg.monitorTmpPaths && isExecFromTmp s.exe then [.execTmp s] else []) ++
  if isReverseShell cfg s.cmdline then [.reverseShell s]
  else if isSuspicious cfg s.cmdline then [.suspicious s]
  else []

/-- `t.Sub(u)` saturates. -/
def timeSub (t u : Int) : Int := max (-2 ^ 63) (min (2 ^ 63 - 1) (t - u))

/-- `Duration.Seconds`. -/
def seconds (d : Int) : Float :=
  Float.ofInt (d.tdiv second) + Float.ofInt (d.tmod second) / 1e9

/-- The last alert is longer ago than the cooldown. -/
def cooledDown (now last : Int) : Bool := cfg.alertCooldown < timeSub now last

/-- The share of one core used since the last poll. -/
def cpuPercent (poll : ProcessPoll) (p : Sample) (s : ProcessSnapshot) : Float :=
  let elapsed := seconds (timeSub poll.mono s.sampledAt)
  if elapsed > 0 && s.cpuTicks ≤ p.cpu then
    Float.ofNat (p.cpu - s.cpuTicks) / poll.clockTicks / elapsed * 100
  else 0

def memPercent (poll : ProcessPoll) (p : Sample) : Float32 :=
  if 0 < poll.memTotal then (Float.ofNat p.rss / Float.ofNat poll.memTotal * 100).toFloat32 else 0

def alertCPU (now : Int) (cpu cpuAvg : Float) (s : ProcessSnapshot) : ProcessSnapshot × List Notice :=
  if cpu > cfg.cpuAlertThreshold && (cpuAvg == 0 || cpu > cfg.cpuAlertMultiplier * cpuAvg) &&
      cooledDown cfg now s.lastCPUAlertAt then
    ({ s with lastCPUAlertAt := now }, [.cpu s cpu])
  else (s, [])

def alertMem (now : Int) (mem memAvg : Float32) (s : ProcessSnapshot) :
    ProcessSnapshot × List Notice :=
  if mem > cfg.memAlertThreshold && (memAvg == 0 || mem > cfg.memAlertMultiplier * memAvg) &&
      cooledDown cfg now s.lastMemAlertAt then
    ({ s with lastMemAlertAt := now }, [.mem s mem])
  else (s, [])

/-- The part of the second loop about a process that was there before. -/
def survivingProcess (poll : ProcessPoll) (p : Sample) (s : ProcessSnapshot) :
    ProcessSnapshot × List Notice :=
  let cpu := cpuPercent poll p s
  let mem := memPercent poll p
  let s := { s with cpuTicks := p.cpu, sampledAt := poll.mono }.pushMetrics cpu mem
  if !s.readyForAnomaly then (s, [])
  else
    let (cpuAvg, memAvg) := (s.cpuAvg, s.memAvg)
    let (s, cpuEvs) := alertCPU cfg poll.now cpu cpuAvg s
    let (s, memEvs) := alertMem cfg poll.now mem memAvg s
    (s, cpuEvs ++ memEvs)

def samplesByPID (list : List Sample) : Map Int Sample :=
  list.foldl (fun current p => current.insert p.pid p) ∅

/-- One turn of the first loop: a process that is gone, or whose PID was reused, is not
tracked any more. -/
def exitStep (current : Map Int Sample) (state : Procs × List Notice) (pid : Int) :
    Procs × List Notice :=
  let (procs, evs) := state
  match procs.lookup pid with
  | none => state
  | some s =>
    if (current.lookup pid).any fun p => p.start == s.start then state
    else (procs.erase pid, evs ++ if s.isNew && cfg.monitorLifecycle then [.stop s] else [])

/-- One turn of the second loop. -/
def sampleStep (poll : ProcessPoll) (state : Procs × List Notice) (p : Sample) :
    Procs × List Notice :=
  let (procs, evs) := state
  match procs.lookup p.pid with
  | none =>
    let s := snapshotProcess poll.details p true poll.mono
    (procs.insert p.pid s, evs ++ newProcessEvents cfg s)
  | some s =>
    let (s, alerts) := survivingProcess cfg poll p s
    (procs.insert p.pid s, evs ++ alerts)

/-- The tracked processes after a poll, and what it has to say. -/
def poll (procs : Procs) (p : ProcessPoll) : Procs × List Notice :=
  match p.list with
  | none => (procs, [])
  | some list =>
    let state := (p.exits.order procs).foldl (exitStep cfg (samplesByPID list)) (procs, [])
    list.foldl (sampleStep cfg p) state

/-- What `poll` returns. -/
def pollEvents (procs : Procs) (p : ProcessPoll) : List Event :=
  (poll cfg procs p).2.map (makeEvent cfg p.id p.now)

end

end YominsAgent.Events
