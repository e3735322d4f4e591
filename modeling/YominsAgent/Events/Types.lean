import YominsAgent.Go.Strings

/- The security events (`internal/events/types.go`): what the collectors put into an
   event and the transport sends. Times are nanoseconds since the epoch, and an
   empty string is a field that is not set.

   Correspondence (Go ↔ Lean):
     `Event` ↔ `Event`, a nil pointer is `none` -/
namespace YominsAgent.Events
open Go

/-- The zero `time.Time`: the first instant of the year 1. -/
def zeroTime : Int := -62135596800 * second

inductive EventType where
  | authLoginSuccess | authLoginFailed | authLogout | authSudo | authBruteforceDetected
  | authLoginNewIP
  | processStart | processStop | processHighCPU | processHighMemory | processSuspicious
  | processExecTmp | processReverseShell
  | networkConnectionOpen | networkScanDetected | networkSuspiciousPort
  | systemReboot | systemOOMKiller | systemUserCreated | systemUserDeleted | systemConfigModified
  deriving DecidableEq, Repr

inductive Category where
  | accessEvent | threatActivity | systemCheck
  deriving DecidableEq, Repr

inductive Severity where
  | info | warning | critical
  deriving DecidableEq, Repr

inductive Confidence where
  | low | medium | high
  deriving DecidableEq, Repr

structure HostInfo where
  hostname : Str
  ip : Str
  deriving DecidableEq, Repr

structure AgentInfo where
  name : Str
  version : Str
  deriving DecidableEq, Repr

structure ActorInfo where
  user : Str
  uid : Int := 0
  ip : Str := []
  method : Str := []
  targetUser : Str := []
  command : Str := []
  deriving DecidableEq, Repr

structure ContextInfo where
  tty : Str := []
  remoteIP : Str := []
  reason : Str := []
  service : Str := []
  deriving DecidableEq, Repr

structure ProcessDetail where
  name : Str
  pid : Int
  ppid : Int := 0
  cmdline : Str
  exe : Str := []
  cpuPercent : Float := 0
  memoryPercent : Float32 := 0

structure NetworkDetail where
  localIP : Str
  localPort : UInt16
  proto : Str
  deriving DecidableEq, Repr

structure Event where
  id : Str
  timestamp : Int
  type : EventType
  category : Category
  severity : Severity
  confidence : Option Confidence := none
  host : HostInfo
  agent : AgentInfo
  actor : Option ActorInfo := none
  context : Option ContextInfo := none
  tags : List Str
  process : Option ProcessDetail := none
  network : Option NetworkDetail := none

end YominsAgent.Events
