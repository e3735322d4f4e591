import YominsAgent.Events.Bruteforce
import YominsAgent.Go.Json
import YominsAgent.Go.Regexp
import YominsAgent.Lib.Search

/- The lines of the authentication log (`internal/events/auth/collector.go`,
   `journal_linux.go`): three patterns are searched one after the other, each anywhere in
   the line, and the first that matches makes the event.

   What `uuid.New` and `time.Now` give is an argument. -/
namespace YominsAgent.Events
open Go Lib

/-! ## The patterns -/

/-- `\S+` -/
def nonBlanks : Regex Char := .plus (.set isNonBlank)

/-- What `\S+` takes. -/
def IsWord (s : Str) : Prop := s ≠ [] ∧ ∀ c ∈ s, isNonBlank c = true

theorem accepts_nonBlanks {b w a : Str} : Accepts nonBlanks b w a ↔ IsWord w := accepts_plus_set

/-- `[\d.]` -/
def isAddressChar (c : Char) : Bool := c.isDigit || c == '.'

/-- What both login patterns end in: ` from ([\d.]+) port \d+` -/
def reportTail (n : Nat) : Regex Char :=
  .seq (.lit " from ".toList) (.seq (.group n (.plus (.set isAddressChar)))
    (.seq (.lit " port ".toList) (.plus (.set Char.isDigit))))

/-- `Failed (\S+) for (?:invalid user )?(\S+)` -/
def failedFront : Regex Char :=
  .seq (.lit "Failed ".toList) (.seq (.group 1 nonBlanks) (.seq (.lit " for ".toList)
    (.seq (.opt (.lit "invalid user ".toList)) (.group 2 nonBlanks))))

/-- `Failed (\S+) for (?:invalid user )?(\S+) from ([\d.]+) port \d+` -/
def reLoginFailed : Regex Char := .seq failedFront (reportTail 3)

/-- `Invalid user (\S+)` -/
def invalidFront : Regex Char := .seq (.lit "Invalid user ".toList) (.group 1 nonBlanks)

/-- `Invalid user (\S+) from ([\d.]+) port \d+` -/
def reInvalidUser : Regex Char := .seq invalidFront (reportTail 2)

/-- `sudo:\s+(\S+)\s*:` -/
def sudoFront : Regex Char :=
  .seq (.lit "sudo:".toList) (.seq (.plus (.set isBlankChar)) (.seq (.group 1 nonBlanks)
    (.seq (.star true (.set isBlankChar)) (.lit ":".toList))))

/-- `COMMAND=(.+)$` -/
def sudoCommand : Regex Char :=
  .seq (.lit "COMMAND=".toList) (.seq (.group 2 (.plus (.set isAnyChar))) endText)

/-- `.*?COMMAND=(.+)$` -/
def commandTail : Regex Char := .seq (.star false (.set isAnyChar)) sudoCommand

/-- `sudo:\s+(\S+)\s*:.*?COMMAND=(.+)$` -/
def reSudo : Regex Char := .seq sudoFront commandTail

/-! ## The events -/

def loginFailedEvent (cfg : AuthConfig) (id : Str) (now : Int) (user ip method reason : Str) :
    Event where
  id := id
  timestamp := now
  type := .authLoginFailed
  category := .accessEvent
  severity := .warning
  host := cfg.host
  agent := cfg.agent
  actor := some { user, ip, method }
  context := some { reason, service := "sshd".toList }
  tags := ["auth".toList, "failed_login".toList]

/-- The event of a command run by `sudo`. -/
def sudoEvent (cfg : AuthConfig) (id : Str) (now : Int) (user command : Str) : Event where
  id := id
  timestamp := now
  type := .authSudo
  category := .accessEvent
  severity := .warning
  host := cfg.host
  agent := cfg.agent
  actor := some { user, targetUser := "root".toList, command }
  tags := ["auth".toList, "sudo".toList]

def parseAuthLogLine (cfg : AuthConfig) (id : Str) (now : Int) (line : Str) : Option Event :=
  match reLoginFailed.find [] line with
  | some m =>
    some (loginFailedEvent cfg id now (m.group 2) (m.group 3) (m.group 1)
      "invalid_password".toList)
  | none =>
    match reInvalidUser.find [] line with
    | some m =>
      some (loginFailedEvent cfg id now (m.group 1) (m.group 2) "preauth".toList
        "invalid_user".toList)
    | none =>
      match reSudo.find [] line with
      | some m => some (sudoEvent cfg id now (trimSpace (m.group 1)) (trimSpace (m.group 2)))
      | none => none

/-! ## The journal -/

structure JournalEntry where
  message : Str
  comm : Str
  deriving DecidableEq, Repr

def JournalEntry.fields : List (Json.Field JournalEntry) :=
  [.value "MESSAGE".toList (·.message) (fun e message => { e with message }) .str Json.decodeString,
    .value "_COMM".toList (·.comm) (fun e comm => { e with comm }) .str Json.decodeString]

/-- `json.Unmarshal` into a `journalEntry`. -/
def JournalEntry.unmarshal (line : Str) : Option JournalEntry :=
  (Json.parse line).bind (Json.decodeStruct JournalEntry.fields ⟨[], []⟩)

/-- The line `journalctl` writes for the entry. -/
def JournalEntry.marshal (e : JournalEntry) : Str :=
  Json.print (Json.encodeStruct JournalEntry.fields e)

theorem JournalEntry.unmarshal_marshal (e : JournalEntry) :
    JournalEntry.unmarshal e.marshal = some e := by
  have hwritten : Json.Written Json.maxNestingDepth (Json.encodeStruct JournalEntry.fields e) := by
    refine Json.written_encodeStruct ?_ e
    show _ ∧ _
    exact ⟨Json.writes_value .str, Json.writes_value .str⟩
  rw [JournalEntry.unmarshal, JournalEntry.marshal, Json.parse_written hwritten, Option.bind_some,
    Json.decode_encode (by decide)]
  refine Json.transferAll_cons (Json.transfer_value rfl) ?_
  exact Json.transferAll_cons (Json.transfer_value rfl) rfl

def parseJournalLine (cfg : AuthConfig) (id : Str) (now : Int) (line : Str) : Option Event :=
  match JournalEntry.unmarshal line with
  | none => none
  | some entry =>
    let msg := if entry.comm = "sudo".toList then "sudo: ".toList ++ entry.message else entry.message
    parseAuthLogLine cfg id now msg

def plainConfig : AuthConfig := ⟨0, 0, 0, ⟨[], []⟩, ⟨[], []⟩⟩

end YominsAgent.Events
