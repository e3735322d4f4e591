import YominsAgent.Lib.Comap
import YominsAgent.Logs.Parse
import YominsAgent.Logs.Redact
import YominsAgent.Logs.Tail

/- The parsers of text lines, the choice of a parser (`parse.go`) and the records of the
   journal (`journal.go`).

   A pattern is matched on the runes of a line. Each rune keeps its bytes, so that a group
   is a piece of the line also where the line is not UTF-8.

   Correspondence (Go ↔ Lean):
     `re.FindStringSubmatch`         ↔ `submatch`
     `reSyslog`, `reSyslogNoHost`, … ↔ `syslogRe`, …
     `parseJournalJSON`              ↔ `parseJournalJSON`; what it returns without an
                                       entry is `none`
     `time.Parse` of the layouts of the web servers, PHP and MySQL, `time.LoadLocation`,
     the clock and the order of the map loops ↔ `ParseEnv`
   What a field holds is shown as text, as in `Logs.Parse`. -/
namespace YominsAgent.Logs
open Go Lib

/-! ## Submatches -/

/-- The first `fuel` runes of a byte string, each with its bytes. -/
def runesFrom : Nat → Bytes → List (Char × Bytes)
  | 0, _ => []
  | fuel + 1, bs =>
    match decodeRune bs with
    | none => []
    | some (c, n) => (c, bs.take n) :: runesFrom fuel (bs.drop n)

def runes (bs : Bytes) : List (Char × Bytes) := runesFrom bs.length bs

/-- The groups of the leftmost match. -/
def submatch (re : Regex Char) (line : Bytes) : Option (Nat → Bytes) :=
  ((re.comap Prod.fst).find [] (runes line)).map fun m n => (m.group n).flatMap Prod.snd

/-! ## Patterns -/

def seqOf : List (Regex Char) → Regex Char
  | [] => .empty
  | r :: rs => .seq r (seqOf rs)

def lit (s : String) : Regex Char := seqOf (s.toList.map fun c => anyOf [c])

def noneOf (s : String) : Regex Char := .set fun c => !s.toList.contains c

def nonBlank : Regex Char := .set isNonBlank
def anyChar : Regex Char := .set isAnyChar
def wordChar : Regex Char := .set isWordChar
def twoDigits : Regex Char := .times digit 2

/-- `\d\d:\d\d:\d\d` -/
def clockRe : Regex Char := seqOf [twoDigits, lit ":", twoDigits, lit ":", twoDigits]

/-- `(?:\.\d+)?` -/
def fractionRe : Regex Char := .opt (.seq (lit ".") (.plus digit))

/-- `[A-Z][a-z]{2}` -/
def monthRe : Regex Char :=
  .seq (.set Char.isUpper) (.times (.set Char.isLower) 2)

/-- `\d{4}-\d\d-\d\dT\d\d:\d\d:\d\d(?:\.\d+)?(?:Z|[+-]\d\d:\d\d)` or
`[A-Z][a-z]{2} [ \d]\d \d\d:\d\d:\d\d` -/
def syslogStampRe : Regex Char :=
  .alt
    (seqOf [.times digit 4, lit "-", twoDigits, lit "-", twoDigits, lit "T", clockRe, fractionRe,
      .alt (lit "Z") (seqOf [anyOf ['+', '-'], twoDigits, lit ":", twoDigits])])
    (seqOf [monthRe, lit " ", .alt (lit " ") digit, digit, lit " ", clockRe])

/-- What the two patterns of a syslog line share; they differ in the host. -/
def syslogLineRe (host : Regex Char) : Regex Char :=
  seqOf [beginText, .group 1 syslogStampRe, lit " ", host,
    .group 3 (.plus (.set fun c => isNonBlank c && c != ':' && c != '[')),
    .opt (seqOf [lit "[", .group 4 (.plus digit), lit "]"]), lit ": ",
    .group 5 (.star true anyChar), endText]

/-- `^(…) (\S+) ([^:\[\s]+)(?:\[(\d+)\])?: (.*)$` -/
def syslogRe : Regex Char := syslogLineRe (.seq (.group 2 (.plus nonBlank)) (lit " "))

/-- `^(…) ()([^:\[\s]+)(?:\[(\d+)\])?: (.*)$` -/
def syslogNoHostRe : Regex Char := syslogLineRe (.group 2 .empty)

/-- `^(\S+) (?:\S+ \S+ )?\[([^\]]+)\] "([^"]*)" (\d{3}) (\d+|-)` -/
def nginxAccessRe : Regex Char :=
  seqOf [beginText, .group 1 (.plus nonBlank), lit " ",
    .opt (seqOf [.plus nonBlank, lit " ", .plus nonBlank, lit " "]),
    lit "[", .group 2 (.plus (noneOf "]")), lit "] \"", .group 3 (.star true (noneOf "\"")),
    lit "\" ", .group 4 (.times digit 3), lit " ", .group 5 (.alt (.plus digit) (lit "-"))]

/-- `^(\S+) \[([^\]]+)\] \| STREAM: (\S+) -> (\S*) \| REQ: (.*?) \| STATUS: f: (\d{3}) b: (\S*)`
and ` \| SIZE: (\d+)/[^|]*\| TIME: f: ([\d.]+) b: (\S*)` -/
def nginxFullRe : Regex Char :=
  seqOf [beginText, .group 1 (.plus nonBlank), lit " [", .group 2 (.plus (noneOf "]")),
    lit "] | STREAM: ", .group 3 (.plus nonBlank), lit " -> ", .group 4 (.star true nonBlank),
    lit " | REQ: ", .group 5 (.star false anyChar), lit " | STATUS: f: ",
    .group 6 (.times digit 3), lit " b: ", .group 7 (.star true nonBlank), lit " | SIZE: ",
    .group 8 (.plus digit), lit "/", .star true (noneOf "|"), lit "| TIME: f: ",
    .group 9 (.plus (.set fun c => c.isDigit || c == '.')), lit " b: ",
    .group 10 (.star true nonBlank)]

/-- `^(\d{4}/\d\d/\d\d \d\d:\d\d:\d\d) \[(\w+)\] (\d+)#\d+: (.*)$` -/
def nginxErrorRe : Regex Char :=
  seqOf [beginText,
    .group 1 (seqOf [.times digit 4, lit "/", twoDigits, lit "/", twoDigits, lit " ", clockRe]),
    lit " [", .group 2 (.plus wordChar), lit "] ", .group 3 (.plus digit), lit "#", .plus digit,
    lit ": ", .group 4 (.star true anyChar), endText]

/-- `^\[(\d\d-[A-Z][a-z]{2}-\d{4} \d\d:\d\d:\d\d)(?: ([^\]]+))?\] ` and
`(?:PHP )?([A-Za-z ]+?)(?: error)?: (.*)$` -/
def phpRe : Regex Char :=
  let kind : Regex Char := .set fun c => c.isAlpha || c == ' '
  seqOf [beginText, lit "[",
    .group 1 (seqOf [twoDigits, lit "-", monthRe, lit "-", .times digit 4, lit " ", clockRe]),
    .opt (.seq (lit " ") (.group 2 (.plus (noneOf "]")))), lit "] ", .opt (lit "PHP "),
    .group 3 (.seq kind (.star false kind)), .opt (lit " error"), lit ": ",
    .group 4 (.star true anyChar), endText]

/-- `^(\d{4}-\d\d-\d\d[ T]\d\d:\d\d:\d\d(?:\.\d+)?Z?)\s+\d+ \[(\w+)\] (.*)$` -/
def mySQLRe : Regex Char :=
  seqOf [beginText,
    .group 1 (seqOf [.times digit 4, lit "-", twoDigits, lit "-", twoDigits, anyOf [' ', 'T'],
      clockRe, fractionRe, .opt (lit "Z")]),
    .plus (.set isBlankChar), .plus digit, lit " [", .group 2 (.plus wordChar), lit "] ",
    .group 3 (.star true anyChar), endText]

/-! ## Parsers -/

structure ParseEnv where
  now : Int
  /-- `02/Jan/2006:15:04:05 -0700` -/
  accessTime : Str → Option Int
  /-- `2006/01/02 15:04:05`, local -/
  errorTime : Str → Option Int
  /-- `02-Jan-2006 15:04:05` in the zone of that name, local if there is none -/
  phpTime : Str → Str → Option Int
  /-- the two layouts of MySQL -/
  mySQLTime : Str → Option Int
  /-- a number of seconds since 1970 -/
  unixOf : Str → Option Int
  range : Range Str Json

def fieldsOf (l : List (String × Bytes)) : Map Str Str :=
  l.foldl (fun m kv => m.insert kv.1.toList (toText kv.2)) ∅

/-- `field[k] = v` unless `v` is one of some texts that mean nothing. -/
def fieldUnless (nothing : List String) (k : String) (v : Bytes) : List (String × Bytes) :=
  if nothing.any fun s => toBytes s.toList == v then [] else [(k, v)]

/-- `strings.Cut(s, " ")` at a one-byte separator. -/
def cutByte (sep : UInt8) (s : Bytes) : Option (Bytes × Bytes) :=
  if s.contains sep then some (s.takeWhile (· != sep), (s.dropWhile (· != sep)).drop 1) else none

/-- What stands before the separator, or everything. -/
def beforeByte (sep : UInt8) (s : Bytes) : Bytes := s.takeWhile (· != sep)

/-- `Error: …`, `<warning> …`. -/
def levelFromPrefix (msg : Bytes) : Option Level :=
  match cutByte 0x3A msg with
  | none => none
  | some (head, _) =>
    if 12 < head.length then none
    else normLevel (toText (head.reverse.takeWhile (· != 0x20)).reverse)

/-- The method and the path of a request line. -/
def requestFields (request : Bytes) : List (String × Bytes) :=
  match cutByte 0x20 request with
  | none => []
  | some (method, rest) => [("method", method), ("path", beforeByte 0x3F (beforeByte 0x20 rest))]

section
variable (env : ParseEnv)

def syslogTime (s : Str) : Int := (parseRFC3339 s).getD (yearless env.now s)

def parseSyslog (line : Bytes) : Parsed :=
  let m := ((submatch syslogRe line).filter fun m => (m 2).getLast? ≠ some 0x3A).or
    (submatch syslogNoHostRe line)
  match m with
  | none => parsePlain line
  | some m =>
    { msg := line
      time := syslogTime env (toText (m 1))
      level := (levelFromPrefix (m 5)).or (guessLevel (toText (m 5)))
      fields := some (fieldsOf ([("program", m 3)] ++ fieldUnless [""] "pid" (m 4))) }

def nginxFull (line : Bytes) (m : Nat → Bytes) : Parsed :=
  { msg := line
    time := (env.accessTime (toText (m 2))).getD zeroTime
    level := statusLevel (toText (m 6))
    fields := some (fieldsOf (
      [("client_ip", m 1), ("vhost", m 3), ("status", m 6), ("bytes", m 8),
        ("request_time", m 9)] ++
      fieldUnless ["", "-"] "upstream" (m 4) ++ fieldUnless ["", "-"] "upstream_status" (m 7) ++
      fieldUnless ["", "-"] "upstream_time" (m 10) ++ requestFields (m 5))) }

def parseNginxAccess (line : Bytes) : Parsed :=
  if line.head? = some 0x7B then parseNginxJSON env.unixOf env.range line
  else
    match submatch nginxFullRe line with
    | some m => nginxFull env line m
    | none =>
      match submatch nginxAccessRe line with
      | none => parsePlain line
      | some m =>
        { msg := line
          time := (env.accessTime (toText (m 2))).getD zeroTime
          level := statusLevel (toText (m 4))
          fields := some (fieldsOf ([("client_ip", m 1), ("status", m 4)] ++ requestFields (m 3) ++
            fieldUnless ["-"] "bytes" (m 5))) }

def parseNginxError (line : Bytes) : Parsed :=
  match submatch nginxErrorRe line with
  | none => parsePlain line
  | some m =>
    { msg := line
      time := (env.errorTime (toText (m 1))).getD zeroTime
      level := normLevel (toText (m 2))
      fields := some (fieldsOf [("pid", m 3)]) }

def phpLevel (kind : Str) : Option Level :=
  if ["fatal", "parse", "catchable fatal", "recoverable fatal"].any (·.toList == kind) then
    some .error
  else if ["deprecated", "strict standards"].any (·.toList == kind) then some .warn
  else normLevel kind

def parsePHPFPM (line : Bytes) : Parsed :=
  match submatch phpRe line with
  | none => parsePlain line
  | some m =>
    { msg := line
      time := (env.phpTime (toText (m 2)) (toText (m 1))).getD zeroTime
      level := (phpLevel (toLower (toText (m 3)))).or (guessLevel (toText (m 4)))
      fields := none }

def parseMySQL (line : Bytes) : Parsed :=
  match submatch mySQLRe line with
  | none => parsePlain line
  | some m =>
    { msg := line
      time := (env.mySQLTime (toText (m 1))).getD zeroTime
      level := normLevel (toText (m 2))
      fields := none }

/-- `{"log":"…\n","stream":"stderr","time":"…"}` -/
structure DockerLine where
  log : Str := []
  stream : Str := []
  time : Int := zeroTime

/-- `time.Time` in JSON. -/
def decodeTime : Json.Dec Int
  | old, .null => some old
  | _, .str s => parseRFC3339 s
  | _, _ => none

def dockerFields : List (Json.Field DockerLine) :=
  [.value "log".toList (·.log) (fun d v => { d with log := v }) .str Json.decodeString,
   .value "stream".toList (·.stream) (fun d v => { d with stream := v }) .str Json.decodeString,
   .value "time".toList (·.time) (fun d v => { d with time := v })
     (fun t => .str (formatRFC3339Nano t)) decodeTime]

def decodeDocker (line : Bytes) : Option DockerLine :=
  (Json.parse (toText line)).bind (Json.decodeStruct dockerFields {})

def parseDockerJSON (line : Bytes) : Parsed :=
  match decodeDocker line with
  | none => parsePlain line
  | some d =>
    let inner := toBytes (trimRightFunc (fun c => c == '\r' || c == '\n') d.log)
    let e := parseJSON env.range inner
    { msg := e.msg
      time := if e.time = zeroTime then d.time else e.time
      level := if e.level = none ∧ d.stream = "stderr".toList then guessLevel (toText e.msg)
        else e.level
      fields := some ((e.fields.getD ∅).insert "stream".toList d.stream) }

def parseAuto (line : Bytes) : Parsed :=
  if line.head? = some 0x7B then parseJSON env.range line
  else if (submatch syslogRe line).isSome || (submatch syslogNoHostRe line).isSome then
    parseSyslog env line
  else parsePlain line

/-- The parsers that have a name of their own. -/
def namedParsers : List (String × (Bytes → Parsed)) :=
  [("syslog", parseSyslog env), ("nginx_access", parseNginxAccess env),
   ("nginx_error", parseNginxError env), ("php_fpm", parsePHPFPM env),
   ("mysql", parseMySQL env), ("json", parseJSON env.range),
   ("docker_json", parseDockerJSON env), ("auto", parseAuto env)]

def parserFor (name : Str) : Bytes → Parsed :=
  (((namedParsers env).find? fun p => p.1.toList == name).map Prod.snd).getD parsePlain

def parserForFile (name path : Str) : Bytes → Parsed :=
  let isError := contains (base path) "error".toList
  if name = "nginx_any".toList then
    if isError then parseNginxError env else parseNginxAccess env
  else if name = "apache_any".toList then
    if isError then parsePlain else parseNginxAccess env
  else parserFor env name

end

/-! ## The journal -/

/-- `byte(f)`. -/
def byteOf (f : GoFloat) : UInt8 :=
  UInt8.ofNat ((if f.neg then -f.abs.floor else f.abs.floor) % 256).toNat

/-- A field of the journal: a string, or an array of bytes. -/
def journalString : Option Json → Bytes
  | none | some .null => []
  | some (.str s) => toBytes s
  | some (.arr js) => js.filterMap fun
    | .num l => (parseFloat l).map byteOf
    | _ => none
  | some v => toBytes (sprint v)

def priorityLevel (priority : Str) : Option (Option Level) :=
  if ["0", "1", "2", "3"].any (·.toList == priority) then some (some .error)
  else if priority = "4".toList then some (some .warn)
  else if ["5", "6"].any (·.toList == priority) then some (some .info)
  else if priority = "7".toList then some (some .debug)
  else none

structure JournalEntry where
  parsed : Parsed
  unit : Bytes
  cursor : Str

def parseJournalJSON (line : Bytes) : Option JournalEntry :=
  match decodeObject line with
  | none => none
  | some raw =>
    let text (k : String) : Bytes := journalString (raw.lookup k.toList)
    let cursor := match raw.lookup "__CURSOR".toList with
      | some (.str s) => s
      | _ => []
    let msg := text "MESSAGE"
    if cursor = [] ∨ msg = [] then none
    else
      let msg := cutLine msg
      some
        { parsed :=
            { msg
              time := ((atoi (toText (text "__REALTIME_TIMESTAMP"))).map (· * 1000)).getD zeroTime
              level := (priorityLevel (toText (text "PRIORITY"))).getD (guessLevel (toText msg))
              fields := some (fieldsOf (fieldUnless [""] "program" (text "SYSLOG_IDENTIFIER") ++
                fieldUnless [""] "pid" (text "_PID"))) }
          unit := text "_SYSTEMD_UNIT"
          cursor }

end YominsAgent.Logs
