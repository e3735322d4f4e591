import YominsAgent.Go.Float
import YominsAgent.Go.JsonText
import YominsAgent.Go.Map
import YominsAgent.Go.Regexp
import YominsAgent.Go.Utf8
import YominsAgent.Logs.Yearless

/- The parsers of JSON lines (`parse.go`).

   A line is bytes. Its JSON is decoded into Go's `map[string]any`, a map of documents in
   which the last member of a key stands and every number is a `float64`; a number beyond
   the range fails the whole line. Go visits the map in an order of its own: that order is
   a parameter of both parsers (`Range`).

   Correspondence (Go ↔ Lean):
     `Entry`                       ↔ `Parsed`: what a parser fills in of it
     `LevelError`, …               ↔ `Level`; the level "" is `none`
     `reLevelError`, `reLevelWarn` ↔ `levelErrorRe`, `levelWarnRe`
     `guessLevel`, `normLevel`, `statusLevel`, `parsePlain`, `parseJSON`,
     `parseNginxJSON`              ↔ the functions of that name
     `json.Unmarshal` into `obj`   ↔ `decodeObject`
     `fmt.Sprint(v)`               ↔ `sprint`
     `time.Unix(0, int64(f*1e9))` of what `strconv.ParseFloat` reads ↔ a parameter -/
namespace YominsAgent.Logs
open Go Lib

/-! ## Levels -/

inductive Level where
  | error
  | warn
  | info
  | debug
  deriving DecidableEq

/-- `(?i)\b(fatal|panic|emerg(ency)?|alert|crit(ical)?|err(or)?|exception|segfault)\b` -/
def levelErrorRe : Regex Char :=
  .seq wordBoundary (.seq (.oneOf [word "fatal".toList, word "panic".toList,
    .seq (word "emerg".toList) (.opt (word "ency".toList)), word "alert".toList,
    .seq (word "crit".toList) (.opt (word "ical".toList)),
    .seq (word "err".toList) (.opt (word "or".toList)), word "exception".toList,
    word "segfault".toList]) wordBoundary)

/-- `(?i)\b(warn(ing)?|deprecated|failed|failure|timeout|timed out|refused|denied)\b` -/
def levelWarnRe : Regex Char :=
  .seq wordBoundary (.seq (.oneOf [.seq (word "warn".toList) (.opt (word "ing".toList)),
    word "deprecated".toList, word "failed".toList, word "failure".toList,
    word "timeout".toList, word "timed out".toList, word "refused".toList,
    word "denied".toList]) wordBoundary)

def guessLevel (msg : Str) : Option Level :=
  if (levelErrorRe.find [] msg).isSome then some .error
  else if (levelWarnRe.find [] msg).isSome then some .warn
  else none

/-- `strings.Trim(s, "[]: ")`. -/
def trimLevel (s : Str) : Str :=
  let cut := fun c => "[]: ".toList.contains c
  trimRightFunc cut (trimLeftFunc cut s)

def levelWords : List (Level × List String) :=
  [(.error, ["emerg", "emergency", "alert", "crit", "critical", "fatal", "panic", "error", "err",
    "severe"]),
   (.warn, ["warn", "warning"]),
   (.info, ["notice", "info", "information", "note", "system"]),
   (.debug, ["debug", "trace"])]

def normLevel (s : Str) : Option Level :=
  (levelWords.find? fun lw => (lw.2.map String.toList).contains (toLower (trimLevel s))).map
    Prod.fst

def statusLevel (status : Str) : Option Level :=
  if status.head? = some '5' then some .error
  else if status.head? = some '4' then some .warn
  else if status ≠ [] then some .info
  else none

/-! ## Entries -/

structure Parsed where
  msg : Bytes
  time : Int := zeroTime
  level : Option Level
  /-- `none` is the nil map. -/
  fields : Option (Map Str Str)

def parsePlain (line : Bytes) : Parsed :=
  { msg := line, level := guessLevel (toText line), fields := none }

/-! ## Decoded objects -/

mutual

/-- Every number is in the range of `float64`. -/
def numbersFit : Json → Bool
  | .num l => (parseFloat l).isSome
  | .arr js => elemsFit js
  | .obj ms => membersFit ms
  | _ => true

def elemsFit : List Json → Bool
  | [] => true
  | j :: js => numbersFit j && elemsFit js

def membersFit : List (Str × Json) → Bool
  | [] => true
  | m :: ms => memberFits m && membersFit ms

def memberFits : Str × Json → Bool
  | (_, j) => numbersFit j

end

/-- The map of an object: the last member of a key stands. -/
def objectOf (members : List (Str × Json)) : Map Str Json :=
  members.foldl (fun m kv => m.insert kv.1 kv.2) ∅

/-- `json.Unmarshal(line, &obj)`; `null` leaves the map nil. -/
def decodeObject (line : Bytes) : Option (Map Str Json) :=
  match Json.parse (toText line) with
  | some (.obj members) => if membersFit members then some (objectOf members) else none
  | some .null => some ∅
  | _ => none

/-- The text of a `float64`. -/
def sprintNum (literal : Str) : Str := ((parseFloat literal).map sprintFloat).getD []

/-- An element put in its place in a sorted list, or in the place of one with its key. -/
def insertSorted (k v : Str) : List (Str × Str) → List (Str × Str)
  | [] => [(k, v)]
  | (k', v') :: l =>
    if k = k' then (k, v) :: l
    else if k < k' then (k, v) :: (k', v') :: l
    else (k', v') :: insertSorted k v l

/-- `map[k:v …]`, in the order of the keys. -/
def sprintMap (l : List (Str × Str)) : Str :=
  "map[".toList ++ joinWith ' ' ((l.foldl (fun l kv => insertSorted kv.1 kv.2 l) []).map
    fun kv => kv.1 ++ ':' :: kv.2) ++ [']']

mutual

/-- `fmt.Sprint` of a decoded value. -/
def sprint : Json → Str
  | .null => "<nil>".toList
  | .bool true => "true".toList
  | .bool false => "false".toList
  | .num l => sprintNum l
  | .str s => s
  | .arr js => '[' :: (joinWith ' ' (sprintElems js) ++ [']'])
  | .obj ms => sprintMap (sprintMembers ms)

def sprintElems : List Json → List Str
  | [] => []
  | j :: js => sprint j :: sprintElems js

def sprintMembers : List (Str × Json) → List (Str × Str)
  | [] => []
  | m :: ms => sprintMember m :: sprintMembers ms

def sprintMember : Str × Json → Str × Str
  | (k, j) => (k, sprint j)

end

/-! ## Structured application logs -/

/-- The first of the keys with a string that `pick` takes: what it makes of it, and the map
without it. -/
def takeFirst {α : Type} (pick : Str → Option α) : List Str → Map Str Json →
    Option (Str × α) × Map Str Json
  | [], obj => (none, obj)
  | k :: keys, obj =>
    match obj.lookup k with
    | some (.str v) =>
      match pick v with
      | some a => (some (k, a), obj.erase k)
      | none => takeFirst pick keys obj
    | _ => takeFirst pick keys obj

def messageKeys : List Str := ["msg", "message", "@message", "log"].map String.toList
def timeKeys : List Str := ["time", "ts", "timestamp", "@timestamp"].map String.toList
def levelKeys : List Str := ["level", "severity", "lvl", "log.level"].map String.toList

/-- What a member becomes as a field. -/
def fieldText : Json → Option Str
  | .str v => some v
  | .num l => some (sprintNum l)
  | .bool true => some "true".toList
  | .bool false => some "false".toList
  | _ => none

/-- The fields of what is left of the object. -/
def scalarFields (r : Range Str Json) (obj : Map Str Json) : Map Str Str :=
  collect (fun k => ((obj.lookup k).bind fieldText).map (k, ·)) (r.order obj)

/-- The object of a line that `parseJSON` takes for one. -/
def jsonObject (line : Bytes) : Option (Map Str Json) :=
  if line.head? = some 0x7B then decodeObject line else none

def parseJSON (r : Range Str Json) (line : Bytes) : Parsed :=
  match jsonObject line with
  | none => parsePlain line
  | some obj =>
    let (msg, obj) := takeFirst some messageKeys obj
    let (time, obj) := takeFirst parseRFC3339 timeKeys obj
    let (level, obj) := takeFirst (fun v => some (normLevel v)) levelKeys obj
    let msg := (msg.map fun m => toBytes m.2).getD line
    { msg := msg
      time := (time.map Prod.snd).getD zeroTime
      level := (level.bind Prod.snd).or (guessLevel (toText msg))
      fields := some (scalarFields r obj) }

/-! ## JSON access logs -/

def nginxJSONFields : List (Str × Str) :=
  [("remote_addr", "client_ip"), ("status", "status"), ("request_method", "method"),
   ("request_uri", "path"), ("uri", "path"), ("host", "vhost"), ("http_host", "vhost"),
   ("server_name", "vhost"), ("request_time", "request_time"),
   ("upstream_response_time", "upstream_time"), ("upstream_status", "upstream_status"),
   ("body_bytes_sent", "bytes"), ("http_user_agent", "user_agent"),
   ("request_id", "request_id")].map fun kn => (kn.1.toList, kn.2.toList)

/-- The field a member sets, and to what. -/
def accessField (obj : Map Str Json) (k : Str) : Option (Str × Str) :=
  match nginxJSONFields.lookup k, obj.lookup k with
  | some name, some v => if sprint v ≠ [] ∧ sprint v ≠ ['-'] then some (name, sprint v) else none
  | _, _ => none

def pathField : Str := "path".toList

/-- What stands before the first `?`. -/
def cutQuery (p : Str) : Str := ((cut ['?'] p).map Prod.fst).getD p

def cutPath (fields : Map Str Str) : Map Str Str :=
  match fields.lookup pathField with
  | some p => if p ≠ [] then fields.insert pathField (cutQuery p) else fields
  | none => fields

section

variable (unixOf : Str → Option Int)

def accessTime (obj : Map Str Json) : Int :=
  match obj.lookup "msec".toList with
  | some ms => (unixOf (sprint ms)).getD zeroTime
  | none =>
    match obj.lookup "time_iso8601".toList with
    | some (.str ts) => (parseRFC3339 ts).getD zeroTime
    | _ => zeroTime

def parseNginxJSON (r : Range Str Json) (line : Bytes) : Parsed :=
  match decodeObject line with
  | none => parsePlain line
  | some obj =>
    let fields := cutPath (collect (accessField obj) (r.order obj))
    { msg := line
      time := accessTime unixOf obj
      level := statusLevel ((fields.lookup "status".toList).getD [])
      fields := some fields }

end

end YominsAgent.Logs
