import YominsAgent.Go.Duration
import YominsAgent.Go.Json
import YominsAgent.Go.Utf8

/- The configuration an admin sets in the portal (`internal/remote/remote.go`): its form on disk,
   what is refused, and how it is laid over the local one.

   A configuration written and read back is the same up to lists that were empty and are nil now
   (`load_marshal`); `Apply` makes the same of both, up to the same difference, unless the local
   configuration disables collectors itself (`apply_omitEmpty`).

   Correspondence (Go ↔ Lean):
     `Config`, `LogsConfig`, `IntegrationsConfig`, `EventsConfig`, `Stored`
                                       ↔ the structures of that name, a pointer
                                         as an `Option`, their tags in `fields`
     `config.Config`                   ↔ `LocalConfig`: the fields `Apply` sets
     the file and its `.tmp`           ↔ `StateDir`
     `logs.SplitTyped`, `reSourceName` ↔ `splitTyped`, `isSourceName`
     `regexp.Compile`                  ↔ the parameter `compiles` -/
namespace YominsAgent.Remote
open Go List Option

/-- `YOMINS_REMOTE_CONFIG`. -/
inductive Mode where
  | full
  | limited
  | off
  deriving DecidableEq, Repr

structure LogsConfig where
  enabled : Option Bool
  paths : Slice Str
  exclude : Slice Str
  redact : Slice Str
  deriving DecidableEq, Repr

structure IntegrationsConfig where
  enabled : Option Bool
  nginxStatusURL : Option Str
  scrapeURLs : Slice Str
  deriving DecidableEq, Repr

structure EventsConfig where
  enabled : Option Bool
  auth : Option Bool
  process : Option Bool
  network : Option Bool
  system : Option Bool
  processLifecycle : Option Bool
  deriving DecidableEq, Repr

structure Config where
  interval : Option Str
  disabledCollectors : Slice Str
  logs : Option LogsConfig
  integrations : Option IntegrationsConfig
  events : Option EventsConfig
  deriving DecidableEq, Repr

/-- What is kept on disk and served by the ingest server. -/
structure Stored where
  version : Str
  config : Config
  deriving DecidableEq, Repr

def LogsConfig.zero : LogsConfig := ⟨none, none, none, none⟩
def IntegrationsConfig.zero : IntegrationsConfig := ⟨none, none, none⟩
def EventsConfig.zero : EventsConfig := ⟨none, none, none, none, none, none⟩
def Config.zero : Config := ⟨none, none, none, none, none⟩
def Stored.zero : Stored := ⟨[], Config.zero⟩

/-! ## The form on disk -/

section Fields

variable {σ : Type}

def boolField (name : String) (get : σ → Option Bool) (set : σ → Option Bool → σ) : Json.Field σ :=
  .ptr name.toList get set false .bool Json.decodeBool

def stringField (name : String) (get : σ → Option Str) (set : σ → Option Str → σ) : Json.Field σ :=
  .ptr name.toList get set [] .str Json.decodeString

def listField (name : String) (get : σ → Slice Str) (set : σ → Slice Str → σ) : Json.Field σ :=
  .slice name.toList get set

def structField {τ : Type} (name : String) (fields : List (Json.Field τ)) (zero : τ)
    (get : σ → Option τ) (set : σ → Option τ → σ) : Json.Field σ :=
  .ptr name.toList get set zero (Json.encodeStruct fields) (Json.decodeStruct fields)

end Fields

def LogsConfig.fields : List (Json.Field LogsConfig) :=
  [boolField "enabled" (·.enabled) fun c x => { c with enabled := x },
    listField "paths" (·.paths) fun c x => { c with paths := x },
    listField "exclude" (·.exclude) fun c x => { c with exclude := x },
    listField "redact" (·.redact) fun c x => { c with redact := x }]

def IntegrationsConfig.fields : List (Json.Field IntegrationsConfig) :=
  [boolField "enabled" (·.enabled) fun c x => { c with enabled := x },
    stringField "nginx_status_url" (·.nginxStatusURL) fun c x => { c with nginxStatusURL := x },
    listField "scrape_urls" (·.scrapeURLs) fun c x => { c with scrapeURLs := x }]

def EventsConfig.fields : List (Json.Field EventsConfig) :=
  [boolField "enabled" (·.enabled) fun c x => { c with enabled := x },
    boolField "auth" (·.auth) fun c x => { c with auth := x },
    boolField "process" (·.process) fun c x => { c with process := x },
    boolField "network" (·.network) fun c x => { c with network := x },
    boolField "system" (·.system) fun c x => { c with system := x },
    boolField "process_lifecycle" (·.processLifecycle) fun c x => { c with processLifecycle := x }]

def Config.fields : List (Json.Field Config) :=
  [stringField "interval" (·.interval) fun c x => { c with interval := x },
    listField "disabled_collectors" (·.disabledCollectors)
      fun c x => { c with disabledCollectors := x },
    structField "logs" LogsConfig.fields LogsConfig.zero (·.logs) fun c x => { c with logs := x },
    structField "integrations" IntegrationsConfig.fields IntegrationsConfig.zero (·.integrations)
      fun c x => { c with integrations := x },
    structField "events" EventsConfig.fields EventsConfig.zero (·.events)
      fun c x => { c with events := x }]

def Stored.fields : List (Json.Field Stored) :=
  [.value "version".toList (·.version) (fun s x => { s with version := x }) .str Json.decodeString,
    .value "config".toList (·.config) (fun s x => { s with config := x })
      (Json.encodeStruct Config.fields) (Json.decodeStruct Config.fields)]

/-- `json.Marshal(c)`. -/
def Config.marshal (c : Config) : Bytes := toBytes (Json.encodeStruct Config.fields c).print

/-- `json.Marshal(s)`. -/
def Stored.marshal (s : Stored) : Bytes := toBytes (Json.encodeStruct Stored.fields s).print

/-- `json.Unmarshal(b, &s)` into a zero `s`. -/
def Stored.unmarshal (b : Bytes) : Option Stored :=
  (Json.parse (toText b)).bind (Json.decodeStruct Stored.fields Stored.zero)

/-- The file in the state directory and the one it is written through. -/
structure StateDir where
  file : Option Bytes
  tmp : Option Bytes
  deriving DecidableEq, Repr

/-- `Load`: `none` when there is no configuration. -/
def load (dir : StateDir) : Option Stored := do
  let b ← dir.file
  let s ← Stored.unmarshal b
  if s.version = [] then none else some s

/-- How a save goes on the file system. -/
inductive Saving where
  /-- `WriteFile` fails and leaves `left` in the temporary file -/
  | writeFails (left : Option Bytes)
  | renameFails
  | succeeds
  deriving DecidableEq, Repr

/-- `Save`: the directory afterwards and whether it went well. -/
def save (dir : StateDir) (s : Stored) : Saving → StateDir × Bool
  | .writeFails left => ({ dir with tmp := left }, false)
  | .renameFails => ({ dir with tmp := some s.marshal }, false)
  | .succeeds => ({ file := some s.marshal, tmp := none }, true)

/-! ## What is refused -/

inductive ValidateError where
  | interval (value : Str)
  | redact (pattern : Str)
  /-- "log paths must be absolute" -/
  | notAbsolute
  deriving DecidableEq, Repr

/-- `filepath.IsAbs` on Unix. -/
def isAbs (p : Str) : Bool := hasPrefix p ['/']

/-- `reSourceName`: `^[a-z0-9][a-z0-9_-]{0,31}$`. -/
def isSourceName (s : Str) : Bool :=
  let isFirst (c : Char) : Bool := c.isLower || c.isDigit
  match s with
  | [] => false
  | c :: r => isFirst c && r.length ≤ 31 && r.all fun c => isFirst c || c == '_' || c == '-'

/-- `logs.SplitTyped`: the source and the glob. -/
def splitTyped (g : Str) : Str × Str :=
  match cut [':'] g with
  | some (name, rest) => if hasPrefix rest ['/'] && isSourceName name then (name, rest) else ([], g)
  | none => ([], g)

section Validate

variable (compiles : Str → Bool)

def validateInterval : Option Str → Except ValidateError Unit
  | none => .ok ()
  | some s =>
    match parseDuration s with
    | none => .error (.interval s)
    | some d => if d < 10 * second ∨ 10 * minute < d then .error (.interval s) else .ok ()

def validateLogs : Option LogsConfig → Except ValidateError Unit
  | none => .ok ()
  | some l => do
    l.redact.elems.forM fun p => if compiles p then pure () else throw (.redact p)
    l.paths.elems.forM fun g => if isAbs (splitTyped g).2 then pure () else throw .notAbsolute
    l.exclude.elems.forM fun g => if isAbs g then pure () else throw .notAbsolute

def validate (c : Config) : Except ValidateError Unit := do
  validateInterval c.interval
  validateLogs compiles c.logs

end Validate

/-! ## Over the local configuration -/

/-- The fields of `config.Config` that `Apply` sets. -/
structure LocalConfig where
  interval : Int
  disabledCollectors : Slice Str
  logs : Str
  logPaths : Slice Str
  logExclude : Slice Str
  logRedact : Slice Str
  disableIntegrations : Bool
  nginxStatusURL : Str
  scrapeURLs : Slice Str
  disableEvents : Bool
  disableAuthEvents : Bool
  disableProcessEvents : Bool
  disableNetworkEvents : Bool
  disableSystemEvents : Bool
  monitorProcessLifecycle : Bool
  deriving DecidableEq, Repr

def applyInterval (cfg : LocalConfig) : Option Str → LocalConfig
  | none => cfg
  | some s =>
    match parseDuration s with
    | some d => { cfg with interval := d }
    | none => cfg

def applyDisabledCollectors (cfg : LocalConfig) : Slice Str → LocalConfig
  | none => cfg
  | some l => { cfg with disabledCollectors := some l }

def applyLogs (cfg : LocalConfig) (mode : Mode) : Option LogsConfig → LocalConfig
  | none => cfg
  | some l =>
    { cfg with
      logs := match l.enabled with
        | none => cfg.logs
        | some true => "auto".toList
        | some false => "off".toList
      logPaths := if mode = .full then cfg.logPaths.append l.paths else cfg.logPaths
      logExclude := cfg.logExclude.append l.exclude
      logRedact := cfg.logRedact.append l.redact }

def applyIntegrations (cfg : LocalConfig) (mode : Mode) : Option IntegrationsConfig → LocalConfig
  | none => cfg
  | some i =>
    { cfg with
      disableIntegrations := match i.enabled with
        | none => cfg.disableIntegrations
        | some b => !b
      nginxStatusURL := match i.nginxStatusURL with
        | some url => if mode = .full ∧ cfg.nginxStatusURL = [] then url else cfg.nginxStatusURL
        | none => cfg.nginxStatusURL
      scrapeURLs := if mode = .full then cfg.scrapeURLs.append i.scrapeURLs else cfg.scrapeURLs }

/-- `set` in `Apply`. -/
def setFlag (dst : Bool) (v : Option Bool) (disable : Bool) : Bool :=
  match v with
  | none => dst
  | some b => if disable then !b else b

def applyEvents (cfg : LocalConfig) : Option EventsConfig → LocalConfig
  | none => cfg
  | some e =>
    { cfg with
      disableEvents := setFlag cfg.disableEvents e.enabled true
      disableAuthEvents := setFlag cfg.disableAuthEvents e.auth true
      disableProcessEvents := setFlag cfg.disableProcessEvents e.process true
      disableNetworkEvents := setFlag cfg.disableNetworkEvents e.network true
      disableSystemEvents := setFlag cfg.disableSystemEvents e.system true
      monitorProcessLifecycle := setFlag cfg.monitorProcessLifecycle e.processLifecycle false }

def apply (cfg : LocalConfig) (c : Config) (mode : Mode) : LocalConfig :=
  if mode = .off then cfg
  else
    let cfg := applyInterval cfg c.interval
    let cfg := applyDisabledCollectors cfg c.disabledCollectors
    let cfg := applyLogs cfg mode c.logs
    let cfg := applyIntegrations cfg mode c.integrations
    applyEvents cfg c.events

/-- `sameEffect`. -/
def sameEffect (a b : Config) : Bool := a.marshal = b.marshal

/-! ## What comes back from the disk -/

def LogsConfig.omitEmpty (c : LogsConfig) : LogsConfig :=
  ⟨c.enabled, c.paths.omitEmpty, c.exclude.omitEmpty, c.redact.omitEmpty⟩

def IntegrationsConfig.omitEmpty (c : IntegrationsConfig) : IntegrationsConfig :=
  ⟨c.enabled, c.nginxStatusURL, c.scrapeURLs.omitEmpty⟩

/-- The configuration with its empty lists nil. -/
def Config.omitEmpty (c : Config) : Config :=
  ⟨c.interval, c.disabledCollectors.omitEmpty, c.logs.map LogsConfig.omitEmpty,
    c.integrations.map IntegrationsConfig.omitEmpty, c.events⟩

section Transfer

variable {σ τ : Type} {s a : σ} {name : String}

theorem transfer_boolField {get : σ → Option Bool} {set : σ → Option Bool → σ}
    (hnil : get a = none) (hset : set a none = a) :
    (boolField name get set).transfer s a = some (set a (get s)) :=
  Json.transfer_scalar (fun _ => rfl) (fun _ => nofun) hnil hset

theorem transfer_stringField {get : σ → Option Str} {set : σ → Option Str → σ}
    (hnil : get a = none) (hset : set a none = a) :
    (stringField name get set).transfer s a = some (set a (get s)) :=
  Json.transfer_scalar (fun _ => rfl) (fun _ => nofun) hnil hset

theorem transfer_listField {get : σ → Slice Str} {set : σ → Slice Str → σ} (hset : set a none = a) :
    (listField name get set).transfer s a = some (set a (get s).omitEmpty) :=
  Json.transfer_slice hset

theorem transfer_structField {fields : List (Json.Field τ)} {zero : τ} {norm : τ → τ}
    {get : σ → Option τ} {set : σ → Option τ → σ}
    (hdec : ∀ x, Json.decodeStruct fields zero (Json.encodeStruct fields x) = some (norm x))
    (hnil : get a = none) (hset : set a none = a) :
    (structField name fields zero get set).transfer s a = some (set a ((get s).map norm)) :=
  Json.transfer_ptr hdec (fun _ => nofun) hnil hset

end Transfer

theorem LogsConfig.decode_encode (c : LogsConfig) :
    Json.decodeStruct LogsConfig.fields LogsConfig.zero (Json.encodeStruct LogsConfig.fields c) =
      some c.omitEmpty := by
  rw [Json.decode_encode (by decide)]
  refine Json.transferAll_cons (transfer_boolField rfl rfl) ?_
  refine Json.transferAll_cons (transfer_listField rfl) ?_
  refine Json.transferAll_cons (transfer_listField rfl) ?_
  exact Json.transferAll_cons (transfer_listField rfl) rfl

theorem IntegrationsConfig.decode_encode (c : IntegrationsConfig) :
    Json.decodeStruct IntegrationsConfig.fields IntegrationsConfig.zero
      (Json.encodeStruct IntegrationsConfig.fields c) = some c.omitEmpty := by
  rw [Json.decode_encode (by decide)]
  refine Json.transferAll_cons (transfer_boolField rfl rfl) ?_
  refine Json.transferAll_cons (transfer_stringField rfl rfl) ?_
  exact Json.transferAll_cons (transfer_listField rfl) rfl

theorem EventsConfig.decode_encode (c : EventsConfig) :
    Json.decodeStruct EventsConfig.fields EventsConfig.zero
      (Json.encodeStruct EventsConfig.fields c) = some (id c) := by
  rw [Json.decode_encode (by decide)]
  iterate 5 refine Json.transferAll_cons (transfer_boolField rfl rfl) ?_
  exact Json.transferAll_cons (transfer_boolField rfl rfl) rfl

theorem Config.decode_encode (c : Config) :
    Json.decodeStruct Config.fields Config.zero (Json.encodeStruct Config.fields c) =
      some c.omitEmpty := by
  rw [Json.decode_encode (by decide)]
  refine Json.transferAll_cons (transfer_stringField rfl rfl) ?_
  refine Json.transferAll_cons (transfer_listField rfl) ?_
  refine Json.transferAll_cons (transfer_structField LogsConfig.decode_encode rfl rfl) ?_
  refine Json.transferAll_cons
    (transfer_structField IntegrationsConfig.decode_encode rfl rfl) ?_
  refine Json.transferAll_cons (transfer_structField EventsConfig.decode_encode rfl rfl) ?_
  simp only [map_id_apply]
  rfl

theorem Stored.decode_encode (s : Stored) :
    Json.decodeStruct Stored.fields Stored.zero (Json.encodeStruct Stored.fields s) =
      some ⟨s.version, s.config.omitEmpty⟩ := by
  rw [Json.decode_encode (by decide)]
  refine Json.transferAll_cons (Json.transfer_value rfl) ?_
  exact Json.transferAll_cons (Json.transfer_value (Config.decode_encode s.config)) rfl

section Written

variable {d : Nat}

theorem LogsConfig.written (c : LogsConfig) :
    Json.Written (d + 2) (Json.encodeStruct LogsConfig.fields c) := by
  refine Json.written_encodeStruct ?_ c
  show _ ∧ _ ∧ _ ∧ _
  exact ⟨Json.writes_ptr .bool, Json.writes_slice, Json.writes_slice,
    Json.writes_slice⟩

theorem IntegrationsConfig.written (c : IntegrationsConfig) :
    Json.Written (d + 2) (Json.encodeStruct IntegrationsConfig.fields c) := by
  refine Json.written_encodeStruct ?_ c
  show _ ∧ _ ∧ _
  exact ⟨Json.writes_ptr .bool, Json.writes_ptr .str, Json.writes_slice⟩

theorem EventsConfig.written (c : EventsConfig) :
    Json.Written (d + 1) (Json.encodeStruct EventsConfig.fields c) := by
  refine Json.written_encodeStruct ?_ c
  show _ ∧ _ ∧ _ ∧ _ ∧ _ ∧ _
  exact ⟨Json.writes_ptr .bool, Json.writes_ptr .bool, Json.writes_ptr .bool,
    Json.writes_ptr .bool, Json.writes_ptr .bool, Json.writes_ptr .bool⟩

theorem Config.written (c : Config) : Json.Written (d + 3) (Json.encodeStruct Config.fields c) := by
  refine Json.written_encodeStruct ?_ c
  show _ ∧ _ ∧ _ ∧ _ ∧ _
  exact ⟨Json.writes_ptr .str, Json.writes_slice, Json.writes_ptr LogsConfig.written,
    Json.writes_ptr IntegrationsConfig.written, Json.writes_ptr EventsConfig.written⟩

theorem Stored.written (s : Stored) : Json.Written (d + 4) (Json.encodeStruct Stored.fields s) := by
  refine Json.written_encodeStruct ?_ s
  show _ ∧ _
  exact ⟨Json.writes_value .str, Json.writes_value Config.written⟩

end Written

/-- What was saved is read back, with its empty lists nil. -/
theorem Stored.unmarshal_marshal (s : Stored) :
    Stored.unmarshal s.marshal = some ⟨s.version, s.config.omitEmpty⟩ := by
  have hp : Json.Written Json.maxNestingDepth (Json.encodeStruct Stored.fields s) := s.written
  rw [Stored.unmarshal, Stored.marshal, toText_toBytes, Json.parse_written hp, bind_some,
    Stored.decode_encode]

theorem load_saved {s : Stored} (h : s.version ≠ []) (tmp : Option Bytes) :
    load ⟨some s.marshal, tmp⟩ = some ⟨s.version, s.config.omitEmpty⟩ := by
  simp [load, Stored.unmarshal_marshal, h]

/-! ## Nil and empty lists -/

theorem LogsConfig.encode_omitEmpty (c : LogsConfig) :
    Json.encodeStruct LogsConfig.fields c.omitEmpty = Json.encodeStruct LogsConfig.fields c := by
  refine Json.encodeStruct_congr ?_
  show _ ∧ _ ∧ _ ∧ _
  exact ⟨rfl, Json.write_slice (Slice.elems_omitEmpty _), Json.write_slice (Slice.elems_omitEmpty _),
    Json.write_slice (Slice.elems_omitEmpty _)⟩

theorem IntegrationsConfig.encode_omitEmpty (c : IntegrationsConfig) :
    Json.encodeStruct IntegrationsConfig.fields c.omitEmpty =
      Json.encodeStruct IntegrationsConfig.fields c := by
  refine Json.encodeStruct_congr ?_
  show _ ∧ _ ∧ _
  exact ⟨rfl, rfl, Json.write_slice (Slice.elems_omitEmpty _)⟩

theorem Config.marshal_omitEmpty (c : Config) : c.omitEmpty.marshal = c.marshal := by
  suffices h : Json.encodeStruct Config.fields c.omitEmpty = Json.encodeStruct Config.fields c by
    rw [Config.marshal, h, Config.marshal]
  refine Json.encodeStruct_congr ?_
  show _ ∧ _ ∧ _ ∧ _ ∧ _
  exact ⟨rfl, Json.write_slice (Slice.elems_omitEmpty _),
    Json.write_ptr LogsConfig.encode_omitEmpty rfl,
    Json.write_ptr IntegrationsConfig.encode_omitEmpty rfl, rfl⟩

/-- Two configurations are written alike exactly when they differ in nil and
empty lists only. -/
theorem sameEffect_iff {a b : Config} : sameEffect a b = true ↔ a.omitEmpty = b.omitEmpty := by
  rw [sameEffect, decide_eq_true_iff]
  constructor
  · intro h
    have hparse : ∀ c : Config, Json.parse (toText c.marshal) =
        some (Json.encodeStruct Config.fields c) := by
      intro c
      have hp : Json.Written Json.maxNestingDepth (Json.encodeStruct Config.fields c) := c.written
      rw [Config.marshal, toText_toBytes, Json.parse_written hp]
    have hdoc := hparse a
    rw [h, hparse b, some.injEq] at hdoc
    have hdec := Config.decode_encode a
    rw [← hdoc, Config.decode_encode b, some.injEq] at hdec
    exact hdec.symm
  · intro h
    rw [← a.marshal_omitEmpty, h, b.marshal_omitEmpty]

theorem Config.omitEmpty_omitEmpty (c : Config) : c.omitEmpty.omitEmpty = c.omitEmpty :=
  sameEffect_iff.mp (by rw [sameEffect, c.marshal_omitEmpty, decide_eq_true rfl])

theorem validate_omitEmpty (compiles : Str → Bool) (c : Config) :
    validate compiles c.omitEmpty = validate compiles c := by
  unfold validate
  cases hl : c.logs with
  | none => simp [Config.omitEmpty, hl]
  | some =>
    simp only [Config.omitEmpty, hl, map_some, validateLogs, LogsConfig.omitEmpty,
      Slice.elems_omitEmpty]

/-- A local configuration with its empty lists nil: two that agree so are the same
to every reader of them. -/
def LocalConfig.omitEmpty (cfg : LocalConfig) : LocalConfig :=
  { cfg with
    disabledCollectors := cfg.disabledCollectors.omitEmpty
    logPaths := cfg.logPaths.omitEmpty
    logExclude := cfg.logExclude.omitEmpty
    logRedact := cfg.logRedact.omitEmpty
    scrapeURLs := cfg.scrapeURLs.omitEmpty }

theorem applyLogs_omitEmpty (cfg : LocalConfig) (mode : Mode) (l : Option LogsConfig) :
    applyLogs cfg mode (l.map LogsConfig.omitEmpty) = applyLogs cfg mode l := by
  cases l with
  | none => rfl
  | some => simp only [map_some, applyLogs, LogsConfig.omitEmpty, Slice.append_omitEmpty]

theorem applyIntegrations_omitEmpty (cfg : LocalConfig) (mode : Mode)
    (i : Option IntegrationsConfig) :
    applyIntegrations cfg mode (i.map IntegrationsConfig.omitEmpty) =
      applyIntegrations cfg mode i := by
  cases i with
  | none => rfl
  | some =>
    simp only [map_some, applyIntegrations, IntegrationsConfig.omitEmpty, Slice.append_omitEmpty]

/-- The part of `Apply` after the disabled collectors. -/
def applyRest (cfg : LocalConfig) (c : Config) (mode : Mode) : LocalConfig :=
  applyEvents (applyIntegrations (applyLogs cfg mode c.logs) mode c.integrations) c.events

/-- The local configuration with other disabled collectors. -/
def LocalConfig.disable (cfg : LocalConfig) (l : Slice Str) : LocalConfig :=
  { cfg with disabledCollectors := l }

theorem applyRest_disable (cfg : LocalConfig) (c : Config) (mode : Mode) (l : Slice Str) :
    applyRest (cfg.disable l) c mode = (applyRest cfg c mode).disable l := by
  unfold applyRest
  cases c.logs <;> cases c.integrations <;> cases c.events <;> rfl

theorem disabledCollectors_applyRest (cfg : LocalConfig) (c : Config) (mode : Mode) :
    (applyRest cfg c mode).disabledCollectors = cfg.disabledCollectors := by
  have h : applyRest cfg c mode = (applyRest cfg c mode).disable cfg.disabledCollectors :=
    applyRest_disable cfg c mode cfg.disabledCollectors
  rw [h]
  rfl

theorem disabledCollectors_applyInterval (cfg : LocalConfig) (s : Option Str) :
    (applyInterval cfg s).disabledCollectors = cfg.disabledCollectors := by
  unfold applyInterval
  repeat' split
  all_goals rfl

theorem omitEmpty_disable {cfg : LocalConfig} {l : Slice Str}
    (h : l.elems = cfg.disabledCollectors.elems) : (cfg.disable l).omitEmpty = cfg.omitEmpty := by
  simp [LocalConfig.omitEmpty, LocalConfig.disable, Slice.omitEmpty_eq_of_elems h]

/-- Empty lists that became nil change nothing `Apply` does, when no collector is
disabled locally. -/
theorem apply_omitEmpty {cfg : LocalConfig} (h : cfg.disabledCollectors.elems = []) (c : Config)
    (mode : Mode) : (apply cfg c.omitEmpty mode).omitEmpty = (apply cfg c mode).omitEmpty := by
  unfold apply
  split
  · rfl
  · simp only [Config.omitEmpty, applyLogs_omitEmpty, applyIntegrations_omitEmpty]
    match hd : c.disabledCollectors with
    | none => rfl
    | some (x :: l) => rfl
    | some [] =>
      -- only here what is read back differs: the local list stays instead of an empty one
      have hkeep : (applyRest (applyInterval cfg c.interval) c mode).disabledCollectors.elems = [] := by
        rw [disabledCollectors_applyRest, disabledCollectors_applyInterval, h]
      have hset := applyRest_disable (applyInterval cfg c.interval) c mode (some [])
      have hsame : ((applyRest (applyInterval cfg c.interval) c mode).disable (some [])).omitEmpty =
          (applyRest (applyInterval cfg c.interval) c mode).omitEmpty := omitEmpty_disable hkeep.symm
      exact hsame.symm.trans (congrArg LocalConfig.omitEmpty hset.symm)

end YominsAgent.Remote
