import YominsAgent.Events.NewIP
import YominsAgent.Events.Passwd
import YominsAgent.Logs.PositionsFile

/- The state files that collectors keep as maps: `auth_last_ip.json`, `file_state.json` and
   `log_positions.json`, each loaded at the start and written to from then on.

   `json.Unmarshal` of `null` leaves a map nil and returns no error. `LoadPositions` looks for that
   and the other two loaders do not: after a file that holds `null` the first login from an address
   that counts panics, and so does the first poll that can read one of the monitored files. No other
   content of a file has that effect (`no_panic_iff_not_null`).

   Here a map is a `MapVar`, and `none` is the panic. The models of these functions that take a nil
   map for an empty one agree with this one where it does not panic (`loadLastIPByUser_getD`,
   `checkNewIP_some`, `loadPositions_eq`, `step_ofStore`).

   Correspondence (Go ↔ Lean):
     `loadLastIPByUser`, `checkNewIP` ↔ the functions of that name; `login` is one of a run
     `fileState`, `hashFile`          ↔ `FileState`, what a poll finds at each path
     `pollFileState`                  ↔ `baselinePath`, `pollPath`, `pollFileState`
     `SetFile`, `Forget`, `Save`, …   ↔ `Positions.step`
   What is saved is read by the next start only, which is taken with every content of its file; the
   log lines about unreadable files (`warnedUnreadable`) are left out. -/
namespace YominsAgent.StateFiles
open Go Lib Events List Option

/-! ## Loading a map -/

section
variable {α : Type} (zero : α) (dec : Json.Dec α)

/-- `json.Unmarshal` into a map variable that is not set. -/
def unmarshalMap (data : Bytes) : Option (MapVar Bytes α) :=
  (Json.parse (toText data)).bind (Json.decodeMapVar zero dec none)

/-- A file that cannot be read or does not parse is an empty map. -/
def loadMap (file : Option Bytes) : MapVar Bytes α :=
  (file.bind (unmarshalMap zero dec)).getD (some ∅)

/-- The file has been read and its JSON value is `null`. -/
def HoldsNull (file : Option Bytes) : Prop :=
  ∃ data, file = some data ∧ Json.parse (toText data) = some .null

/-- The map can be written to. -/
def Writable (m : MapVar Bytes α) : Prop := ∀ k v, (m.set k v).isSome = true

variable {zero dec}

theorem loadMap_eq_none_iff {file : Option Bytes} :
    loadMap zero dec file = none ↔ HoldsNull file := by
  constructor
  · intro h
    unfold loadMap at h
    cases hm : file.bind (unmarshalMap zero dec) with
    | none => simp [hm] at h
    | some m =>
      rw [hm] at h
      subst h
      obtain ⟨data, hdata, hm⟩ := bind_eq_some_iff.mp hm
      obtain ⟨j, hj, hdec⟩ := bind_eq_some_iff.mp hm
      exact ⟨data, hdata, Json.decodeMapVar_eq_none_iff.mp hdec ▸ hj⟩
  · rintro ⟨data, rfl, hj⟩
    simp [loadMap, unmarshalMap, hj, Json.decodeMapVar]

theorem writable_of_ne_none {m : MapVar Bytes α} (h : m ≠ none) : Writable m := by
  intro k v
  obtain ⟨m, rfl⟩ := ne_none_iff_exists'.mp h
  rfl

theorem writable_loadMap_iff {file : Option Bytes} :
    Writable (loadMap zero dec file) ↔ ¬ HoldsNull file := by
  rw [← @loadMap_eq_none_iff α zero dec]
  refine ⟨fun h hnone => ?_, writable_of_ne_none⟩
  have hset := h [] zero
  rw [hnone] at hset
  cases hset

end

/-! ## Logins -/

def loadLastIPByUser : Option Bytes → MapVar Bytes Bytes := loadMap [] Json.decodeBytes

theorem loadLastIPByUser_eq_none_iff {file : Option Bytes} :
    loadLastIPByUser file = none ↔ HoldsNull file := loadMap_eq_none_iff

theorem loadLastIPByUser_getD (file : Option Bytes) :
    (loadLastIPByUser file).getD ∅ = Events.loadLastIPByUser file := by
  have hdec : ∀ data, (unmarshalMap [] Json.decodeBytes data).map (·.getD ∅) =
      (Json.parse (toText data)).bind (Json.decodeMap [] Json.decodeBytes ∅) := by
    intro data
    simp only [unmarshalMap, map_bind, Function.comp_def, Json.decodeMapVar_getD, getD_none]
  cases file with
  | none => rfl
  | some data =>
    simp only [loadLastIPByUser, loadMap, Events.loadLastIPByUser, bind_some, ← hdec]
    cases unmarshalMap [] Json.decodeBytes data <;> rfl

section
variable (cfg : WtmpConfig)

def checkNewIP (ips : MapVar Bytes Bytes) (id : Str) (now : Int) (r : ParsedRecord) :
    Option (Option Event × MapVar Bytes Bytes) :=
  if r.host = [] then some (none, ips)
  else if cfg.ignorePrivateIP && cfg.isPrivateIP r.host then some (none, ips)
  else
    let prev := ips.get r.user
    (ips.set r.user r.host).map fun ips =>
      (match prev with
        | none => none
        | some prev => if prev = r.host then none else some (newIPEvent cfg id now r prev),
       ips)

structure Login where
  record : ParsedRecord
  id : Str
  now : Int

/-- One login after others: the events so far and the last addresses. -/
def login (s : List Event × MapVar Bytes Bytes) (l : Login) :
    Option (List Event × MapVar Bytes Bytes) :=
  (checkNewIP cfg s.2 l.id l.now l.record).map fun x => (s.1 ++ x.1.toList, x.2)

variable {cfg} {id : Str} {now : Int} {r : ParsedRecord}

theorem checkNewIP_some (m : Map Bytes Bytes) :
    checkNewIP cfg (some m) id now r = some ((Events.checkNewIP cfg m id now r).1,
      some (Events.checkNewIP cfg m id now r).2) := by
  unfold checkNewIP Events.checkNewIP
  split_ifs <;> rfl

theorem checkNewIP_nil :
    checkNewIP cfg none id now r = if counts cfg r then none else some (none, none) := by
  unfold checkNewIP counts
  split_ifs <;> simp_all [MapVar.set]

theorem login_refused :
    RefusedIn (fun s => s.2 = none) (fun l => counts cfg l.record = true) (login cfg) where
  total {s} l hs := by
    obtain ⟨m, hm⟩ := ne_none_iff_exists'.mp hs
    rw [login, hm, checkNewIP_some, map_some]
    exact ⟨_, rfl, nofun⟩
  refused {s l} hs hl := by
    rw [login, hs, checkNewIP_nil, if_pos hl, map_none]
  same {s l} hs hl := by
    rw [login, hs, checkNewIP_nil, if_neg hl, map_some, ← hs]
    simp

end

/-! ## Monitored files -/

structure FileState where
  hash : Bytes
  modTime : Int64
  size : Int64

/-- The zero `fileState`. -/
def FileState.zero : FileState := ⟨[], 0, 0⟩

def FileState.fields : List (Json.Field FileState) :=
  [.value "hash".toList (·.hash) (fun s b => { s with hash := b }) (fun b => .str (toText b))
      Json.decodeBytes,
    .value "mod_time".toList (·.modTime) (fun s n => { s with modTime := n }) Json.encodeInt64
      Json.decodeInt64,
    .value "size".toList (·.size) (fun s n => { s with size := n }) Json.encodeInt64
      Json.decodeInt64]

def defaultMonitoredFiles : List Str :=
  ["/etc/passwd".toList, "/etc/shadow".toList, "/etc/group".toList, "/etc/sudoers".toList,
    "/etc/ssh/sshd_config".toList]

def loadFileState : Option Bytes → MapVar Bytes FileState :=
  loadMap .zero (Json.decodeStruct FileState.fields)

/-- What one tick meets: the files that can be hashed, and the paths whose event is taken
before the context is done. -/
structure FilePoll where
  now : Int
  hash : Str → Option FileState
  id : Str → Str
  sent : Str → Bool

structure Poller where
  state : MapVar Bytes FileState
  events : List Event := []
  returned : Bool := false

section
variable (cfg : SystemConfig)

def configModifiedEvent (id : Str) (now : Int) (path : Str) : Event :=
  { id, timestamp := now, type := .systemConfigModified, category := .threatActivity
    severity := .critical, confidence := some .high, host := cfg.host, agent := cfg.agent
    context := some { reason := path }, tags := ["system".toList, "config_modified".toList] }

/-- One path of the initial baseline. -/
def baselinePath (hash : Str → Option FileState) (state : MapVar Bytes FileState) (path : Str) :
    Option (MapVar Bytes FileState) :=
  if (state.get (toBytes path)).isSome then some state
  else match hash path with
    | some fs => state.set (toBytes path) fs
    | none => some state

/-- One path of a tick. -/
def pollPath (t : FilePoll) (s : Poller) (path : Str) : Option Poller :=
  if s.returned then some s
  else match t.hash path with
    | none => some s
    | some current =>
      match s.state.get (toBytes path) with
      | none => (s.state.set (toBytes path) current).map fun m => { s with state := m }
      | some prev =>
        if prev.hash = current.hash then some s
        else if t.sent path then
          let ev := configModifiedEvent cfg (t.id path) t.now path
          (s.state.set (toBytes path) current).map fun m =>
            { s with state := m, events := s.events ++ [ev] }
        else some { s with returned := true }

def pollTick (s : Poller) (t : FilePoll) : Option Poller :=
  run (pollPath cfg t) s defaultMonitoredFiles

/-- The poller over a list of ticks, with what the baseline finds at each path. -/
def pollFileState (file : Option Bytes) (first : Str → Option FileState)
    (ticks : List FilePoll) : Option Poller :=
  (run (baselinePath first) (loadFileState file) defaultMonitoredFiles).bind fun state =>
    run (pollTick cfg) { state } ticks

variable {cfg}

/-- One of the monitored files can be hashed. -/
def Readable (hash : Str → Option FileState) : Prop :=
  ∃ path ∈ defaultMonitoredFiles, (hash path).isSome = true

theorem baselinePath_refused (hash : Str → Option FileState) :
    RefusedIn (fun m => m = none) (fun path => (hash path).isSome = true) (baselinePath hash) where
  total {m} path hm := by
    obtain ⟨m, rfl⟩ := ne_none_iff_exists'.mp hm
    unfold baselinePath
    split
    · exact ⟨some m, rfl, nofun⟩
    · split
      · exact ⟨_, rfl, nofun⟩
      · exact ⟨some m, rfl, nofun⟩
  refused {m path} hm hpath := by
    obtain ⟨fs, hfs⟩ := isSome_iff_exists.mp hpath
    rw [hm]
    simp [baselinePath, hfs, MapVar.get, MapVar.set]
  same {m path} hm hpath := by
    rw [not_isSome_iff_eq_none] at hpath
    rw [hm]
    simp [baselinePath, hpath]

theorem pollPath_refused (t : FilePoll) : RefusedIn (fun s => s.state = none ∧ s.returned = false)
      (fun path => (t.hash path).isSome = true) (pollPath cfg t) where
  total {s} path hs := by
    obtain ⟨state, evs, returned⟩ := s
    unfold pollPath
    cases returned with
    | true => exact ⟨_, rfl, nofun⟩
    | false =>
      obtain ⟨m, rfl⟩ := ne_none_iff_exists'.mp fun hnone : state = none => hs ⟨hnone, rfl⟩
      rw [if_neg Bool.false_ne_true]
      split
      · exact ⟨_, rfl, nofun⟩
      · split
        · exact ⟨_, rfl, nofun⟩
        · split_ifs
          · exact ⟨_, rfl, nofun⟩
          · exact ⟨_, rfl, nofun⟩
          · exact ⟨_, rfl, nofun⟩
  refused {s path} hs hpath := by
    obtain ⟨fs, hfs⟩ := isSome_iff_exists.mp hpath
    simp [pollPath, hs.1, hs.2, hfs, MapVar.get, MapVar.set]
  same {s path} hs hpath := by
    rw [not_isSome_iff_eq_none] at hpath
    simp [pollPath, hpath]

theorem pollTick_refused :
    RefusedIn (fun s => s.state = none ∧ s.returned = false) (fun t => Readable t.hash)
      (pollTick cfg) where
  total t hs := (pollPath_refused t).run.total _ hs
  refused {_ t} hs ht := (pollPath_refused t).run.refused hs ht
  same {_ t} hs ht := (pollPath_refused t).run.same hs ht

theorem pollFileState_isSome_iff {file : Option Bytes} {first : Str → Option FileState}
    {ticks : List FilePoll} :
    (pollFileState cfg file first ticks).isSome = true ↔
      ¬ (HoldsNull file ∧ (Readable first ∨ ∃ t ∈ ticks, Readable t.hash)) := by
  have hbase := (baselinePath_refused first).run
  have hnull : loadFileState file = none ↔ HoldsNull file := loadMap_eq_none_iff
  rw [← hnull, pollFileState]
  by_cases hN : loadFileState file = none
  · by_cases hfirst : Readable first
    · rw [hbase.refused hN hfirst]
      simp [hN, hfirst]
    · rw [hbase.same hN hfirst, bind_some, pollTick_refused.run.isSome_iff]
      simp [hfirst]
  · obtain ⟨m, hm, hne⟩ := hbase.total defaultMonitoredFiles hN
    rw [hm, bind_some, pollTick_refused.run.isSome_iff]
    simp [hN, hne]

end

/-! ## Positions -/

structure Contents where
  files : MapVar Bytes Logs.FilePosition
  journal : Bytes

structure Positions where
  contents : Contents
  dirty : Bool

namespace Contents

def empty : Contents := ⟨some ∅, []⟩

def fields : List (Json.Field Contents) :=
  [.value "files".toList (·.files) (fun c m => { c with files := m })
      (fun m => (m.map (Json.encodeMap (Json.encodeStruct Logs.FilePosition.fields))).getD .null)
      (Json.decodeMapVar .zero (Json.decodeStruct Logs.FilePosition.fields)),
    .text "journal_cursor".toList (·.journal) (fun c b => { c with journal := b })]

/-- `json.Unmarshal` into empty positions. -/
def unmarshal (b : Bytes) : Option Contents :=
  (Json.parse (toText b)).bind (Json.decodeStruct fields .empty)

end Contents

/-- `LoadPositions`, with its check for a nil map. -/
def loadPositions (stateDir : Str) (file : Logs.StateFile) : Positions :=
  if stateDir.isEmpty then ⟨.empty, false⟩
  else match file with
    | .absent => ⟨.empty, false⟩
    | .unreadable => ⟨.empty, false⟩
    | .text b =>
      let c := (Contents.unmarshal b).getD .empty
      ⟨if c.files.isNone then { c with files := some ∅ } else c, false⟩

namespace Positions

def setFile (p : Positions) (path : Bytes) (pos : Logs.FilePosition) : Option Positions :=
  if (p.contents.files.get path).getD .zero ≠ pos then
    (p.contents.files.set path pos).map fun m => ⟨{ p.contents with files := m }, true⟩
  else some p

def forget (p : Positions) (path : Bytes) : Positions :=
  if (p.contents.files.get path).isSome then
    ⟨{ p.contents with files := p.contents.files.delete path }, true⟩
  else p

def setJournalCursor (p : Positions) (c : Bytes) : Positions :=
  if p.contents.journal ≠ c then ⟨{ p.contents with journal := c }, true⟩ else p

def step (stateDir : Str) (p : Positions) : Logs.StoreOp → Option Positions
  | .setFile path pos => p.setFile path pos
  | .forget path => some (p.forget path)
  | .setJournalCursor c => some (p.setJournalCursor c)
  | .save _ => some { p with dirty := p.dirty && stateDir.isEmpty }

end Positions

/-- The contents with a nil map read as an empty one. -/
def Contents.toLogs (c : Contents) : Logs.Contents := ⟨c.files.getD ∅, c.journal⟩

/-- The positions of a store, whose map is not nil. -/
def ofStore (s : Logs.Store) : Positions := ⟨⟨some s.contents.files, s.contents.journal⟩, s.dirty⟩

/-- Two structs of two fields with the same names, each of which reads the same. -/
theorem decodeMember_pair {σ τ : Type} {φ : σ → τ} {a b : Json.Field σ} {a' b' : Json.Field τ}
    (hname : a.name = a'.name ∧ b.name = b'.name)
    (ha : ∀ s j, (a.read s j).map φ = a'.read (φ s) j)
    (hb : ∀ s j, (b.read s j).map φ = b'.read (φ s) j) (s : σ) (m : Str × Json) :
    (Json.decodeMember [a, b] s m).map φ = Json.decodeMember [a', b'] (φ s) m := by
  simp only [Json.decodeMember, Json.fieldFor, find?_cons, hname.1, hname.2]
  cases decide (a'.name = m.1) <;> cases decide (b'.name = m.1) <;>
    cases decide (a'.name.map Json.foldRune = m.1.map Json.foldRune) <;>
    cases decide (b'.name.map Json.foldRune = m.1.map Json.foldRune) <;> simp [ha, hb]

theorem decodeMember_toLogs (c : Contents) (m : Str × Json) :
    (Json.decodeMember Contents.fields c m).map Contents.toLogs =
      Json.decodeMember Logs.Contents.fields c.toLogs m := by
  refine decodeMember_pair ?_ (fun c j => ?_) (fun c j => ?_) c m
  · exact ⟨rfl, rfl⟩
  · simp only [Json.Field.value, Contents.toLogs, ← Json.decodeMapVar_getD, Option.map_map]
    rfl
  · simp only [Json.Field.text, Option.map_map]
    rfl

theorem unmarshal_toLogs (b : Bytes) :
    (Contents.unmarshal b).map Contents.toLogs = Logs.unmarshal b := by
  have hmembers : ∀ (ms : List (Str × Json)) (c : Contents),
      (ms.foldlM (Json.decodeMember Contents.fields) c).map Contents.toLogs =
        ms.foldlM (Json.decodeMember Logs.Contents.fields) c.toLogs := by
    intro ms
    induction ms with
    | nil => exact fun _ => rfl
    | cons m ms ih =>
      intro c
      simp only [foldlM_cons, ← decodeMember_toLogs]
      cases Json.decodeMember Contents.fields c m with
      | none => rfl
      | some d => exact ih d
  simp only [Contents.unmarshal, map_bind]
  congr 1
  funext j
  cases j with
  | obj ms => exact hmembers ms .empty
  | _ => rfl

theorem loadPositions_eq (stateDir : Str) (file : Logs.StateFile) :
    loadPositions stateDir file = ofStore (Logs.loadPositions stateDir file) := by
  unfold loadPositions Logs.loadPositions
  split
  · rfl
  · cases file with
    | absent => rfl
    | unreadable => rfl
    | text b =>
      simp only [Logs.StateFile.contents, ← unmarshal_toLogs]
      cases Contents.unmarshal b with
      | none => rfl
      | some c =>
        obtain ⟨files, journal⟩ := c
        cases files <;> rfl

theorem step_ofStore (stateDir : Str) (s : Logs.StoreSystem) (op : Logs.StoreOp) :
    ∃ t, s.step stateDir op = some t ∧
      (ofStore s.store).step stateDir op = some (ofStore t.store) := by
  cases op with
  | setFile path pos =>
    refine ⟨_, rfl, ?_⟩
    have hget : (ofStore s.store).contents.files.get path =
        s.store.contents.files.lookup path := rfl
    simp only [Positions.step, Positions.setFile, Logs.Store.setFile, hget]
    split_ifs <;> rfl
  | forget path =>
    refine ⟨_, rfl, ?_⟩
    simp only [Logs.Store.forget, apply_ite ofStore]
    rfl
  | setJournalCursor c =>
    refine ⟨_, rfl, ?_⟩
    simp only [Positions.step, Positions.setJournalCursor, Logs.Store.setJournalCursor,
      apply_ite ofStore]
    rfl
  | save w =>
    refine ⟨_, rfl, ?_⟩
    obtain ⟨⟨c, dirty⟩, file, behind, saved⟩ := s
    cases stateDir <;> cases dirty <;> cases w <;> rfl

theorem run_positions_isSome (stateDir : Str) (file : Logs.StateFile) (ops : List Logs.StoreOp) :
    (run (Positions.step stateDir) (loadPositions stateDir file) ops).isSome = true := by
  let ofSome (p : Positions) : Prop := ∃ s : Logs.StoreSystem, p = ofStore s.store
  have hstep : ∀ p op, ofSome p → ∃ p', p.step stateDir op = some p' ∧ ofSome p' := by
    rintro _ op ⟨s, rfl⟩
    obtain ⟨t, -, ht⟩ := step_ofStore stateDir s op
    exact ⟨_, ht, t, rfl⟩
  obtain ⟨p, hp, -⟩ := run_total hstep ops (loadPositions stateDir file)
    ⟨.start stateDir file, loadPositions_eq stateDir file⟩
  exact isSome_of_eq_some hp

/-! ## Every content of the three files -/

/-- The maps of the last addresses and of the monitored files can be written to unless their
file holds `null`; then the logins panic at the first one that counts, and the polls at the
first monitored file that can be hashed. The positions can be written to after every content
of their file, and no call panics. -/
theorem no_panic_iff_not_null (cfg : WtmpConfig) (sys : SystemConfig) (stateDir : Str)
    (ipFile stateFile : Option Bytes) (positionsFile : Logs.StateFile) (logins : List Login)
    (first : Str → Option FileState) (ticks : List FilePoll) (ops : List Logs.StoreOp) :
    ((Writable (loadLastIPByUser ipFile) ↔ ¬ HoldsNull ipFile) ∧
      ((run (login cfg) ([], loadLastIPByUser ipFile) logins).isSome = true ↔
        ¬ (HoldsNull ipFile ∧ ∃ l ∈ logins, counts cfg l.record = true))) ∧
    ((Writable (loadFileState stateFile) ↔ ¬ HoldsNull stateFile) ∧
      ((pollFileState sys stateFile first ticks).isSome = true ↔
        ¬ (HoldsNull stateFile ∧ (Readable first ∨ ∃ t ∈ ticks, Readable t.hash)))) ∧
    Writable (loadPositions stateDir positionsFile).contents.files ∧
      (run (Positions.step stateDir) (loadPositions stateDir positionsFile) ops).isSome = true := by
  refine ⟨⟨writable_loadMap_iff, ?_⟩, ⟨writable_loadMap_iff, pollFileState_isSome_iff⟩, ?_,
    run_positions_isSome stateDir positionsFile ops⟩
  · rw [login_refused.run.isSome_iff, loadLastIPByUser_eq_none_iff]
  · rw [loadPositions_eq]
    exact writable_of_ne_none nofun

/-- With `null` in its file the auth collector panics at a login from `1.2.3.4`, and the
system collector before its first tick. -/
theorem null_panics :
    ¬ Writable (loadLastIPByUser (some (toBytes "null".toList))) ∧
    run (login wtmpConfig) ([], loadLastIPByUser (some (toBytes "null".toList)))
      [⟨loginFrom (toBytes "1.2.3.4".toList), [], 0⟩] = none ∧
    ¬ Writable (loadFileState (some (toBytes "null".toList))) ∧
    pollFileState ⟨⟨[], []⟩, ⟨[], []⟩⟩ (some (toBytes "null".toList))
      (fun _ => some .zero) [] = none := by
  have hnull : HoldsNull (some (toBytes "null".toList)) := by
    refine ⟨_, rfl, ?_⟩
    rw [toText_toBytes]
    rfl
  refine ⟨fun h => writable_loadMap_iff.mp h hnull, ?_, fun h => writable_loadMap_iff.mp h hnull,
    ?_⟩
  · exact login_refused.run.refused (loadLastIPByUser_eq_none_iff.mpr hnull)
      ⟨_, mem_cons_self, by decide⟩
  · rw [← not_isSome_iff_eq_none, pollFileState_isSome_iff, not_not]
    exact ⟨hnull, .inl ⟨_, mem_cons_self, rfl⟩⟩

end YominsAgent.StateFiles
