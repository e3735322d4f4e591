import YominsAgent.Lib.Run
import YominsAgent.Remote.Config
import YominsAgent.Transport.Session

/- Polling the server for configuration changes (`internal/remote/fetch.go`).

   `Fetcher.Run` is a machine: it checks, adopts a version that changes nothing and goes on polling,
   or holds a new one until the agent has run long enough and calls `Restart`. Everything outside is
   a label: whether the session is paused, what the server answers, how a save goes, when time
   passes and when the context ends. When the ticker fires is left open.

   While `Run` polls, what is on disk since the last adopted version is, up to nil and empty lists,
   the configuration in use; when it has called `Restart`, the disk holds the valid configuration it
   restarts for (`fetcher_sound`).

   Correspondence (Go ↔ Lean):
     `Fetcher`                    ↔ `Fetcher` (without what the request is made of:
                                    `Server`, `Token`, `Hostname`, `Client`)
     the loop of `Fetcher.Run`    ↔ `step`
     `InfoCollector`              ↔ `Polling.info`: its `Version`, `none` for nil
     `f.Restart(v)` called at `t` ↔ `⟨v, t⟩` in `restarts` -/
namespace YominsAgent.Remote
open Go Transport Lib

structure Fetcher where
  mode : Mode
  /-- the version in use, empty when none -/
  current : Str
  /-- the configuration in use -/
  applied : Config
  started : Int
  minUptime : Int
  deriving DecidableEq, Repr

def defaultMinUptime : Int := 2 * minute

/-- The defaults `Run` puts in place. -/
def Fetcher.withDefaults (f : Fetcher) : Fetcher :=
  { f with minUptime := if f.minUptime ≤ 0 then defaultMinUptime else f.minUptime }

inductive Answer where
  | failed
  | response (status : Nat) (body : Bytes)
  deriving DecidableEq, Repr

/-- The most bytes of an answer that are read. -/
def maxAnswer : Nat := 2 ^ 20

/-- The configuration in the body of an answer. -/
def decodeAnswer (body : Bytes) : Option Stored :=
  (Json.decodeFirst (toText (body.take maxAnswer))).bind
    (Json.decodeStruct Stored.fields Stored.zero)

/-- What is given to one check from outside. -/
structure Poll where
  session : Option Session
  answer : Answer
  saving : Saving
  deriving DecidableEq, Repr

section

variable (compiles : Str → Bool)

/-- A configuration the server sent: refused, or saved. -/
def accept (f : Fetcher) (dir : StateDir) (saving : Saving) (s : Stored) :
    StateDir × Option Stored :=
  if s.version = [] ∨ s.version = f.current then (dir, none)
  else match validate compiles s.config with
    | .error _ => (dir, none)
    | .ok () =>
      let (dir', saved) := save dir s saving
      (dir', if saved then some s else none)

/-- `check`: the directory afterwards and the new configuration, if one was
saved. -/
def check (f : Fetcher) (dir : StateDir) (now : Int) (p : Poll) : StateDir × Option Stored :=
  if p.session.any (·.paused now) then (dir, none)
  else match p.answer with
    | .failed => (dir, none)
    | .response status body =>
      -- 304 unchanged; 404 an ingest server without remote configuration
      if status ≠ 200 then (dir, none)
      else match decodeAnswer body with
        | none => (dir, none)
        | some s => accept compiles f dir p.saving s

/-- Where `Run` stands. -/
inductive Phase where
  | checking
  /-- in the `select` on the ticker -/
  | waiting
  /-- a new version waits for the agent to have run until `due` -/
  | holding (s : Stored) (due : Int)
  | returned
  deriving DecidableEq, Repr

/-- A call of `Restart`. -/
structure Restart where
  version : Str
  time : Int
  deriving DecidableEq, Repr

structure Polling where
  fetcher : Fetcher
  dir : StateDir
  now : Int
  phase : Phase
  info : Option Str
  /-- the versions adopted without a restart, the last one first -/
  adopted : List Str
  restarts : List Restart
  deriving DecidableEq, Repr

inductive Label where
  | pass (d : Nat)
  | poll (p : Poll)
  | tick
  | elapsed
  | done
  deriving DecidableEq, Repr

namespace Polling

/-- `Run` is called. -/
def start (f : Fetcher) (dir : StateDir) (now : Int) (info : Option Str) : Polling where
  fetcher := f.withDefaults
  dir := dir
  now := now
  phase := if f.mode = .off then .returned else .checking
  info := info
  adopted := []
  restarts := []

def adopt (st : Polling) (s : Stored) : Polling :=
  { st with
    fetcher := { st.fetcher with current := s.version }
    info := st.info.map fun _ => s.version
    adopted := s.version :: st.adopted
    phase := .waiting }

def restart (st : Polling) (version : Str) : Polling :=
  { st with phase := .returned, restarts := ⟨version, st.now⟩ :: st.restarts }

/-- What `Run` does with a new configuration that was saved. -/
def changed (st : Polling) (s : Stored) : Polling :=
  if sameEffect s.config st.fetcher.applied then st.adopt s
  else if st.fetcher.minUptime - (st.now - st.fetcher.started) > 0 then
    { st with phase := .holding s (st.fetcher.started + st.fetcher.minUptime) }
  else st.restart s.version

/-- One check and what follows from it. -/
def poll (st : Polling) (p : Poll) : Polling :=
  let (dir, found) := check compiles st.fetcher st.dir st.now p
  match found with
  | none => { st with dir := dir, phase := .waiting }
  | some s => { st with dir := dir }.changed s

def step (st : Polling) : Label → Option Polling
  | .pass d => some { st with now := st.now + d }
  | .poll p => if st.phase = .checking then some (st.poll compiles p) else none
  | .tick => if st.phase = .waiting then some { st with phase := .checking } else none
  | .elapsed =>
    match st.phase with
    | .holding s due => if due ≤ st.now then some (st.restart s.version) else none
    | _ => none
  | .done =>
    match st.phase with
    | .waiting | .holding _ _ => some { st with phase := .returned }
    | _ => none

end Polling

end

/-! ## One check -/

variable {compiles : Str → Bool} {dir' : StateDir} {s : Stored} {found : Option Stored} {p : Poll}

/-- A valid configuration of a named version has just been saved. -/
structure Saved (compiles : Str → Bool) (dir : StateDir) (s : Stored) : Prop where
  onDisk : dir.file = some s.marshal
  named : s.version ≠ []
  valid : validate compiles s.config = .ok ()

/-- A configuration is either saved or leaves the file as it was. -/
theorem accept_cases {f : Fetcher} {dir : StateDir} {saving : Saving}
    (h : accept compiles f dir saving s = (dir', found)) :
    (found = none ∧ dir'.file = dir.file) ∨ (found = some s ∧ Saved compiles dir' s) := by
  unfold accept at h
  split at h
  case isTrue =>
    cases h
    exact .inl ⟨rfl, rfl⟩
  case isFalse hname =>
    split at h
    case h_1 =>
      cases h
      exact .inl ⟨rfl, rfl⟩
    case h_2 hvalid =>
      cases saving with
      | writeFails | renameFails => cases h; exact .inl ⟨rfl, rfl⟩
      | succeeds => cases h; exact .inr ⟨rfl, rfl, fun hv => hname (.inl hv), hvalid⟩

theorem check_cases {f : Fetcher} {dir : StateDir} {now : Int}
    (h : check compiles f dir now p = (dir', found)) :
    (found = none ∧ dir'.file = dir.file) ∨ (∃ s, found = some s ∧ Saved compiles dir' s) := by
  unfold check at h
  repeat' split at h
  case h_2 s _ => exact (accept_cases h).imp id fun hs => ⟨s, hs⟩
  all_goals
    cases h
    exact .inl ⟨rfl, rfl⟩

theorem load_congr {dir : StateDir} (h : dir'.file = dir.file) : load dir' = load dir := by
  simp only [load, h]

theorem Saved.load_eq {dir : StateDir} (h : Saved compiles dir s) :
    load dir = some ⟨s.version, s.config.omitEmpty⟩ := by
  rw [load_congr (show dir.file = (StateDir.mk (some s.marshal) none).file from h.onDisk),
    load_saved h.named]

/-! ## Every run -/

/-- The disk holds the version adopted last, which changes nothing for `f`. -/
def Unchanged (f : Fetcher) (dir : StateDir) (current : Str) : Prop :=
  ∃ s, load dir = some s ∧ s.version = current ∧ s.config.omitEmpty = f.applied.omitEmpty

/-- The disk holds a valid configuration of that version, unlike the one `f`
uses. -/
def Fresh (compiles : Str → Bool) (f : Fetcher) (dir : StateDir) (version : Str) : Prop :=
  ∃ s, load dir = some s ∧ s.version = version ∧ validate compiles s.config = .ok () ∧
    sameEffect s.config f.applied = false

theorem Saved.unchanged {f : Fetcher} {dir : StateDir} (h : Saved compiles dir s)
    (he : sameEffect s.config f.applied = true) : Unchanged f dir s.version := by
  refine ⟨_, h.load_eq, rfl, ?_⟩
  rw [← sameEffect_iff.mp he, Config.omitEmpty_omitEmpty]

theorem Saved.fresh {f : Fetcher} {dir : StateDir} (h : Saved compiles dir s)
    (he : sameEffect s.config f.applied = false) : Fresh compiles f dir s.version := by
  refine ⟨_, h.load_eq, rfl, ?_, ?_⟩
  · rw [validate_omitEmpty, h.valid]
  · rw [sameEffect, Config.marshal_omitEmpty]
    exact he

/-- What holds in each phase of `Run`. -/
def PhaseInv (compiles : Str → Bool) (f : Fetcher) (st : Polling) : Phase → Prop
  | .checking | .waiting =>
    st.restarts = [] ∧ (st.adopted ≠ [] → Unchanged f st.dir st.fetcher.current)
  | .holding s due =>
    st.restarts = [] ∧ due = f.started + f.minUptime ∧ Fresh compiles f st.dir s.version
  | .returned =>
    st.restarts = [] ∨ ∃ r, st.restarts = [r] ∧ Fresh compiles f st.dir r.version ∧
      f.minUptime ≤ r.time - f.started

/-- The fetcher with another current version. -/
structure SameSetup (f g : Fetcher) : Prop where
  applied : g.applied = f.applied
  started : g.started = f.started
  minUptime : g.minUptime = f.minUptime

/-- The invariant of `Run`. -/
structure Inv (compiles : Str → Bool) (f : Fetcher) (st : Polling) : Prop where
  setup : SameSetup f st.fetcher
  phase : PhaseInv compiles f st st.phase

section Steps

variable {f : Fetcher} {st st' : Polling}

theorem inv_restart {version : Str} (h : SameSetup f st.fetcher) (hr : st.restarts = [])
    (hfresh : Fresh compiles f st.dir version) (hup : f.minUptime ≤ st.now - f.started) :
    Inv compiles f (st.restart version) where
  setup := h
  phase := .inr ⟨⟨version, st.now⟩, by rw [Polling.restart, hr], hfresh, hup⟩

theorem inv_changed (h : SameSetup f st.fetcher) (hr : st.restarts = [])
    (hs : Saved compiles st.dir s) : Inv compiles f (st.changed s) := by
  unfold Polling.changed
  rw [h.applied, h.started, h.minUptime]
  split
  case isTrue he => exact ⟨⟨h.applied, h.started, h.minUptime⟩, hr, fun _ => hs.unchanged he⟩
  case isFalse he =>
    have hfresh : Fresh compiles f st.dir s.version := hs.fresh (Bool.not_eq_true _ ▸ he)
    split
    case isTrue => exact ⟨h, hr, rfl, hfresh⟩
    case isFalse hup => exact inv_restart h hr hfresh (by omega)

theorem Inv.poll (h : Inv compiles f st) (hp : st.phase = .checking) :
    Inv compiles f (st.poll compiles p) := by
  obtain ⟨hr, hdisk⟩ : PhaseInv compiles f st .checking := hp ▸ h.phase
  unfold Polling.poll
  cases hc : check compiles st.fetcher st.dir st.now p with
  | mk =>
  rcases check_cases hc with ⟨rfl, hfile⟩ | ⟨s, rfl, hs⟩
  · refine ⟨h.setup, hr, fun ha => ?_⟩
    obtain ⟨s, hload, hs⟩ := hdisk ha
    exact ⟨s, (load_congr hfile).trans hload, hs⟩
  · exact inv_changed h.setup hr hs

theorem Inv.step {l : Label} (h : Inv compiles f st) (hs : st.step compiles l = some st') :
    Inv compiles f st' := by
  cases l with
  | pass =>
    cases hs
    refine ⟨h.setup, ?_⟩
    have hp := h.phase
    cases hph : st.phase <;> rw [hph] at hp <;> exact hp
  | poll =>
    simp only [Polling.step] at hs
    split at hs
    case isTrue hp => cases hs; exact h.poll hp
    case isFalse => cases hs
  | tick =>
    simp only [Polling.step] at hs
    split at hs
    case isTrue hp =>
      cases hs
      have hw : PhaseInv compiles f st .waiting := hp ▸ h.phase
      exact ⟨h.setup, hw⟩
    case isFalse => cases hs
  | elapsed =>
    simp only [Polling.step] at hs
    split at hs
    case h_1 s due hp =>
      obtain ⟨hr, hdue, hfresh⟩ : PhaseInv compiles f st (.holding s due) := hp ▸ h.phase
      split at hs
      case isTrue hle => cases hs; exact inv_restart h.setup hr hfresh (by omega)
      case isFalse => cases hs
    case h_2 => cases hs
  | done =>
    simp only [Polling.step] at hs
    split at hs
    case h_1 hp =>
      cases hs
      have hw : PhaseInv compiles f st .waiting := hp ▸ h.phase
      exact ⟨h.setup, .inl hw.1⟩
    case h_2 s due hp =>
      cases hs
      have hw : PhaseInv compiles f st (.holding s due) := hp ▸ h.phase
      exact ⟨h.setup, .inl hw.1⟩
    case h_3 => cases hs

theorem Inv.start (f : Fetcher) (dir : StateDir) (now : Int) (info : Option Str) :
    Inv compiles f.withDefaults (Polling.start f dir now info) := by
  refine ⟨⟨rfl, rfl, rfl⟩, ?_⟩
  simp only [Polling.start]
  split
  · exact .inl rfl
  · exact ⟨rfl, nofun⟩

end Steps

/-- In every run of `Run`, whatever the server answers and however saves go: while
it polls after having adopted a version, what is on disk is that version, and
applying it over a local configuration that disables no collectors gives what
applying the one in use gives, in every mode; `Restart` is called at most once,
with the valid configuration of that version on disk, unlike the one in use, and
not before the agent has run for `MinUptime`. -/
theorem fetcher_sound (f : Fetcher) (dir : StateDir) (now : Int) (info : Option Str)
    (labels : List Label) (st : Polling)
    (h : run (Polling.step compiles) (Polling.start f dir now info) labels = some st) :
    (st.phase = .checking ∨ st.phase = .waiting → st.adopted ≠ [] →
      ∃ s, load st.dir = some s ∧ s.version = st.fetcher.current ∧
        ∀ (mode : Mode) (cfg : LocalConfig), cfg.disabledCollectors.elems = [] →
          (apply cfg s.config mode).omitEmpty = (apply cfg f.applied mode).omitEmpty) ∧
    st.restarts.length ≤ 1 ∧
    ∀ r ∈ st.restarts, ∃ s, load st.dir = some s ∧ s.version = r.version ∧
      validate compiles s.config = .ok () ∧ sameEffect s.config f.applied = false ∧
      f.withDefaults.minUptime ≤ r.time - f.started := by
  have hinv : Inv compiles f.withDefaults st :=
    run_inv (fun _ _ _ hi hs => hi.step hs) labels _ st (Inv.start f dir now info) h
  have hp := hinv.phase
  refine ⟨fun hphase hadopted => ?_, ?_⟩
  · obtain ⟨s, hload, hver, hsame⟩ : Unchanged f.withDefaults st.dir st.fetcher.current := by
      rcases hphase with hph | hph
      · rw [hph] at hp
        exact hp.2 hadopted
      · rw [hph] at hp
        exact hp.2 hadopted
    refine ⟨s, hload, hver, fun mode cfg hcfg => ?_⟩
    calc (apply cfg s.config mode).omitEmpty
        = (apply cfg s.config.omitEmpty mode).omitEmpty := (apply_omitEmpty hcfg s.config mode).symm
      _ = (apply cfg f.applied.omitEmpty mode).omitEmpty := by rw [hsame]; rfl
      _ = (apply cfg f.applied mode).omitEmpty := apply_omitEmpty hcfg f.applied mode
  · have hcalls : st.restarts = [] ∨ ∃ r, st.restarts = [r] ∧
        Fresh compiles f.withDefaults st.dir r.version ∧
        f.withDefaults.minUptime ≤ r.time - f.started := by
      cases hph : st.phase <;> rw [hph] at hp
      case returned => exact hp
      all_goals exact .inl hp.1
    rcases hcalls with hr | ⟨r, hr, ⟨s, hload, hver, hvalid, hdiff⟩, hup⟩
    · simp [hr]
    · rw [hr]
      refine ⟨Nat.le_refl 1, fun r' hr' => ?_⟩
      obtain rfl := List.mem_singleton.mp hr'
      exact ⟨s, hload, hver, hvalid, hdiff, hup⟩

/-! ## A run that adopts one version and restarts for the next -/

/-- A fetcher of an agent that runs since 0 without a remote configuration. -/
def plainFetcher : Fetcher := ⟨.full, [], Config.zero, 0, 0⟩

def sendsVersion (version : String) (c : Config) : Label :=
  .poll ⟨some newSession, .response 200 (Stored.marshal ⟨version.toList, c⟩), .succeeds⟩

/-- The first version is empty; the second one disables a collector and waits for
the agent to have run two minutes. -/
def twoVersions : List Label :=
  [sendsVersion "v1" { Config.zero with disabledCollectors := some [] }, .tick, .pass 60,
    sendsVersion "v2" { Config.zero with disabledCollectors := some ["cpu".toList] },
    .pass defaultMinUptime.toNat, .elapsed]

theorem two_versions_sound : ∃ st, run (Polling.step fun _ => true)
      (Polling.start plainFetcher ⟨none, none⟩ 0 (some [])) twoVersions = some st ∧
    st.adopted = ["v1".toList] ∧ st.restarts.length = 1 ∧
    ∀ r ∈ st.restarts, ∃ s, load st.dir = some s ∧ s.version = r.version ∧
      validate (fun _ => true) s.config = .ok () ∧ sameEffect s.config Config.zero = false ∧
      defaultMinUptime ≤ r.time := by
  refine ⟨_, rfl, rfl, rfl, fun r hr => ?_⟩
  obtain ⟨s, hload, hver, hvalid, hdiff, hup⟩ :=
    (fetcher_sound plainFetcher ⟨none, none⟩ 0 (some []) twoVersions _ rfl).2.2 r hr
  have hup' : defaultMinUptime ≤ r.time - 0 := hup
  exact ⟨s, hload, hver, hvalid, hdiff, by omega⟩

end YominsAgent.Remote
