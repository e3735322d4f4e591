import YominsAgent.Logs.Ship
import YominsAgent.Logs.Tail

/- The log pipeline as one system (`pipeline.go`): the file source, the other
   sources, the shipper and the saving of the positions run side by side over one
   channel and one table of positions, while writers and log rotation change the
   files, and the agent may be stopped, crash and be started again.

   Correspondence (Go ↔ Lean):
     `make(chan Entry, 1000)`        ↔ `System.chan`, `chanCap`
     `FileSource.Run`                ↔ the labels `source`, `abort`
     the other sources               ↔ the label `journal`
     `Shipper.Run`                   ↔ the labels `recv`, `ship`
     `ack` and the closures it calls ↔ the label `ack`
     `Positions.Save`                ↔ the labels `save`, `saveEnd`
     cancellation of the context     ↔ the label `cancel`
   A stop of the process, in order or not, is the label `crash`. -/
namespace YominsAgent.Logs
open Go Lib Option

variable {φ ε : Type}

def chanCap : Nat := 1000

structure PipelineConfig (φ ε : Type) where
  source : SourceConfig φ ε
  shipper : ShipperConfig
  stateDir : Str
  /-- `Shipper.encode`, which does not fail. -/
  encode : Int → Entry ε → Bytes

structure System (φ ε : Type) where
  env : Env φ
  /-- The inodes whose content was cut or replaced. -/
  truncated : List Inode
  saved : Saved
  /-- The agent runs. -/
  up : Bool
  pos : Positions
  /-- What a `Save` under way writes. -/
  snap : Option Saved
  src : Source
  chan : List (Entry ε)
  ship : Shipper (Entry ε)
  /-- How many of the entries due have been acknowledged. -/
  ran : Nat
  /-- History: the number of the process, what each process has sent, passed over
  and acknowledged, and which paths were opened on which inodes, ever and by
  this process. -/
  boot : Nat
  sent : List (Nat × Span Str Inode)
  skipped : List (Nat × Span Str Inode)
  acked : List (Nat × Span Str Inode)
  opens : List (Str × Inode)
  mine : List (Str × Inode)
  /-- The offset of the last open of the path on the inode that did not resume. -/
  start : Str → Inode → Nat

inductive Label (φ ε : Type) where
  | tick (d : Nat)
  /-- Paths are created, renamed and removed. -/
  | world (w : φ)
  | append (i : Inode) (bs : Bytes)
  /-- The content of an inode is replaced. -/
  | truncate (i : Inode) (bs : Bytes)
  | source (pick : Str)
  /-- The source sees that the context is done. -/
  | abort
  /-- Another source sends an entry. -/
  | journal (body : ε) (cursor : Str)
  | recv
  | ship (l : ShipLabel (Entry ε))
  | ack
  | save
  | saveEnd (ok : Bool)
  | cancel
  | crash
  | restart

namespace System

/-- What the step of the source does outside of it; a full channel blocks. -/
def apply (s : System φ ε) (src : Source) : Effect ε → Option (System φ ε)
  | .quiet => some { s with src }
  | .setFile p (i, o) resumed =>
    some { s with
      src, pos := s.pos.setFile p (i, o), opens := (p, i) :: s.opens, mine := (p, i) :: s.mine
      start := if resumed then s.start else Cursors.set₂ s.start p i o }
  | .forget p => some { s with src, pos := s.pos.forget p }
  | .skip sp => some { s with src, skipped := s.skipped ++ [(s.boot, sp)] }
  | .send e =>
    if s.chan.length < chanCap then
      some { s with
        src, chan := s.chan ++ [e]
        sent := s.sent ++ match e.ack with
          | .file sp => [(s.boot, sp)]
          | .journal _ => [] }
    else none

def due (s : System φ ε) : List (Entry ε) := s.ship.acked.drop s.ran

/-- `e.ack()`. -/
def runAck (s : System φ ε) (e : Entry ε) : System φ ε :=
  let s := { s with ran := s.ran + 1 }
  match e.ack with
  | .file sp =>
    { s with
      pos := s.pos.setFile sp.path (sp.file, sp.hi), acked := s.acked ++ [(s.boot, sp)] }
  | .journal c => { s with pos := s.pos.setJournalCursor c }

def newSource (now : Int) : Source :=
  { files := [], lastFound := none, started := now, control := .idle }

def boots (s : System φ ε) : System φ ε :=
  { s with
    pos := Positions.load s.saved, snap := none, src := newSource s.env.now, chan := []
    ship := newRun, ran := 0, mine := [] }

end System

/-- The labels of the shipper on its own. -/
def ShipLabel.isOwn : ShipLabel ε → Bool
  | .recv .. => false
  | .cancel => false
  | _ => true

/-- The source may notice the end of the context: in the `select` of `Run`, or in
that of `emit`. -/
def canAbort (cfg : SourceConfig φ ε) (s : System φ ε) : Bool :=
  match s.src.control with
  | .idle => true
  | _ =>
    match sourceStep cfg s.env s.pos [] s.src with
    | some (_, .send _) => true
    | _ => false

variable (cfg : PipelineConfig φ ε)

/-- The shipper's step, which waits until the acknowledgements due are done. -/
def shipperStep (s : System φ ε) (l : ShipLabel (Entry ε)) : Option (System φ ε) :=
  if s.due.isEmpty then
    (shipStep (fun now e => some (cfg.encode now e)) (newShipper cfg.shipper) s.ship l).map
      fun ship => { s with ship }
  else none

def agentStep (s : System φ ε) : Label φ ε → Option (System φ ε)
  | .source pick =>
    (sourceStep cfg.source s.env s.pos pick s.src).bind fun (src, effect) => s.apply src effect
  | .abort =>
    if s.ship.cancelled && canAbort cfg.source s then
      some { s with src := { s.src with control := .stopped } }
    else none
  | .journal body cursor =>
    if s.chan.length < chanCap then
      some { s with chan := s.chan ++ [⟨body, .journal cursor⟩] }
    else none
  | .recv =>
    match s.chan with
    | [] => none
    | e :: chan => shipperStep cfg { s with chan } (.recv e s.env.now)
  | .ship l => if l.isOwn then shipperStep cfg s l else none
  | .ack =>
    match s.due with
    | [] => none
    | e :: _ => some (s.runAck e)
  | .save =>
    if s.snap.isSome then none
    else
      let (snap, pos) := s.pos.beginSave cfg.stateDir
      some { s with snap, pos }
  | .saveEnd ok =>
    s.snap.map fun t => { s with snap := none, saved := if ok then t else s.saved }
  | .cancel => some { s with ship := { s.ship with cancelled := true } }
  | .crash => some { s.boots with up := false }
  | _ => none

def step (s : System φ ε) : Label φ ε → Option (System φ ε)
  | .tick d => some { s with env := { s.env with now := s.env.now + d } }
  | .world world => some { s with env := { s.env with world } }
  | .append i bs =>
    some { s with env := { s.env with data := Cursors.set s.env.data i (s.env.data i ++ bs) } }
  | .truncate i bs =>
    some { s with
      env := { s.env with data := Cursors.set s.env.data i bs }, truncated := i :: s.truncated }
  | .restart => if s.up then none else some { s.boots with up := true, boot := s.boot + 1 }
  | a => if s.up then agentStep cfg s a else none

/-- The system before the agent is started for the first time: nothing is saved. -/
def System.init (env : Env φ) : System φ ε :=
  { env, truncated := [], saved := ⟨fun _ => none, []⟩, up := false
    pos := ⟨fun _ => none, [], false⟩, snap := none, src := newSource env.now, chan := []
    ship := newRun, ran := 0, boot := 0, sent := [], skipped := [], acked := [], opens := []
    mine := [], start := fun _ _ => 0 }

def Leads (fs : FileSystem φ) (w : φ) (p : Str) (i : Inode) : Prop :=
  (fs.stat w p).map (·.1) = some i

instance (fs : FileSystem φ) (w : φ) (p : Str) (i : Inode) : Decidable (Leads fs w p i) :=
  inferInstanceAs (Decidable (_ = _))

/-- What is assumed of the surroundings: an inode that a followed path no longer
leads to does not come back to it, and after the cancellation no post succeeds. -/
def assumed (s : System φ ε) : Label φ ε → Bool
  | .world w =>
    s.opens.all fun (p, i) =>
      decide (Leads cfg.source.fs w p i → Leads cfg.source.fs s.env.world p i)
  | .ship l => honest s.ship l
  | _ => true

/-! ## What a step leaves alone -/

section Frame
variable {cfg} {s s' : System φ ε} {a : Label φ ε} {src : Source}

/-- What no effect of the source changes. -/
structure Applied (s : System φ ε) (src : Source) (s' : System φ ε) : Prop where
  src : s'.src = src
  env : s'.env = s.env
  truncated : s'.truncated = s.truncated
  up : s'.up = s.up
  boot : s'.boot = s.boot
  ship : s'.ship = s.ship
  ran : s'.ran = s.ran
  mine : ∀ x ∈ s.mine, x ∈ s'.mine
  opens : ∀ x ∈ s.opens, x ∈ s'.opens

theorem apply_frame {effect : Effect ε} (h : s.apply src effect = some s') : Applied s src s' := by
  cases effect with
  | send =>
    simp only [System.apply] at h
    split at h
    · cases h; exact ⟨rfl, rfl, rfl, rfl, rfl, rfl, rfl, fun _ hx => hx, fun _ hx => hx⟩
    · cases h
  | setFile =>
    cases h
    exact ⟨rfl, rfl, rfl, rfl, rfl, rfl, rfl, fun x hx => List.mem_cons_of_mem _ hx,
      fun x hx => List.mem_cons_of_mem _ hx⟩
  | _ => cases h; exact ⟨rfl, rfl, rfl, rfl, rfl, rfl, rfl, fun _ hx => hx, fun _ hx => hx⟩

theorem shipperStep_eq_some {l : ShipLabel (Entry ε)} (h : shipperStep cfg s l = some s') :
    s.due = [] ∧ ∃ ship, shipStep (fun now e => some (cfg.encode now e))
      (newShipper cfg.shipper) s.ship l = some ship ∧ s' = { s with ship } := by
  unfold shipperStep at h
  split at h
  · next hdue =>
    obtain ⟨ship, hstep, rfl⟩ := map_eq_some_iff.mp h
    exact ⟨List.isEmpty_iff.mp hdue, ship, hstep, rfl⟩
  · cases h

/-- Every step of the agent, by its label. -/
inductive AgentMove (cfg : PipelineConfig φ ε) (s : System φ ε) :
    Label φ ε → System φ ε → Prop where
  | source (pick : Str) (src : Source) (effect : Effect ε) (s' : System φ ε)
      (hsrc : sourceStep cfg.source s.env s.pos pick s.src = some (src, effect))
      (happly : s.apply src effect = some s') : AgentMove cfg s (.source pick) s'
  | abort (hc : s.ship.cancelled = true) (hcan : canAbort cfg.source s = true) :
      AgentMove cfg s .abort { s with src := { s.src with control := .stopped } }
  | journal (body : ε) (cursor : Str) : AgentMove cfg s (.journal body cursor)
      { s with chan := s.chan ++ [⟨body, .journal cursor⟩] }
  | recv (e : Entry ε) (chan : List (Entry ε)) (s' : System φ ε) (hchan : s.chan = e :: chan)
      (h : shipperStep cfg { s with chan } (.recv e s.env.now) = some s') :
      AgentMove cfg s .recv s'
  | ship (l : ShipLabel (Entry ε)) (s' : System φ ε) (hl : l.isOwn = true)
      (h : shipperStep cfg s l = some s') : AgentMove cfg s (.ship l) s'
  | ack (e : Entry ε) (rest : List (Entry ε)) (hdue : s.due = e :: rest) :
      AgentMove cfg s .ack (s.runAck e)
  | save (hsnap : s.snap = none) : AgentMove cfg s .save
      { s with snap := (s.pos.beginSave cfg.stateDir).1, pos := (s.pos.beginSave cfg.stateDir).2 }
  | saveEnd (ok : Bool) (t : Saved) (hsnap : s.snap = some t) : AgentMove cfg s (.saveEnd ok)
      { s with snap := none, saved := if ok then t else s.saved }
  | cancel : AgentMove cfg s .cancel { s with ship := { s.ship with cancelled := true } }
  | crash : AgentMove cfg s .crash { s.boots with up := false }

theorem agentStep_move (h : agentStep cfg s a = some s') : AgentMove cfg s a s' := by
  cases a with
  | source pick =>
    obtain ⟨⟨src, effect⟩, hsrc, happly⟩ := bind_eq_some_iff.mp h
    exact .source pick src effect s' hsrc happly
  | abort =>
    obtain ⟨hc, hs⟩ := ite_none_right_eq_some.mp h
    cases hs
    rw [Bool.and_eq_true] at hc
    exact .abort hc.1 hc.2
  | journal body cursor =>
    obtain ⟨-, hs⟩ := ite_none_right_eq_some.mp h
    cases hs
    exact .journal body cursor
  | recv =>
    simp only [agentStep] at h
    split at h
    · cases h
    · next e chan hchan => exact .recv e chan s' hchan h
  | ship l =>
    obtain ⟨hl, hs⟩ := ite_none_right_eq_some.mp h
    exact .ship l s' hl hs
  | ack =>
    simp only [agentStep] at h
    split at h
    · cases h
    · next e rest hdue =>
      cases h
      exact .ack e rest hdue
  | save =>
    obtain ⟨hsnap, hs⟩ := ite_none_left_eq_some.mp h
    cases hs
    exact .save (by simpa using hsnap)
  | saveEnd ok =>
    obtain ⟨t, hsnap, rfl⟩ := map_eq_some_iff.mp h
    exact .saveEnd ok t hsnap
  | cancel => cases h; exact .cancel
  | crash => cases h; exact .crash
  | _ => cases h

/-- The agent does not change its surroundings, and the source changes by its own
steps only. -/
theorem agentStep_env (h : agentStep cfg s a = some s') : s'.env = s.env ∧
    (s'.src = s.src ∨
      (∃ pick effect, sourceStep cfg.source s.env s.pos pick s.src = some (s'.src, effect)) ∨
      s'.src = { s.src with control := .stopped } ∨ ∃ now, s'.src = System.newSource now) := by
  cases agentStep_move h with
  | source pick src effect s' hsrc happly =>
    have hf := apply_frame happly
    exact ⟨hf.env, .inr (.inl ⟨pick, effect, hf.src ▸ hsrc⟩)⟩
  | abort => exact ⟨rfl, .inr (.inr (.inl rfl))⟩
  | recv _ _ _ _ h | ship _ _ _ h =>
    obtain ⟨-, ship, -, rfl⟩ := shipperStep_eq_some h
    exact ⟨rfl, .inl rfl⟩
  | ack e =>
    unfold System.runAck
    cases e.ack <;> exact ⟨rfl, .inl rfl⟩
  | crash => exact ⟨rfl, .inr (.inr (.inr ⟨_, rfl⟩))⟩
  | _ => exact ⟨rfl, .inl rfl⟩

/-- A step is one of the agent, a change around it, or a start of it. -/
theorem step_cases (h : step cfg s a = some s') : agentStep cfg s a = some s' ∨
    (∃ env truncated, s' = { s with env, truncated } ∧
      (env.world = s.env.world ∨ ∃ w, a = .world w ∧ env.world = w)) ∨
    s' = { s.boots with up := true, boot := s.boot + 1 } := by
  have hagent : (if s.up then agentStep cfg s a else none) = some s' →
      agentStep cfg s a = some s' := by
    intro h
    split at h
    · exact h
    · cases h
  cases a with
  | tick | append | truncate => cases h; exact .inr (.inl ⟨_, _, rfl, .inl rfl⟩)
  | world w => cases h; exact .inr (.inl ⟨_, _, rfl, .inr ⟨w, rfl, rfl⟩⟩)
  | restart =>
    simp only [step] at h
    split at h
    · cases h
    · cases h
      exact .inr (.inr rfl)
  | _ => exact .inl (hagent h)

theorem step_world (h : step cfg s a = some s') :
    s'.env.world = s.env.world ∨ ∃ w, a = .world w ∧ s'.env.world = w := by
  rcases step_cases h with h | ⟨env, truncated, rfl, hw⟩ | rfl
  · exact .inl (congrArg Env.world (agentStep_env h).1)
  · exact hw
  · exact .inl rfl

theorem step_src (h : step cfg s a = some s') : s'.src = s.src ∨
    (∃ pick effect, sourceStep cfg.source s.env s.pos pick s.src = some (s'.src, effect)) ∨
    s'.src = { s.src with control := .stopped } ∨ ∃ now, s'.src = System.newSource now := by
  rcases step_cases h with h | ⟨env, truncated, rfl, -⟩ | rfl
  · exact (agentStep_env h).2
  · exact .inl rfl
  · exact .inr (.inr (.inr ⟨_, rfl⟩))

end Frame

end YominsAgent.Logs
