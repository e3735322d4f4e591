import YominsAgent.Logs.Delivery

/- What holds in every state of the pipeline, and the view of its state as the
   cursors of `Lib.Cursor`.

   The invariant says which files the tables of positions and the entries in flight
   can be about. A path that leads to an inode this process has opened is followed
   (`Inv.here`); one that leads to an inode opened by an earlier process has not
   been opened by this one (`Inv.old`), and then all tables still agree on it
   (`Inv.untouched`). So when the source begins a file afresh nothing is about it.

   This module has the invariant, what it takes to keep it when the source does
   not act (`Others`), and the case of each such step. -/
namespace YominsAgent.Logs
open Go Lib List

variable {φ ε : Type}

/-- The stretch of a file that an entry was read from. -/
def Entry.span? (e : Entry ε) : Option (Span Str Inode) :=
  match e.ack with
  | .file sp => some sp
  | .journal _ => none

/-- Inode and offset of each followed path. -/
def marks (files : List TailedFile) (p : Str) : Option (Inode × Nat) :=
  (findFile files p).map fun tf => (tf.inode, tf.offset)

/-- How far the reader of the inode under the path has come. -/
def headOf (m : Table Str Inode) (p : Str) (i : Inode) : Option Nat :=
  (m p).bind fun x => if x.1 = i then some x.2 else none

namespace System

/-- The entries that will be acknowledged; after the cancellation, only those due. -/
def inFlight (s : System φ ε) : List (Entry ε) :=
  s.due ++ if s.ship.cancelled then [] else waiting s.ship ++ s.chan

def cursors (s : System φ ε) : Cursors Str Inode :=
  { pos := s.pos.files
    snap := s.snap.map (·.files)
    saved := s.saved.files
    queue := s.inFlight.filterMap Entry.span?
    acked := s.acked.map (·.2)
    skipped := s.skipped.map (·.2)
    start := s.start
    head := if s.ship.cancelled then fun _ _ => none else headOf (marks s.src.files)
    dead := s.truncated }

def Untouched (s : System φ ε) (p : Str) : Prop := ∀ i, (p, i) ∉ s.mine

end System

/-- The span is a piece that `emit` took for blank, with or without its newline. -/
def BlankAt (data : Bytes) (sp : Span Str Inode) : Prop :=
  ∃ line bs, isBlank line = true ∧ (bs = line ∨ bs = line ++ [10]) ∧ At data sp.lo bs ∧
    sp.hi = sp.lo + bs.length

def Globbed (cfg : SourceConfig φ ε) (p : Str) : Prop :=
  ∃ g ∈ cfg.globs, ∃ w, p ∈ cfg.fs.glob w g.2

variable (cfg : SourceConfig φ ε) (s : System φ ε)

/-- A followed file that is still in place will have been seen when the discovery
ends. -/
structure Searching (d : Discovery) : Prop where
  ahead : ∀ p tf, s.src.file? p = some tf → Leads cfg.fs s.env.world p tf.inode →
    p ∈ d.seen ∨ p ∈ d.found ∨ ∃ g ∈ d.todo, p ∈ cfg.fs.glob s.env.world g.2
  found : ∀ p ∈ d.found, Globbed cfg p
  todo : ∀ g ∈ d.todo, g ∈ cfg.globs

structure Candidate (d : Discovery) (p : Str) : Prop extends Searching cfg s d where
  seen : p ∈ d.seen
  globbed : Globbed cfg p
  new : s.src.file? p = none

structure Opened (d : Discovery) (p : Str) (i : Inode) : Prop extends Candidate cfg s d p where
  notMine : (p, i) ∉ s.mine
  untouched : (p, i) ∈ s.opens → s.Untouched p
  left : ∀ j, j ≠ i → (p, j) ∈ s.opens → ¬ Leads cfg.fs s.env.world p j

/-- What holds where the source stands. -/
def ControlOk : SourceControl → Prop
  | .discovering d => Searching cfg s d
  | .opening d p => Candidate cfg s d p
  | .opened d p i _ => Opened cfg s d p i
  | .sized d p i _ size => Opened cfg s d p i ∧
      (i ∉ s.truncated → size ≤ (s.env.data i).length ∧ ∀ o, s.cursors.Claims p i o → o ≤ size)
  | .registering d tf resumed => Opened cfg s d tf.path tf.inode ∧ tf.part = [] ∧ tf.gone = false ∧
      (tf.inode ∉ s.truncated → tf.offset ≤ (s.env.data tf.inode).length ∧
        if resumed then s.pos.files tf.path = some (tf.inode, tf.offset) ∧ s.Untouched tf.path
        else ∀ o, ¬ s.cursors.Claims tf.path tf.inode o)
  | .forgetting p _ => ∃ i, (p, i) ∈ s.mine
  | .emitting p lines rest _ _ => ∀ tf, s.src.file? p = some tf → tf.part = [] ∧
      (tf.inode ∉ s.truncated → At (s.env.data tf.inode) tf.offset (joinLines lines ++ rest))
  | _ => True

structure Inv : Prop where
  claimed : ∀ p i o, s.cursors.Claims p i o →
    (p, i) ∈ s.opens ∧ (i ∉ s.truncated → o ≤ (s.env.data i).length)
  queued : ∀ sp ∈ s.cursors.queue, (sp.path, sp.file) ∈ s.mine
  mine : ∀ x ∈ s.mine, x ∈ s.opens
  followed : ∀ p tf, s.src.file? p = some tf → (p, tf.inode) ∈ s.mine ∧ Globbed cfg p ∧
    (tf.inode ∉ s.truncated → At (s.env.data tf.inode) tf.offset tf.part)
  here : ∀ p i, (p, i) ∈ s.mine → Leads cfg.fs s.env.world p i →
    ∃ tf, s.src.file? p = some tf ∧ tf.inode = i ∧ tf.gone = false
  old : ∀ p i, (p, i) ∈ s.opens → (p, i) ∉ s.mine → Leads cfg.fs s.env.world p i → s.Untouched p
  untouched : ∀ p, s.Untouched p → s.cursors.Uniform p
  blank : ∀ x ∈ s.skipped, x.2.file ∉ s.truncated → BlankAt (s.env.data x.2.file) x.2
  ran : s.ran ≤ s.ship.acked.length
  control : ControlOk cfg s s.src.control

/-- What a step leaves alone that does not change the followed files: no path comes
back to an inode, contents only grow, and no table or entry is about anything
new. -/
structure Others (s' : System φ ε) : Prop where
  files : s'.src.files = s.src.files
  mine : s'.mine = s.mine
  opens : s'.opens = s.opens
  leads : ∀ p i, (p, i) ∈ s.opens → Leads cfg.fs s'.env.world p i → Leads cfg.fs s.env.world p i
  truncated : ∀ i ∈ s.truncated, i ∈ s'.truncated
  data : ∀ i, i ∉ s'.truncated → ∃ more, s'.env.data i = s.env.data i ++ more
  queue : ∀ sp ∈ s'.cursors.queue, sp ∈ s.cursors.queue
  claims : ∀ p i o, s'.cursors.Claims p i o → s.cursors.Claims p i o
  uniform : ∀ p, s.cursors.Uniform p → (∀ sp ∈ s.cursors.queue, sp.path ≠ p) →
    s'.cursors.Uniform p ∧ s'.pos.files p = s.pos.files p

variable {cfg s} {s' : System φ ε} {sp : Span Str Inode} {fs : FileSystem φ} {w : φ} {p : Str}
  {i : Inode} {src : Source} {chan : List (Entry ε)}

theorem Inv.controlOk (hI : Inv cfg s) {control : SourceControl} (hc : s.src.control = control) :
    ControlOk cfg s control :=
  hc ▸ hI.control

theorem BlankAt.grow {data more : Bytes} (h : BlankAt data sp) : BlankAt (data ++ more) sp := by
  obtain ⟨line, bs, hline, hbs, hat, hhi⟩ := h
  exact ⟨line, bs, hline, hbs, hat.grow, hhi⟩

theorem Leads.exists (h : Leads fs w p i) : fs.stat w p ≠ none := by
  intro hn
  simp [Leads, hn] at h

theorem Leads.unique {j : Inode} (hi : Leads fs w p i) (hj : Leads fs w p j) : i = j :=
  Option.some.inj (hi.symm.trans hj)

namespace Others

section
variable (ho : Others cfg s s')
include ho

theorem file? (p : Str) : s'.src.file? p = s.src.file? p :=
  congrArg (findFile · p) ho.files

theorem alive (h : i ∉ s'.truncated) : i ∉ s.truncated :=
  fun hi => h (ho.truncated i hi)

theorem untouched : s'.Untouched p ↔ s.Untouched p := by
  unfold System.Untouched
  rw [ho.mine]

theorem at_grow {off : Nat} {bs : Bytes} (hi : i ∉ s'.truncated) (h : At (s.env.data i) off bs) :
    At (s'.env.data i) off bs := by
  obtain ⟨more, hmore⟩ := ho.data i hi
  exact hmore ▸ h.grow

theorem length_le (hi : i ∉ s'.truncated) :
    (s.env.data i).length ≤ (s'.env.data i).length := by
  obtain ⟨more, hmore⟩ := ho.data i hi
  rw [hmore, length_append]
  omega

end

variable {d : Discovery}

section
variable (ho : Others cfg s s') (hI : Inv cfg s)
include ho hI

theorem searching (h : Searching cfg s d) : Searching cfg s' d := by
  refine ⟨?_, h.found, h.todo⟩
  intro p tf hp hleads
  rw [ho.file?] at hp
  have hopen : (p, tf.inode) ∈ s.opens := hI.mine _ (hI.followed p tf hp).1
  rcases h.ahead p tf hp (ho.leads p _ hopen hleads) with hseen | hfound | ⟨g, hg, hglob⟩
  · exact .inl hseen
  · exact .inr (.inl hfound)
  · exact .inr (.inr ⟨g, hg, cfg.fs.glob_stable _ _ _ _ hglob hleads.exists⟩)

theorem opened (h : Opened cfg s d p i) : Opened cfg s' d p i where
  toSearching := ho.searching hI h.toSearching
  seen := h.seen
  globbed := h.globbed
  new := (ho.file? p).trans h.new
  notMine := by rw [ho.mine]; exact h.notMine
  untouched := by rw [ho.opens, ho.untouched]; exact h.untouched
  left := by
    rw [ho.opens]
    exact fun j hj hmem hleads => h.left j hj hmem (ho.leads p j hmem hleads)

theorem control {c : SourceControl} (h : ControlOk cfg s c) : ControlOk cfg s' c := by
  cases c with
  | discovering => exact ho.searching hI h
  | opening d p =>
    exact { toSearching := ho.searching hI h.toSearching, seen := h.seen, globbed := h.globbed,
            new := (ho.file? p).trans h.new }
  | opened => exact ho.opened hI h
  | sized d p i =>
    refine ⟨ho.opened hI h.1, fun hi => ?_⟩
    obtain ⟨hsize, hclaims⟩ := h.2 (ho.alive hi)
    exact ⟨hsize.trans (ho.length_le hi), fun o hc => hclaims o (ho.claims p i o hc)⟩
  | registering d tf resumed =>
    obtain ⟨hopened, hpart, hgone, hnew⟩ := h
    refine ⟨ho.opened hI hopened, hpart, hgone, fun hi => ?_⟩
    obtain ⟨hoff, hres⟩ := hnew (ho.alive hi)
    refine ⟨hoff.trans (ho.length_le hi), ?_⟩
    cases resumed with
    | true =>
      obtain ⟨hpos, hun⟩ := hres
      have hq : ∀ sp ∈ s.cursors.queue, sp.path ≠ tf.path :=
        fun sp hsp he => hun sp.file (he ▸ hI.queued sp hsp)
      exact ⟨(ho.uniform _ (hI.untouched _ hun) hq).2.trans hpos, ho.untouched.mpr hun⟩
    | false => exact fun o hc => hres o (ho.claims _ _ o hc)
  | forgetting p =>
    show ∃ i, (p, i) ∈ s'.mine
    rw [ho.mine]
    exact h
  | emitting =>
    intro tf hp
    rw [ho.file?] at hp
    exact ⟨(h tf hp).1, fun hi => ho.at_grow hi ((h tf hp).2 (ho.alive hi))⟩
  | _ => trivial

/-- The invariant is kept, once the acknowledgements and the place of the source are
accounted for. -/
theorem inv (hskip : s'.skipped = s.skipped) (hran : s'.ran ≤ s'.ship.acked.length)
    (hc : ControlOk cfg s' s'.src.control) :
    Inv cfg s' where
  claimed p i o h := by
    obtain ⟨hopen, hlen⟩ := hI.claimed p i o (ho.claims p i o h)
    exact ⟨ho.opens ▸ hopen, fun hi => (hlen (ho.alive hi)).trans (ho.length_le hi)⟩
  queued sp hsp := ho.mine ▸ hI.queued sp (ho.queue sp hsp)
  mine := by rw [ho.mine, ho.opens]; exact hI.mine
  followed p tf hp := by
    rw [ho.file?] at hp
    obtain ⟨hmine, hglob, hat⟩ := hI.followed p tf hp
    exact ⟨ho.mine ▸ hmine, hglob, fun hi => ho.at_grow hi (hat (ho.alive hi))⟩
  here p i hmine hleads := by
    rw [ho.mine] at hmine
    rw [ho.file?]
    exact hI.here p i hmine (ho.leads p i (hI.mine _ hmine) hleads)
  old p i hopen hmine hleads := by
    rw [ho.opens] at hopen
    rw [ho.mine] at hmine
    exact ho.untouched.mpr (hI.old p i hopen hmine (ho.leads p i hopen hleads))
  untouched p hun := by
    rw [ho.untouched] at hun
    exact (ho.uniform p (hI.untouched p hun) fun sp hsp he => hun sp.file (he ▸ hI.queued sp hsp)).1
  blank x hx hi := by
    rw [hskip] at hx
    obtain ⟨more, hmore⟩ := ho.data x.2.file hi
    exact hmore ▸ (hI.blank x hx (ho.alive hi)).grow
  ran := hran
  control := hc

end

theorem of_env {env : Env φ} {truncated : List Inode}
    (hleads : ∀ p i, (p, i) ∈ s.opens → Leads cfg.fs env.world p i → Leads cfg.fs s.env.world p i)
    (htr : ∀ i ∈ s.truncated, i ∈ truncated)
    (hdata : ∀ i, i ∉ truncated → ∃ more, env.data i = s.env.data i ++ more) :
    Others cfg s { s with env, truncated } where
  files := rfl
  mine := rfl
  opens := rfl
  leads := hleads
  truncated := htr
  data := hdata
  queue _ h := h
  claims _ _ _ h := h
  uniform _ h _ := ⟨h, rfl⟩

theorem of_passive {pos : Positions} {snap : Option Saved} {saved : Saved}
    {ship : Shipper (Entry ε)} {ran : Nat} {sent acked : List (Nat × Span Str Inode)}
    (hfiles : src.files = s.src.files)
    (h : let s' : System φ ε := { s with pos, snap, saved, src, chan, ship, ran, sent, acked }
      s'.cursors = s.cursors ∨ Cursors.Passive s.cursors s'.cursors) :
    Others cfg s { s with pos, snap, saved, src, chan, ship, ran, sent, acked } where
  files := hfiles
  mine := rfl
  opens := rfl
  leads _ _ _ hl := hl
  truncated _ hi := hi
  data i _ := ⟨[], (append_nil _).symm⟩
  queue sp hsp := by
    rcases h with h | h
    · exact h ▸ hsp
    · exact h.mem_queue hsp
  claims p i o hc := by
    rcases h with h | h
    · exact h ▸ hc
    · exact h.claims hc
  uniform p hu hq := by
    rcases h with h | h
    · exact ⟨h ▸ hu, congrFun (congrArg Cursors.pos h) p⟩
    · refine ⟨h.uniform hu hq, ?_⟩
      exact (h.tables_same hu hq Cursors.pos_mem_tables).trans
        (hu _ Cursors.pos_mem_tables).symm

end Others

/-! ## The steps of the shipper and of the saving -/

theorem due_eq_nil (hran : s.ran ≤ s.ship.acked.length) (h : s.due = []) :
    s.ran = s.ship.acked.length := by
  have := drop_eq_nil_iff.mp h
  omega

theorem cursors_eq {ship : Shipper (Entry ε)} (hfiles : src.files = s.src.files)
    (hcan : ship.cancelled = s.ship.cancelled)
    (hq : ({ s with chan, ship, src } : System φ ε).inFlight.filterMap Entry.span? =
      s.inFlight.filterMap Entry.span?) :
    ({ s with chan, ship, src } : System φ ε).cursors = s.cursors := by
  unfold System.cursors
  simp only [hq, hcan, hfiles]

theorem cursors_journal (body : ε) (cursor : Str) :
    ({ s with chan := s.chan ++ [⟨body, .journal cursor⟩] } : System φ ε).cursors = s.cursors := by
  refine cursors_eq rfl rfl ?_
  have hspan : Entry.span? (⟨body, .journal cursor⟩ : Entry ε) = none := rfl
  cases hc : s.ship.cancelled <;>
    simp [System.inFlight, System.due, hc, filterMap_append, hspan]

/-- Between two acknowledgements the shipper moves entries on, in order. -/
theorem cursors_ship {ship : Shipper (Entry ε)} {l : List (Entry ε)} (hdue : s.due = [])
    (hran : s.ran ≤ s.ship.acked.length) (hcan : ship.cancelled = s.ship.cancelled)
    (hack : ship.acked = s.ship.acked ++ l)
    (hlive : s.ship.cancelled = false → waiting s.ship ++ s.chan = l ++ (waiting ship ++ chan))
    (hdead : s.ship.cancelled = true → l = []) :
    ({ s with chan, ship } : System φ ε).cursors = s.cursors := by
  refine cursors_eq rfl hcan (congrArg _ ?_)
  have hdue' : ({ s with chan, ship } : System φ ε).due = l := by
    show ship.acked.drop s.ran = l
    rw [hack, due_eq_nil hran hdue, drop_left]
  unfold System.inFlight
  rw [hdue', hdue]
  show l ++ (if ship.cancelled then [] else waiting ship ++ chan) = _
  rw [hcan]
  cases hc : s.ship.cancelled with
  | true => simp [hdead hc]
  | false => simpa using (hlive hc).symm

variable {pcfg : PipelineConfig φ ε} {l : ShipLabel (Entry ε)} {e : Entry ε} {rest : List (Entry ε)}
  {a : Label φ ε}

theorem cursors_recv {now : Int} (hran : s.ran ≤ s.ship.acked.length) (hchan : s.chan = e :: chan)
    (h : shipperStep pcfg { s with chan } (.recv e now) = some s') :
    s'.cursors = s.cursors ∧ s'.ship.acked = s.ship.acked ∧ s'.ship.cancelled = s.ship.cancelled ∧
      (s'.ship.control = .stopped → s.ship.control = .stopped ∨ s.ship.cancelled = true) ∧
      ∃ ship, s' = { s with chan, ship } := by
  obtain ⟨hdue, ship, hstep, rfl⟩ := shipperStep_eq_some h
  obtain ⟨hout, hw⟩ := shipStep_recv hstep
  obtain ⟨hcan, hack⟩ := Prod.mk.inj hout
  refine ⟨?_, hack, hcan, shipStep_stopped hstep, ship, rfl⟩
  refine cursors_ship (s := s) (l := []) hdue hran hcan ?_ ?_ fun _ => rfl
  · rw [hack, append_nil]
  · intro _
    rw [hchan, hw]
    simp

theorem cursors_own (hran : s.ran ≤ s.ship.acked.length) (hl : l.isOwn = true)
    (hg : honest s.ship l = true) (h : shipperStep pcfg s l = some s') :
    s'.cursors = s.cursors ∧ s.ship.acked.length ≤ s'.ship.acked.length ∧
      s'.ship.cancelled = s.ship.cancelled ∧
      (s'.ship.control = .stopped → s.ship.control = .stopped ∨ s.ship.cancelled = true) ∧
      ∃ ship, s' = { s with ship } := by
  obtain ⟨hdue, ship, hstep, rfl⟩ := shipperStep_eq_some h
  have hrecv : ∀ e now, l ≠ .recv e now := by
    rintro e now rfl
    cases hl
  have hcancel : l ≠ .cancel := by
    rintro rfl
    cases hl
  obtain ⟨hcan, now, hack, hlive, hdead⟩ := shipStep_own hrecv hcancel hg hstep
  refine ⟨?_, ?_, hcan, shipStep_stopped hstep, ship, rfl⟩
  · refine cursors_ship hdue hran hcan hack (fun hc => ?_) hdead
    rw [hlive hc, append_assoc]
  · show s.ship.acked.length ≤ ship.acked.length
    rw [hack, length_append]
    omega

section
variable (hdue : s.due = e :: rest)
include hdue

/-- The first entry in flight is the one to acknowledge next. -/
theorem inFlight_due : s.inFlight = e :: (s.runAck e).inFlight := by
  have hrest : s.ship.acked.drop (s.ran + 1) = rest := by
    rw [← tail_drop]
    exact congrArg tail hdue
  rw [System.inFlight, hdue, cons_append]
  cases hack : e.ack <;> simp [System.inFlight, System.due, System.runAck, hack, hrest]

theorem queue_ack (hack : e.ack = .file sp) :
    s.cursors.queue = sp :: (s.runAck e).cursors.queue := by
  have hspan : e.span? = some sp := by simp [Entry.span?, hack]
  show s.inFlight.filterMap Entry.span? = sp :: (s.runAck e).inFlight.filterMap Entry.span?
  rw [inFlight_due hdue, filterMap_cons_some hspan]

theorem cursors_ackJournal {cursor : Str} (hack : e.ack = .journal cursor) :
    (s.runAck e).cursors = s.cursors := by
  have hspan : e.span? = none := by simp [Entry.span?, hack]
  have hq : s.inFlight.filterMap Entry.span? = (s.runAck e).inFlight.filterMap Entry.span? := by
    rw [inFlight_due hdue, filterMap_cons_none hspan]
  unfold System.cursors
  rw [hq]
  simp [System.runAck, hack]

theorem cursors_ack :
    (s.runAck e).cursors = s.cursors ∨ Cursors.Passive s.cursors (s.runAck e).cursors := by
  cases hack : e.ack with
  | journal => exact .inl (cursors_ackJournal hdue hack)
  | file sp =>
    right
    have hq := queue_ack hdue hack
    have hcur : (s.runAck e).cursors = { s.cursors with
        queue := (s.runAck e).cursors.queue, acked := s.cursors.acked ++ [sp]
        pos := (s.pos.setFile sp.path (sp.file, sp.hi)).files } := by
      simp [System.cursors, System.runAck, hack]
    rw [hcur]
    -- the zero position of a path without one is not recorded
    rcases Positions.setFile_files s.pos sp.path (sp.file, sp.hi) with hset | ⟨hset, -⟩
    · rw [hset]
      exact .ack sp _ hq
    · rw [hset]
      exact .ackIdle sp _ hq

end

theorem cursors_save (stateDir : Str) (hsnap : s.snap = none) :
    let s' : System φ ε := { s with
      snap := (s.pos.beginSave stateDir).1, pos := (s.pos.beginSave stateDir).2 }
    s'.cursors = s.cursors ∨ Cursors.Passive s.cursors s'.cursors := by
  cases hb : (s.pos.beginSave stateDir).1 with
  | none =>
    left
    simp [System.cursors, hsnap, System.inFlight, System.due]
  | some =>
    right
    have hstep := Cursors.Passive.snapshot (c := s.cursors)
    simpa [System.cursors, System.inFlight, System.due, Positions.beginSave_eq_some hb] using hstep

theorem cursors_saveEnd {t : Saved} (hsnap : s.snap = some t) (ok : Bool) :
    Cursors.Passive s.cursors
      ({ s with snap := none, saved := if ok then t else s.saved } : System φ ε).cursors := by
  cases ok with
  | true => exact Cursors.Passive.save (c := s.cursors) t.files (by simp [System.cursors, hsnap])
  | false => exact Cursors.Passive.abandon (c := s.cursors)

theorem cursors_cancel : Cursors.Passive s.cursors
      ({ s with ship := { s.ship with cancelled := true } } : System φ ε).cursors := by
  have hpre : (s.due ++ []).filterMap Entry.span? <+: s.cursors.queue := by
    rw [append_nil]
    exact (prefix_append s.due _).filterMap Entry.span?
  exact Cursors.Passive.cancel (c := s.cursors) _ hpre

theorem cursors_boots : Cursors.Passive s.cursors s.boots.cursors :=
  Cursors.Passive.crash (c := s.cursors)

/-- A process starts: nothing of the one before is left but the saved positions. -/
theorem Inv.boots (hI : Inv cfg s) (up : Bool) (boot : Nat) :
    Inv cfg { s.boots with up, boot } where
  claimed p i o h := hI.claimed p i o (cursors_boots.claims h)
  queued sp hsp := nomatch hsp
  mine x hx := nomatch hx
  followed p tf hp := nomatch hp
  here p i hmine := nomatch hmine
  old p i _ _ _ j hj := nomatch hj
  untouched p _ t ht := by
    rcases Cursors.mem_tables.mp ht with h | h | h
    · rw [h]; rfl
    · rw [h]
    · cases h
  blank := hI.blank
  ran := Nat.le_refl 0
  control := trivial

/-! ## Every step -/

/-- What a step does: the source acts, the rest of the agent does, the surroundings
change, or a process ends or begins. -/
inductive Change (cfg : PipelineConfig φ ε) (s : System φ ε) : Label φ ε → System φ ε → Prop where
  | source (pick : Str) (src : Source) (effect : Effect ε) (s' : System φ ε) (hup : s.up = true)
      (hm : SourceMove cfg.source s.env s.pos s.src src effect)
      (h : s.apply src effect = some s') : Change cfg s (.source pick) s'
  | agent (a : Label φ ε) (pos : Positions) (snap : Option Saved) (saved : Saved)
      (control : SourceControl) (chan : List (Entry ε)) (ship : Shipper (Entry ε)) (ran : Nat)
      (acked : List (Nat × Span Str Inode)) (hup : s.up = true)
      (hc : control = s.src.control ∨ control = .stopped ∧ s.ship.cancelled = true)
      (hran : ran ≤ ship.acked.length)
      (hcan : ship.cancelled = s.ship.cancelled ∨ a = .cancel ∧ ship.cancelled = true)
      (hstop : ship.control = .stopped → s.ship.control = .stopped ∨ s.ship.cancelled = true)
      (hack : acked = s.acked ∨ ∃ sp ∈ s.cursors.queue, acked = s.acked ++ [(s.boot, sp)])
      (hcur : let s' : System φ ε :=
          { s with pos, snap, saved, src := { s.src with control }, chan, ship, ran, acked }
        s'.cursors = s.cursors ∨ Cursors.Passive s.cursors s'.cursors) :
      Change cfg s a
        { s with pos, snap, saved, src := { s.src with control }, chan, ship, ran, acked }
  | around (a : Label φ ε) (env : Env φ) (truncated : List Inode)
      (hback : ∀ p i, (p, i) ∈ s.opens → Leads cfg.source.fs env.world p i →
        Leads cfg.source.fs s.env.world p i)
      (htr : truncated = s.truncated ∨ ∃ i bs, truncated = i :: s.truncated ∧ a = .truncate i bs)
      (hdata : ∀ i, i ∉ truncated → ∃ more, env.data i = s.env.data i ++ more)
      (hworld : env.world = s.env.world ∨ a = .world env.world) :
      Change cfg s a { s with env, truncated }
  | crash (hup : s.up = true) : Change cfg s .crash { s.boots with up := false }
  | restart (hup : s.up = false) :
      Change cfg s .restart { s.boots with up := true, boot := s.boot + 1 }

theorem agentStep_change (hran : s.ran ≤ s.ship.acked.length) (hup : s.up = true)
    (hg : assumed pcfg s a = true) (h : agentStep pcfg s a = some s') : Change pcfg s a s' := by
  cases agentStep_move h with
  | source pick src effect s' hsrc happly =>
    exact .source pick src effect s' hup (sourceStep_move hsrc) happly
  | abort hc =>
    exact .agent _ _ _ _ _ _ _ _ _ hup (.inr ⟨rfl, hc⟩) hran (.inl rfl) .inl (.inl rfl)
      (.inl rfl)
  | journal body cursor =>
    exact .agent _ _ _ _ _ _ _ _ _ hup (.inl rfl) hran (.inl rfl) .inl (.inl rfl)
      (.inl (cursors_journal body cursor))
  | recv e chan s' hchan h =>
    obtain ⟨hcur, hacked, hcan, hstop, ship, rfl⟩ := cursors_recv hran hchan h
    refine .agent _ _ _ _ _ _ _ _ _ hup (.inl rfl) ?_ (.inl hcan) hstop (.inl rfl)
      (.inl hcur)
    exact hran.trans (Nat.le_of_eq (congrArg length hacked.symm))
  | ship l s' hl h =>
    obtain ⟨hcur, hlen, hcan, hstop, ship, rfl⟩ := cursors_own hran hl hg h
    exact .agent _ _ _ _ _ _ _ _ _ hup (.inl rfl) (hran.trans hlen) (.inl hcan) hstop
      (.inl rfl) (.inl hcur)
  | ack e rest hdue =>
    have hcur := cursors_ack hdue
    have hlt : s.ran + 1 ≤ s.ship.acked.length := by
      have hlen := congrArg length hdue
      simp only [System.due, length_drop, length_cons] at hlen
      omega
    unfold System.runAck at hcur ⊢
    cases hack : e.ack with
    | file sp =>
      simp only [hack] at hcur ⊢
      exact .agent _ _ _ _ _ _ _ _ _ hup (.inl rfl) hlt (.inl rfl) .inl
        (.inr ⟨sp, queue_ack hdue hack ▸ mem_cons_self, rfl⟩) hcur
    | journal c =>
      simp only [hack] at hcur ⊢
      exact .agent _ _ _ _ _ _ _ _ _ hup (.inl rfl) hlt (.inl rfl) .inl (.inl rfl) hcur
  | save hsnap =>
    exact .agent _ _ _ _ _ _ _ _ _ hup (.inl rfl) hran (.inl rfl) .inl (.inl rfl)
      (cursors_save pcfg.stateDir hsnap)
  | saveEnd ok t hsnap =>
    exact .agent _ _ _ _ _ _ _ _ _ hup (.inl rfl) hran (.inl rfl) .inl (.inl rfl)
      (.inr (cursors_saveEnd hsnap ok))
  | cancel =>
    exact .agent _ _ _ _ _ _ _ _ _ hup (.inl rfl) hran (.inr ⟨rfl, rfl⟩) .inl
      (.inl rfl) (.inr cursors_cancel)
  | crash => exact .crash hup

theorem step_change (hran : s.ran ≤ s.ship.acked.length) (hg : assumed pcfg s a = true)
    (h : step pcfg s a = some s') : Change pcfg s a s' := by
  have hsame : ∀ i, ∃ more, s.env.data i = s.env.data i ++ more :=
    fun i => ⟨[], (append_nil _).symm⟩
  cases a with
  | tick =>
    cases h
    exact .around _ _ _ (fun _ _ _ hl => hl) (.inl rfl) (fun i _ => hsame i) (.inl rfl)
  | world =>
    cases h
    refine .around _ _ _ ?_ (.inl rfl) (fun i _ => hsame i) (.inr rfl)
    intro p i hopen hl
    exact of_decide_eq_true (all_eq_true.mp hg (p, i) hopen) hl
  | append i bs =>
    cases h
    refine .around _ _ _ (fun _ _ _ hl => hl) (.inl rfl) ?_ (.inl rfl)
    intro j _
    by_cases hj : j = i
    · exact ⟨bs, by simp [Cursors.set, hj]⟩
    · exact ⟨[], by simp [Cursors.set, hj]⟩
  | truncate i bs =>
    cases h
    refine .around _ _ _ (fun _ _ _ hl => hl) (.inr ⟨i, bs, rfl, rfl⟩) ?_ (.inl rfl)
    intro j hj
    have hne : j ≠ i := fun he => hj (he ▸ mem_cons_self)
    exact ⟨[], by simp [Cursors.set, hne]⟩
  | restart =>
    simp only [step] at h
    split at h
    · cases h
    · next hup =>
      cases h
      exact .restart (by simpa using hup)
  | _ =>
    simp only [step] at h
    split at h
    · next hup => exact agentStep_change hran hup hg h
    · cases h

end YominsAgent.Logs
