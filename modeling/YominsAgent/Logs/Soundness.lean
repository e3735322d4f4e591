import YominsAgent.Logs.FileTree
import YominsAgent.Logs.Follow

/- The positions never claim too much.

   Each step of the pipeline keeps the invariant and is a run of the cursors of
   `Lib.Cursor`, whose tables stay sound. `position_sound` is what follows: a
   position, in memory or saved, says that everything from the start of the file
   up to it was acknowledged or is a piece that `emit` took for blank. -/
namespace YominsAgent.Logs
open Go Lib Relation List Option

variable {φ ε : Type} {cfg : SourceConfig φ ε} {s : System φ ε} {src : Source} {p : Str} {i : Inode}
  {tf : TailedFile}

/-! ## The readers of the cursors -/

/-- The step keeps the invariant and is a run of the cursors. -/
def Keeps (cfg : SourceConfig φ ε) (s s' : System φ ε) : Prop :=
  Inv cfg s' ∧ ReflTransGen Cursors.Step s.cursors s'.cursors

theorem steps_of_eq {c c' : Cursors Str Inode} (h : c = c') : ReflTransGen Cursors.Step c c' :=
  h ▸ .refl

theorem headOf_set {m : Table Str Inode} (o : Option Nat) (h : ∀ x, m p = some x → x.1 = i) :
    headOf (Cursors.set m p (o.map (i, ·))) = Cursors.set₂ (headOf m) p i o := by
  funext q j
  unfold headOf Cursors.set Cursors.set₂
  by_cases hq : q = p
  · subst hq
    by_cases hj : j = i
    · cases o <;> simp [hj]
    · have hne : ¬ i = j := fun he => hj he.symm
      have hnone : ((m q).bind fun x => if x.1 = j then some x.2 else none) = none := by
        cases hm : m q with
        | none => rfl
        | some x => exact if_neg (by rw [h x hm]; exact hne)
      cases o <;> simp [hj, hne, hnone]
  · simp [hq]

/-- The readers after the one of `i` under `p` has moved. -/
def System.moved (s : System φ ε) (p : Str) (i : Inode) (o : Option Nat) :
    Str → Inode → Option Nat :=
  if s.ship.cancelled then fun _ _ => none else Cursors.set₂ s.cursors.head p i o

theorem cursors_moved {o : Option Nat}
    (hm : marks src.files = Cursors.set (marks s.src.files) p (o.map (i, ·)))
    (h : ∀ x, marks s.src.files p = some x → x.1 = i) :
    ({ s with src } : System φ ε).cursors = { s.cursors with head := s.moved p i o } := by
  unfold System.moved
  cases hc : s.ship.cancelled with
  | true => simp [System.cursors, System.inFlight, System.due, hc]
  | false => simp [System.cursors, System.inFlight, System.due, hc, hm, headOf_set o h]

theorem marks_eq {files : List TailedFile} (h : findFile files p = some tf) :
    marks files p = some (tf.inode, tf.offset) := by
  rw [marks, h, map_some]

theorem marks_inode {files : List TailedFile} (h : findFile files p = some tf) :
    ∀ x, marks files p = some x → x.1 = tf.inode := by
  intro x hx
  rw [marks_eq h] at hx
  cases hx
  rfl

theorem cursors_put (src : Source) (tf' : TailedFile) (hp : s.src.file? p = some tf)
    (hpath : tf'.path = tf.path) (hinode : tf'.inode = tf.inode)
    (hfiles : src.files = s.src.put tf') :
    ({ s with src } : System φ ε).cursors =
      { s.cursors with head := s.moved p tf.inode (some tf'.offset) } := by
  refine cursors_moved ?_ (marks_inode hp)
  have htf : tf'.path = p := hpath.trans (findFile_path hp)
  have hfind : findFile s.src.files tf'.path = some tf := htf.symm ▸ hp
  funext q
  unfold marks Cursors.set
  rw [hfiles, findFile_put hfind, htf]
  split
  · rw [map_some, map_some, hinode]
  · rfl

theorem cursors_delete (src : Source) (hp : s.src.file? p = some tf)
    (hfiles : src.files = s.src.delete p) :
    ({ s with src } : System φ ε).cursors = { s.cursors with head := s.moved p tf.inode none } := by
  refine cursors_moved ?_ (marks_inode hp)
  funext q
  unfold marks Cursors.set
  rw [hfiles, findFile_delete]
  split <;> rfl

theorem cursors_snoc (src : Source) (hp : s.src.file? tf.path = none)
    (hfiles : src.files = s.src.files ++ [tf]) :
    ({ s with src } : System φ ε).cursors =
      { s.cursors with head := s.moved tf.path tf.inode (some tf.offset) } := by
  refine cursors_moved ?_ ?_
  · funext q
    unfold marks Cursors.set
    rw [hfiles, findFile_snoc hp]
    split <;> rfl
  · intro x hx
    rw [marks, show findFile s.src.files tf.path = none from hp] at hx
    cases hx

theorem cursors_markGone (src : Source) {f : TailedFile → Bool} (hfiles : src.files = s.src.markGone f) :
    ({ s with src } : System φ ε).cursors = s.cursors := by
  have hm : marks src.files = marks s.src.files := by
    funext q
    unfold marks
    rw [hfiles, findFile_markGone, Option.map_map]
    congr 1
    funext tf
    simp only [Function.comp_apply]
    split <;> rfl
  simp [System.cursors, System.inFlight, System.due, hm]

theorem head_eq (hlive : s.ship.cancelled = false) (hp : s.src.file? p = some tf) :
    s.cursors.head p tf.inode = some tf.offset := by
  simp [System.cursors, hlive, headOf, marks_eq hp]

theorem moved_live (hlive : s.ship.cancelled = false) (p : Str) (i : Inode) (o : Option Nat) :
    s.moved p i o = Cursors.set₂ s.cursors.head p i o := by
  simp [System.moved, hlive]

theorem moved_dead (hdead : s.ship.cancelled = true) (p : Str) (i : Inode) (o : Option Nat) :
    s.moved p i o = s.cursors.head := by
  simp [System.moved, System.cursors, hdead]

theorem moved_self (hp : s.src.file? p = some tf) :
    s.moved p tf.inode (some tf.offset) = s.cursors.head := by
  cases hc : s.ship.cancelled with
  | true => exact moved_dead hc p _ _
  | false =>
    rw [moved_live hc]
    funext q j
    unfold Cursors.set₂
    split
    · next h =>
      obtain ⟨rfl, rfl⟩ := h
      exact (head_eq hc hp).symm
    · rfl

/-! ## The steps of the source -/

variable {s' : System φ ε} {rest : Bytes} {n : Nat} {todo : List Str} {partAt : Option Int}

theorem cursors_skip (s : System φ ε) (sp : Span Str Inode) :
    ({ s with skipped := s.skipped ++ [(s.boot, sp)] } : System φ ε).cursors =
      { s.cursors with skipped := s.cursors.skipped ++ [sp] } := by
  simp [System.cursors, System.inFlight, System.due]

theorem cursors_send {e : Entry ε} {sp : Span Str Inode} (he : e.ack = .file sp)
    (sent : List (Nat × Span Str Inode)) :
    ({ s with chan := s.chan ++ [e], sent } : System φ ε).cursors =
      { s.cursors with queue := s.cursors.queue ++ if s.ship.cancelled then [] else [sp] } :=
  congrArg (fun queue => { s.cursors with queue }) (queue_send he sent)

/-- A piece `bs` of the file goes to `emit`, as `line`. -/
theorem keeps_piece (hI : Inv cfg s) (tf' : TailedFile) (line bs : Bytes)
    (hp : s.src.file? p = some tf) (hpath : tf'.path = tf.path) (hinode : tf'.inode = tf.inode)
    (hgone : tf'.gone = tf.gone) (hoff : tf'.offset = tf.offset + bs.length)
    (hfiles : src.files = s.src.put tf') (hbs : bs = line ∨ bs = line ++ [10])
    (hat : tf.inode ∉ s.truncated → At (s.env.data tf.inode) tf.offset bs ∧
      At (s.env.data tf.inode) tf'.offset tf'.part)
    (hc : ∀ chan sent, ControlOk cfg { s with src, chan, sent } src.control)
    (h : s.apply src (emit cfg tf line bs.length).2 = some s') : Keeps cfg s s' := by
  have hI' : Inv cfg { s with src } :=
    hI.refile (hfiles ▸ refiled_put hI hp hpath hinode hgone fun hi => (hat hi).2)
      (hc s.chan s.sent)
  have hname : tf.path = p := findFile_path hp
  have hcur : ({ s with src } : System φ ε).cursors =
      { s.cursors with head := s.moved tf.path tf.inode (some (tf.offset + bs.length)) } := by
    rw [← hoff, hname]
    exact cursors_put src tf' hp hpath hinode hfiles
  -- the reader stands where the piece begins
  have hhead : s.ship.cancelled = false → s.cursors.head tf.path tf.inode = some tf.offset :=
    fun hlive => by rw [hname]; exact head_eq hlive hp
  rcases apply_emit h with ⟨hblank, rfl⟩ | ⟨e, he, rfl⟩
  · refine ⟨hI'.skip fun hi => ⟨line, bs, hblank, hbs, (hat hi).1, rfl⟩, .single ?_⟩
    have hskip := cursors_skip { s with src } (tf.next bs.length)
    rw [hcur] at hskip
    refine hskip ▸ ?_
    cases hlive : s.ship.cancelled with
    | false =>
      rw [moved_live hlive]
      exact .skip (tf.next bs.length) fun _ => hhead hlive
    | true =>
      rw [moved_dead hlive]
      exact .skipLate (tf.next bs.length)
  · have hmine : (tf.path, tf.inode) ∈ s.mine := hname.symm ▸ (hI.followed p tf hp).1
    refine ⟨hI'.send he hmine (fun hi => (hat hi).1.le) _ (hc _ _), ?_⟩
    have hsend := cursors_send (s := { s with src }) he (s.sent ++ [(s.boot, tf.next bs.length)])
    rw [hcur] at hsend
    refine hsend ▸ ?_
    cases hlive : s.ship.cancelled with
    | false =>
      rw [moved_live hlive]
      exact .single (.emit (tf.next bs.length) fun _ => hhead hlive)
    | true =>
      rw [moved_dead hlive]
      simp only [if_true, append_nil]
      exact .refl

theorem keeps_line (hI : Inv cfg s) {l : Bytes} {lines : List Bytes}
    (hc : s.src.control = .emitting p (l :: lines) rest n todo) (hp : s.src.file? p = some tf)
    (h : s.apply { s.src with
      files := s.src.put { tf with offset := tf.offset + (l.length + 1) }
      control := .emitting p lines rest n todo } (emit cfg tf l (l.length + 1)).2 = some s') :
    Keeps cfg s s' := by
  have hctl := hI.controlOk hc
  obtain ⟨hpart, hat⟩ := hctl tf hp
  -- the line and its newline stand at the offset, and behind them what is left
  have hsplit : tf.inode ∉ s.truncated → At (s.env.data tf.inode) tf.offset (l ++ [10]) ∧
      At (s.env.data tf.inode) (tf.offset + (l.length + 1)) (joinLines lines ++ rest) := by
    intro hi
    have hall : At (s.env.data tf.inode) tf.offset
        ((l ++ [10]) ++ (joinLines lines ++ rest)) := by
      simpa [joinLines] using hat hi
    exact ⟨hall.left, by simpa using hall.right⟩
  have hlen : (l ++ [10]).length = l.length + 1 := length_append
  refine keeps_piece hI { tf with offset := tf.offset + (l.length + 1) } l (l ++ [10]) hp rfl rfl
    rfl (by rw [hlen]) rfl (.inr rfl) (fun hi => ⟨(hsplit hi).1, ?_⟩) ?_ (by rwa [hlen])
  · show At _ _ tf.part
    rw [hpart]
    exact (nil_append (joinLines lines ++ rest) ▸ (hsplit hi).2 : At _ _ ([] ++ _)).left
  · intro chan sent x hx
    cases hx.symm.trans (findFile_put_self hp rfl)
    exact ⟨hpart, fun hi => (hsplit hi).2⟩

theorem keeps_rest (hI : Inv cfg s) (hc : s.src.control = .emitting p [] rest n todo)
    (hp : s.src.file? p = some tf) (h : s.apply { s.src with
      files := s.src.put { tf with offset := tf.offset + rest.length, partAt }
      control := .closing p n todo } (emit cfg tf rest rest.length).2 = some s') :
    Keeps cfg s s' := by
  have hctl := hI.controlOk hc
  obtain ⟨hpart, hat⟩ := hctl tf hp
  have hrest : tf.inode ∉ s.truncated → At (s.env.data tf.inode) tf.offset rest := hat
  refine keeps_piece hI { tf with offset := tf.offset + rest.length, partAt } rest rest hp rfl rfl
    rfl rfl rfl (.inl rfl) (fun hi => ⟨hrest hi, ?_⟩) ?_ h
  · show At _ _ tf.part
    rw [hpart]
    exact At.nil (hrest hi).le
  · exact fun _ _ => trivial

/-- A file's state changes, and its place does not. -/
theorem steps_put {tf' : TailedFile} (hp : s.src.file? p = some tf)
    (hfiles : src.files = s.src.put tf') (hpath : tf'.path = tf.path)
    (hinode : tf'.inode = tf.inode) (hoff : tf'.offset = tf.offset) :
    ReflTransGen Cursors.Step s.cursors ({ s with src } : System φ ε).cursors := by
  have hcur := cursors_put src tf' hp hpath hinode hfiles
  rw [hoff, moved_self hp] at hcur
  exact steps_of_eq hcur.symm

theorem keeps_keep (hI : Inv cfg s) {part : Bytes} (hc : s.src.control = .emitting p [] rest n todo)
    (hp : s.src.file? p = some tf) (hkeep : part = rest ∨ part = tf.part) :
    Keeps cfg s { s with src := { s.src with
      files := s.src.put { tf with part, partAt }, control := .closing p n todo } } := by
  have hctl := hI.controlOk hc
  have hkept : tf.inode ∉ s.truncated → At (s.env.data tf.inode) tf.offset part := by
    intro hi
    rcases hkeep with rfl | rfl
    · exact (hctl tf hp).2 hi
    · exact (hI.followed p tf hp).2.2 hi
  exact ⟨hI.refile (refiled_put hI hp rfl rfl rfl hkept) trivial, steps_put hp rfl rfl rfl rfl⟩

theorem keeps_register (hI : Inv cfg s) {d : Discovery} {resumed : Bool}
    (hc : s.src.control = .registering d tf resumed)
    (h : s.apply { s.src with files := s.src.files ++ [tf], control := .discovering d }
      (.setFile tf.path (tf.inode, tf.offset) resumed) = some s') : Keeps cfg s s' := by
  cases h
  refine ⟨hI.register hc _, ?_⟩
  have hctl := hI.controlOk hc
  obtain ⟨hop, -, -, hnew⟩ := hctl
  have hcur := cursors_snoc { s.src with files := s.src.files ++ [tf], control := .discovering d }
    hop.new rfl
  -- the file begins, afresh or where its position says
  have hbegin : Cursors.Step s.cursors { s.cursors with
      pos := Cursors.set s.pos.files tf.path (some (tf.inode, tf.offset))
      start := if resumed then s.start else Cursors.set₂ s.start tf.path tf.inode tf.offset
      head := Cursors.set₂ s.cursors.head tf.path tf.inode (some tf.offset) } := by
    cases resumed with
    | true => exact .resume tf.path tf.inode tf.offset fun hi => (hnew hi).2.1
    | false =>
      exact .fresh tf.path tf.inode tf.offset fun hi =>
        Cursors.unmentioned_of_claims (hnew hi).2
  -- a zero position of a path without one is not recorded
  have hset : ∀ c : Cursors Str Inode,
      c.pos = Cursors.set s.pos.files tf.path (some (tf.inode, tf.offset)) →
      ReflTransGen Cursors.Step c
        { c with pos := (s.pos.setFile tf.path (tf.inode, tf.offset)).files } := by
    intro c hpos
    rcases Positions.setFile_files s.pos tf.path (tf.inode, tf.offset) with he | ⟨he, hnone⟩
    · rw [he, ← hpos]
    · have hforget : Cursors.set c.pos tf.path none = s.pos.files := by
        rw [hpos]
        funext q
        unfold Cursors.set
        split
        · next hq => rw [hq, hnone]
        · rfl
      rw [he, ← hforget]
      exact .single (.forget tf.path)
  -- after the cancellation the reader has no place
  have hmove : ∀ c : Cursors Str Inode,
      c.head = Cursors.set₂ s.cursors.head tf.path tf.inode (some tf.offset) →
      ReflTransGen Cursors.Step c { c with head := s.moved tf.path tf.inode (some tf.offset) } := by
    intro c hc
    cases hlive : s.ship.cancelled with
    | false => rw [moved_live hlive, ← hc]
    | true =>
      have hclose : Cursors.set₂ c.head tf.path tf.inode none =
          s.moved tf.path tf.inode (some tf.offset) := by
        rw [moved_dead hlive, hc]
        funext q j
        simp [Cursors.set₂, System.cursors, hlive]
      rw [← hclose]
      exact .single (.close tf.path tf.inode)
  have hend := (hmove _ rfl).head hbegin |>.trans (hset _ rfl)
  exact hend.trans (steps_of_eq (congrArg (fun c : Cursors Str Inode => { c with
    pos := (s.pos.setFile tf.path (tf.inode, tf.offset)).files
    start := if resumed then s.start else Cursors.set₂ s.start tf.path tf.inode tf.offset })
    hcur.symm))

theorem keeps_rewind (hI : Inv cfg s) (hp : s.src.file? p = some tf) :
    Keeps cfg s { s with src := { s.src with
      files := s.src.put (rewind (s.env.data tf.inode).length tf), control := .filling p todo } } := by
  refine ⟨hI.rewind hp, ?_⟩
  obtain ⟨hpath, hinode, -⟩ := rewind_same (s.env.data tf.inode).length tf
  refine ReflTransGen.trans ?_ (steps_of_eq (cursors_put _ _ hp hpath hinode rfl).symm)
  by_cases hi : tf.inode ∈ s.truncated
  · cases hlive : s.ship.cancelled with
    | true => exact steps_of_eq (by rw [moved_dead hlive])
    | false =>
      rw [moved_live hlive]
      exact .single (.rewind p tf.inode _ hi)
  · rw [rewind_eq ((hI.followed p tf hp).2.2 hi).le, moved_self hp]

theorem keeps_shut (hI : Inv cfg s) (hp : s.src.file? p = some tf) (hd : drained tf n = true) :
    Keeps cfg s { s with src := { s.src with
      files := s.src.delete p, lastFound := none
      control := if (cfg.fs.stat s.env.world p).isSome then .reading todo
        else .forgetting p todo } } := by
  refine ⟨hI.shut hp hd, ?_⟩
  refine ReflTransGen.trans ?_ (steps_of_eq (cursors_delete _ hp rfl).symm)
  cases hlive : s.ship.cancelled with
  | true => exact steps_of_eq (by rw [moved_dead hlive])
  | false =>
    rw [moved_live hlive]
    exact .single (.close p tf.inode)

theorem keeps_turn (hI : Inv cfg s) {lastFound : Option Int} {control : SourceControl}
    (hc : ControlOk cfg s control) :
    Keeps cfg s { s with src := { s.src with lastFound, control } } :=
  ⟨hI.turn hc, .refl⟩

theorem keeps_source (hI : Inv cfg s) {effect : Effect ε}
    (hm : SourceMove cfg s.env s.pos s.src src effect) (h : s.apply src effect = some s') :
    Keeps cfg s s' := by
  cases hm with
  | search => cases h; exact keeps_turn hI (searching_start hI _)
  | noSearch | endCheck | endRound | leave => cases h; exact keeps_turn hI trivial
  | pass d p found seen hc hfound hp =>
    cases h
    exact keeps_turn hI ((hI.controlOk hc : Searching cfg s d).next hfound hp.mono hp.mem_or_new)
  | candidate d p found hc hfound hnew =>
    cases h
    have hs : Searching cfg s d := hI.controlOk hc
    have hnext := hs.next hfound (fun q hq => mem_cons_of_mem p hq)
      (.inl mem_cons_self)
    refine keeps_turn hI { hnext with seen := mem_cons_self, globbed := ?_, new := hnew }
    exact hs.found p (hfound ▸ mem_cons_self)
  | nextGlob d spec g todo hc hfound htodo =>
    cases h
    exact keeps_turn hI ((hI.controlOk hc : Searching cfg s d).nextGlob hfound htodo)
  | endSearch d hc hfound htodo =>
    cases h
    exact ⟨hI.endSearch hc hfound htodo, steps_of_eq (cursors_markGone _ rfl).symm⟩
  | notOpened d p hc =>
    cases h
    exact keeps_turn hI (hI.controlOk hc : Candidate cfg s d p).toSearching
  | opened d p i hc hstat =>
    cases h
    exact keeps_turn hI ((hI.controlOk hc : Candidate cfg s d p).opened hI hstat)
  | sized d p i real hc => cases h; exact ⟨hI.statFile hc, .refl⟩
  | choose d p i real size hc => cases h; exact ⟨hI.chooseOffset hc, .refl⟩
  | register d tf resumed hc => exact keeps_register hI hc h
  | check p todo =>
    cases h
    exact ⟨hI.check p todo, steps_of_eq (cursors_markGone _ rfl).symm⟩
  | rewind p todo tf hc hp => cases h; exact keeps_rewind hI hp
  | fill p todo tf lines rest hc hp hsplit =>
    cases h
    exact ⟨hI.fill hp hsplit, steps_put hp rfl rfl rfl rfl⟩
  | line p l lines rest n todo tf hc hp => exact keeps_line hI hc hp h
  | rest p rest n todo tf partAt hc hp => exact keeps_rest hI hc hp h
  | keep p rest part n todo tf partAt hc hp hpart =>
    cases h
    exact keeps_keep hI hc hp (hpart.imp (fun h => h.1) fun h => h.2)
  | shut p n todo tf hc hp hd => cases h; exact keeps_shut hI hp hd
  | forget p todo hc =>
    cases h
    refine ⟨hI.forget hc, (ReflTransGen.single (.forget p)).trans (steps_of_eq ?_)⟩
    exact congrArg (fun pos => { s.cursors with pos }) (Positions.forget_files s.pos p).symm

/-! ## Every step -/

variable {pcfg : PipelineConfig φ ε}

theorem keeps_step {a : Label φ ε} (hI : Inv pcfg.source s) (hg : assumed pcfg s a = true)
    (h : step pcfg s a = some s') : Keeps pcfg.source s s' := by
  cases step_change hI.ran hg h with
  | source pick src effect s' _ hm happly => exact keeps_source hI hm happly
  | agent a pos snap saved control chan ship ran acked _ hc hran _ _ _ hcur =>
    have ho : Others pcfg.source s { s with
        pos, snap, saved, src := { s.src with control }, chan, ship, ran, acked } :=
      Others.of_passive rfl hcur
    refine ⟨ho.inv hI rfl hran (ho.control hI ?_), ?_⟩
    · rcases hc with rfl | ⟨rfl, -⟩
      · exact hI.control
      · trivial
    · rcases hcur with hcur | hcur
      · exact steps_of_eq hcur.symm
      · exact .single (.passive hcur)
  | around a env truncated hback htr hdata =>
    have hsub : ∀ i ∈ s.truncated, i ∈ truncated := by
      rcases htr with rfl | ⟨i, -, rfl, -⟩
      · exact fun j hj => hj
      · exact fun j hj => mem_cons_of_mem i hj
    have ho : Others pcfg.source s { s with env, truncated } := Others.of_env hback hsub hdata
    refine ⟨ho.inv hI rfl hI.ran (ho.control hI hI.control), ?_⟩
    rcases htr with rfl | ⟨i, -, rfl, -⟩
    · exact .refl
    · exact .single (.die i)
  | crash => exact ⟨hI.boots false s.boot, .single (.passive cursors_boots)⟩
  | restart => exact ⟨hI.boots true (s.boot + 1), .single (.passive cursors_boots)⟩

/-! ## Runs -/

theorem inv_init (cfg : SourceConfig φ ε) (env : Env φ) :
    Inv cfg (System.init env : System φ ε) := by
  have hnone : ∀ p i o, ¬ (System.init env : System φ ε).cursors.Claims p i o := by
    rintro p i o (⟨t, ht, ho⟩ | ⟨sp, hsp, -⟩)
    · rcases Cursors.mem_tables.mp ht with rfl | rfl | ht
      · cases ho
      · cases ho
      · cases ht
    · cases hsp
  refine ⟨fun p i o h => absurd h (hnone p i o), ?_, ?_, ?_, ?_, ?_, ?_, ?_, Nat.le_refl 0, trivial⟩
  · exact fun sp hsp => nomatch hsp
  · exact fun x hx => nomatch hx
  · exact fun p tf hp => nomatch hp
  · exact fun p i h => nomatch h
  · exact fun p i h => nomatch h
  · intro p _ t ht
    rcases Cursors.mem_tables.mp ht with rfl | rfl | ht
    · rfl
    · rfl
    · cases ht
  · exact fun x hx => nomatch hx

theorem sound_init (env : Env φ) : (System.init env : System φ ε).cursors.Sound := by
  refine ⟨?_, trivial, fun p i o ho => nomatch ho⟩
  intro t ht p i o ho
  rcases Cursors.mem_tables.mp ht with rfl | rfl | ht
  · cases ho
  · cases ho
  · cases ht

/-- The invariant and the soundness of the tables, in every state of every run. -/
theorem sound_run (pcfg : PipelineConfig φ ε) (env : Env φ) (as : List (Label φ ε))
    (h : run (guarded (assumed pcfg) (step pcfg)) (System.init env) as = some s) :
    Inv pcfg.source s ∧ s.cursors.Sound := by
  refine run_guarded_inv (I := fun s => Inv pcfg.source s ∧ s.cursors.Sound) ?_ as _ s
    ⟨inv_init _ env, sound_init env⟩ h
  rintro s a s' ⟨hI, hs⟩ hg hstep
  obtain ⟨hI', hsteps⟩ := keeps_step hI hg hstep
  exact ⟨hI', Cursors.sound_of_steps hsteps hs⟩

/-- Whatever happens, a position in memory or saved is sound: every byte of the
inode from the start of the last reading that did not resume, up to the position,
lies in a piece that `read` handed to `emit` and that is blank, or in what an
acknowledged entry of the path was read from. -/
theorem position_sound (pcfg : PipelineConfig φ ε) (env : Env φ) (as : List (Label φ ε))
    (s : System φ ε)
    (hrun : run (guarded (assumed pcfg) (step pcfg)) (System.init env) as = some s)
    (t : Table Str Inode) (ht : t = s.pos.files ∨ t = s.saved.files) (p : Str) (i : Inode) (o : Nat)
    (hpos : t p = some (i, o)) (htr : i ∉ s.truncated) (b : Nat) (hlo : s.start p i ≤ b)
    (hhi : b < o) :
    (∃ x ∈ s.skipped, x.2.path = p ∧ x.2.file = i ∧ BlankAt (s.env.data i) x.2 ∧
      x.2.lo ≤ b ∧ b < x.2.hi) ∨
    ∃ x ∈ s.acked, x.2.path = p ∧ x.2.file = i ∧ x.2.lo ≤ b ∧ b < x.2.hi := by
  obtain ⟨hI, hs⟩ := sound_run pcfg env as hrun
  have hmem : t ∈ s.cursors.tables :=
    Cursors.mem_tables.mpr (ht.imp id fun h => Or.inl h)
  obtain ⟨sp, hdone, hp, hi, hb⟩ := hs.table t hmem p i o hpos htr b hlo hhi
  rcases hdone with hack | hskip
  · obtain ⟨x, hx, rfl⟩ := mem_map.mp hack
    exact Or.inr ⟨x, hx, hp, hi, hb⟩
  · obtain ⟨x, hx, rfl⟩ := mem_map.mp hskip
    exact Or.inl ⟨x, hx, hp, hi, hi ▸ hI.blank x hx (hi ▸ htr), hb⟩

/-- The line of the content that a byte lies in, without its newline. -/
def lineAt (data : Bytes) (b : Nat) : Bytes :=
  ((data.take b).reverse.takeWhile (· != 10)).reverse ++ (data.drop b).takeWhile (· != 10)

/-- Two blanks are written and wait longer than `partialFlush` for the rest of their
line, which is then delivered. -/
def slowLine : List (Label Tree Bytes) :=
  let source (n : Nat) : List (Label Tree Bytes) := List.replicate n (.source aLog)
  [.restart] ++ source 15 ++ [.append 7 [32, 32]] ++ source 8 ++ [.tick 6000000000] ++ source 8 ++
    [.append 7 [120, 10]] ++ source 9 ++ [.recv, .ship .timer, .ship (.posted .ok), .ack]

/-- The two blanks are behind the position, lie in no blank line, and no entry was
read from them. -/
theorem slow_line_blanks : ∃ s : System Tree Bytes,
    run (guarded (assumed aPipeline) (step aPipeline)) (System.init aEnv) slowLine = some s ∧
    s.pos.files aLog = some (7, 4) ∧ 7 ∉ s.truncated ∧ s.start aLog 7 = 0 ∧
    isBlank (lineAt (s.env.data 7) 0) = false ∧
    ∀ x ∈ s.acked, ¬ (x.2.lo ≤ 0 ∧ 0 < x.2.hi) := by
  refine ⟨_, rfl, rfl, not_mem_nil, rfl, by decide, fun x hx => ?_⟩
  cases mem_singleton.mp hx
  decide

/-- In that run the last byte before the position was acknowledged. -/
theorem slow_line_sound : ∃ s : System Tree Bytes,
    run (guarded (assumed aPipeline) (step aPipeline)) (System.init aEnv) slowLine = some s ∧
    ((∃ x ∈ s.skipped, x.2.path = aLog ∧ x.2.file = 7 ∧ BlankAt (s.env.data 7) x.2 ∧
      x.2.lo ≤ 3 ∧ 3 < x.2.hi) ∨
    ∃ x ∈ s.acked, x.2.path = aLog ∧ x.2.file = 7 ∧ x.2.lo ≤ 3 ∧ 3 < x.2.hi) :=
  ⟨_, rfl, position_sound aPipeline aEnv slowLine _ rfl _ (Or.inl rfl) aLog 7 4 rfl not_mem_nil 3
    (Nat.zero_le 3) (by decide)⟩

end YominsAgent.Logs
