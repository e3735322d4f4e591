import YominsAgent.Logs.FirstSight

/- The position of a path that has vanished.

   `read` drains the file, closes it and calls `Forget`, in the goroutine of the source; the entries
   it sent are acknowledged by the shipper, and each acknowledgement calls `SetFile` for the path.
   So the position is gone for good once the file is closed and its entries are acknowledged,
   provided that `Forget` runs behind the last of them (`vanished_forgotten`). It does not wait for
   them: an entry that is still on its way when the file is closed brings the position back
   (`position_returns`), and nothing takes it away again. -/
namespace YominsAgent.Logs
open Go Lib List

variable {φ ε : Type}

/-- The entry was read from a file under the path. -/
def Entry.isOf (p : Str) (e : Entry ε) : Bool :=
  match e.ack with
  | .file sp => sp.path == p
  | .journal _ => false

/-- The entries sent that are neither acknowledged nor given up. -/
def System.onTheWay (s : System φ ε) : List (Entry ε) := s.chan ++ (waiting s.ship ++ s.due)

/-- No entry of the path is on its way. -/
def System.delivered (p : Str) (s : System φ ε) : Bool := s.onTheWay.all fun e => !e.isOf p

/-- The source is about to follow a file it has opened under the path, or has closed
it and is about to forget its position. -/
def SourceControl.holds (p : Str) : SourceControl → Bool
  | .opened _ q _ _ => q == p
  | .sized _ q _ _ _ => q == p
  | .registering _ tf _ => tf.path == p
  | .forgetting q _ => q == p
  | _ => false

/-- The source is done with every file under the path. -/
def Source.closed (p : Str) (src : Source) : Bool := !src.isFollowed p && !src.control.holds p

/-- No file appears at the path, and the process goes on. -/
def staysGone (cfg : PipelineConfig φ ε) (p : Str) : Label φ ε → Bool
  | .world w => (cfg.source.fs.stat w p).isNone
  | .crash => false
  | .restart => false
  | _ => true

/-- The position of the path is forgotten when no entry of it is on its way. -/
def forgetsLast (p : Str) (s : System φ ε) : Label φ ε → Bool
  | .source _ =>
    match s.src.control with
    | .forgetting q _ => q != p || s.delivered p
    | _ => true
  | _ => true

variable {p : Str} {src src' : Source}

theorem closed_iff : src.closed p = true ↔ p ∉ src.paths ∧ src.control.holds p = false := by
  rw [mem_paths, ← isFollowed_eq]
  simp [Source.closed]

theorem delivered_iff {s : System φ ε} :
    s.delivered p = true ↔ ∀ e ∈ s.onTheWay, e.isOf p = false := by
  simp [System.delivered]

/-! ## The source -/

section Source
variable {cfg : SourceConfig φ ε} {env : Env φ} {pos : Positions} {effect : Effect ε}

/-- With the path gone, only `Forget` brings the source to be done with it. -/
theorem closed_of_move (hgone : cfg.fs.stat env.world p = none)
    (hm : SourceMove cfg env pos src src' effect) (h : src'.closed p = true) :
    src.closed p = true ∨ effect = .forget p ∧ ∃ todo, src.control = .forgetting p todo := by
  obtain ⟨hpaths, hholds⟩ := closed_iff.mp h
  -- where the source stood held nothing, and it follows the same paths
  have hsame : ∀ c, src.control = c → c.holds p = false → src'.paths = src.paths →
      src.closed p = true := by
    intro c hc hno hp
    exact closed_iff.mpr ⟨hp ▸ hpaths, hc ▸ hno⟩
  cases hm with
  | search hc | noSearch hc | pass _ _ _ _ hc | candidate _ _ _ hc | nextGlob _ _ _ _ hc
  | notOpened _ _ hc | opened _ _ _ hc | endCheck hc | endRound hc | leave _ _ _ hc =>
    exact .inl (hsame _ hc rfl rfl)
  | endSearch _ hc | check _ _ hc => exact .inl (hsame _ hc rfl (paths_markGone _))
  | sized _ _ _ _ hc | choose _ _ _ _ _ hc => exact .inl (hsame _ hc hholds rfl)
  | register d tf resumed hc =>
    -- a file registered under the path is followed
    simp only [Source.paths, map_append, map_cons, map_nil, mem_append,
      mem_singleton, not_or] at hpaths
    refine .inl (closed_iff.mpr ⟨hpaths.1, ?_⟩)
    rw [hc]
    exact beq_eq_false_iff_ne.mpr fun he => hpaths.2 he.symm
  | rewind q todo tf hc | fill q todo tf lines rest hc | line q l lines rest n todo tf hc
  | rest q rest n todo tf partAt hc | keep q rest part n todo tf partAt hc =>
    exact .inl (hsame _ hc rfl paths_put)
  | shut q n todo tf hc =>
    -- the closed file is another one: that of the path goes on to `Forget`
    by_cases hqp : q = p
    · subst hqp
      simp [hgone, SourceControl.holds] at hholds
    · refine .inl (closed_iff.mpr ⟨?_, by rw [hc]; rfl⟩)
      intro hp
      refine hpaths ?_
      rw [mem_paths] at hp ⊢
      show (findFile (src.delete q) p).isSome = true
      rw [findFile_delete, if_neg (Ne.symm hqp)]
      exact hp
  | forget q todo hc =>
    by_cases hqp : q = p
    · subst hqp
      exact .inr ⟨rfl, todo, hc⟩
    · exact .inl (hsame _ hc (beq_eq_false_iff_ne.mpr hqp) rfl)

/-- The effect is not about the path. -/
def Effect.Spares (p : Str) : Effect ε → Prop
  | .quiet => True
  | .setFile q _ _ => q ≠ p
  | .forget q => q ≠ p
  | .skip sp => sp.path ≠ p
  | .send e => ∃ sp, e.ack = .file sp ∧ sp.path ≠ p

/-- What a source that is done with the path does is not about it. -/
theorem spares_of_closed (hm : SourceMove cfg env pos src src' effect) (h : src.closed p = true) :
    effect.Spares p := by
  obtain ⟨hpaths, hholds⟩ := closed_iff.mp h
  have hpiece : ∀ {q : Str} {tf : TailedFile} (line : Bytes) (n : Nat), src.file? q = some tf →
      (emit cfg tf line n).2.Spares p := by
    intro q tf line n hq
    have hne : tf.path ≠ p := by
      rintro rfl
      refine hpaths (mem_paths.mpr ?_)
      rw [findFile_path hq, hq]
      rfl
    rcases emit_cases cfg tf line n with ⟨-, heff⟩ | ⟨e, he, heff⟩
    · rw [heff]
      exact hne
    · rw [heff]
      exact ⟨_, he, hne⟩
  cases hm with
  | register _ _ _ hc | forget _ _ hc =>
    rw [hc] at hholds
    exact beq_eq_false_iff_ne.mp hholds
  | line q l lines rest n todo tf hc hq => exact hpiece l _ hq
  | rest q rest n todo tf partAt hc hq => exact hpiece rest _ hq
  | _ => trivial

end Source

/-! ## The pipeline -/

variable {cfg : PipelineConfig φ ε} {s s' : System φ ε}

/-- Once the source is done with the path, nothing is left of it. -/
def Forgotten (p : Str) (s : System φ ε) : Prop :=
  s.src.closed p = true → s.pos.files p = none ∧ ∀ e ∈ s.onTheWay, e.isOf p = false

/-- A step that leaves the source alone keeps it, if it brings the path neither a
position nor an entry. -/
theorem Forgotten.of_src (h : Forgotten p s) (hsrc : s'.src = s.src)
    (hpos : (∀ e ∈ s.onTheWay, e.isOf p = false) → s'.pos.files p = s.pos.files p)
    (hway : ∀ e ∈ s'.onTheWay, e ∈ s.onTheWay ∨ e.isOf p = false) : Forgotten p s' := by
  intro hclosed
  rw [hsrc] at hclosed
  obtain ⟨hnone, hno⟩ := h hclosed
  refine ⟨(hpos hno).trans hnone, ?_⟩
  intro e he
  rcases hway e he with hold | hnew
  · exact hno e hold
  · exact hnew

theorem Forgotten.apply {effect : Effect ε} (hsp : effect.Spares p) (hno : s.pos.files p = none)
    (hway : ∀ e ∈ s.onTheWay, e.isOf p = false) (h : s.apply src effect = some s') :
    s'.pos.files p = none ∧ ∀ e ∈ s'.onTheWay, e.isOf p = false := by
  cases effect with
  | quiet | skip =>
    cases h
    exact ⟨hno, hway⟩
  | setFile =>
    cases h
    exact ⟨(Positions.setFile_other (Ne.symm hsp)).trans hno, hway⟩
  | forget q =>
    cases h
    refine ⟨?_, hway⟩
    show (s.pos.forget q).files p = none
    rw [Positions.forget_files]
    exact (if_neg (Ne.symm hsp)).trans hno
  | send =>
    obtain ⟨sp, hack, hne⟩ := hsp
    obtain ⟨-, ⟨⟩⟩ := Option.ite_none_right_eq_some.mp h
    refine ⟨hno, ?_⟩
    intro x hx
    simp only [System.onTheWay, System.due, mem_append, mem_singleton] at hx
    rcases hx with (hx | rfl) | hx
    · exact hway x (mem_append_left _ hx)
    · simpa [Entry.isOf, hack] using hne
    · exact hway x (mem_append_right _ (mem_append.mpr hx))

theorem forgotten_source {pick : Str} (hgone : cfg.source.fs.stat s.env.world p = none)
    (h : Forgotten p s) (hg : forgetsLast p s (.source pick) = true)
    (hs : agentStep cfg s (.source pick) = some s') : Forgotten p s' := by
  obtain ⟨⟨src, effect⟩, hsrc, happly⟩ := Option.bind_eq_some_iff.mp hs
  have hm := sourceStep_move hsrc
  intro hclosed
  rw [(apply_frame happly).src] at hclosed
  rcases closed_of_move hgone hm hclosed with hold | ⟨rfl, todo, hc⟩
  · obtain ⟨hnone, hway⟩ := h hold
    exact Forgotten.apply (spares_of_closed hm hold) hnone hway happly
  · -- `Forget`, with nothing of the path on its way
    cases happly
    simp only [forgetsLast, hc, bne_self_eq_false, Bool.false_or] at hg
    refine ⟨?_, delivered_iff.mp hg⟩
    show (s.pos.forget p).files p = none
    rw [Positions.forget_files]
    exact if_pos rfl

theorem onTheWay_ship {l : ShipLabel (Entry ε)} (h : shipperStep cfg s l = some s') :
    ∀ e ∈ s'.onTheWay, e ∈ s.onTheWay ∨ ∃ t, l = .recv e t := by
  obtain ⟨hdue, ship, hstep, rfl⟩ := shipperStep_eq_some h
  obtain ⟨now, hacked, hmoves⟩ := shipStep_moves hstep
  have hnew : ∀ e ∈ ship.acked.drop s.ran, e ∈ now := by
    intro e he
    rw [hacked, drop_append, show s.ship.acked.drop s.ran = [] from hdue] at he
    exact mem_of_mem_drop he
  intro e he
  simp only [System.onTheWay, System.due, mem_append] at he ⊢
  rcases he with he | he | he
  · exact .inl (.inl he)
  · exact (hmoves e (mem_append_right _ he)).imp_left fun h => .inr (.inl h)
  · exact (hmoves e (mem_append_left _ (hnew e he))).imp_left fun h => .inr (.inl h)

theorem forgotten_agent {a : Label φ ε} (hgone : cfg.source.fs.stat s.env.world p = none)
    (h : Forgotten p s) (hg : forgetsLast p s a = true) (hstay : staysGone cfg p a = true)
    (hs : agentStep cfg s a = some s') : Forgotten p s' := by
  cases agentStep_move hs with
  | source => exact forgotten_source hgone h hg hs
  | abort hcancelled hcan =>
    intro hclosed
    refine h (closed_iff.mpr ⟨(closed_iff.mp hclosed).1, ?_⟩)
    -- the source stops between two rounds or before a send
    unfold canAbort at hcan
    cases hc : s.src.control with
    | opened | sized | registering | forgetting => simp [hc, sourceStep] at hcan
    | _ => rfl
  | journal =>
    refine h.of_src rfl (fun _ => rfl) ?_
    intro e he
    simp only [System.onTheWay, System.due, mem_append, mem_singleton] at he ⊢
    rcases he with (he | rfl) | he
    · exact .inl (.inl he)
    · exact .inr rfl
    · exact .inl (.inr he)
  | recv e chan s' hchan hship =>
    obtain ⟨-, ship, -, rfl⟩ := shipperStep_eq_some hship
    refine h.of_src rfl (fun _ => rfl) ?_
    intro x hx
    left
    rcases onTheWay_ship hship x hx with hold | ⟨t, ht⟩
    · simp only [System.onTheWay, hchan, cons_append] at hold ⊢
      exact mem_cons_of_mem e hold
    · cases ht
      exact mem_append_left _ (hchan ▸ mem_cons_self)
  | ship l s' hown hship =>
    obtain ⟨-, ship, -, rfl⟩ := shipperStep_eq_some hship
    refine h.of_src rfl (fun _ => rfl) ?_
    intro x hx
    left
    rcases onTheWay_ship hship x hx with hold | ⟨t, rfl⟩
    · exact hold
    · cases hown
  | ack e rest hdue =>
    have hmem : e ∈ s.onTheWay :=
      mem_append_right _ (mem_append_right _ (hdue ▸ mem_cons_self))
    have hleft : ∀ x ∈ s.ship.acked.drop (s.ran + 1), x ∈ s.due := by
      intro x hx
      rw [← drop_drop] at hx
      exact mem_of_mem_drop hx
    unfold System.runAck
    cases hack : e.ack with
    | file sp =>
      refine h.of_src rfl ?_ ?_
      · intro hno
        have hne : p ≠ sp.path := by
          rintro rfl
          simpa [Entry.isOf, hack] using hno e hmem
        exact Positions.setFile_other hne
      · intro x hx
        simp only [System.onTheWay, System.due, mem_append] at hx ⊢
        exact .inl (hx.imp_right (Or.imp_right (hleft x)))
    | journal c =>
      refine h.of_src rfl (fun _ => congrFun (Positions.setJournalCursor_files s.pos c) p) ?_
      intro x hx
      simp only [System.onTheWay, System.due, mem_append] at hx ⊢
      exact .inl (hx.imp_right (Or.imp_right (hleft x)))
  | save =>
    exact h.of_src rfl (fun _ => congrFun (Positions.beginSave_files cfg.stateDir s.pos) p)
      fun e he => .inl he
  | saveEnd | cancel => exact h.of_src rfl (fun _ => rfl) fun e he => .inl he
  | crash => cases hstay

/-- A path that has vanished, and whose file the source follows. From there on, in every
run of the process in which no file appears at the path and `Forget` runs behind the
last acknowledgement: once the file is closed and its entries are acknowledged, the
path has no position. -/
theorem vanished_forgotten (cfg : PipelineConfig φ ε) (p : Str) (s s' : System φ ε)
    (hgone : cfg.source.fs.stat s.env.world p = none) (hfollowed : s.src.isFollowed p = true)
    (as : List (Label φ ε)) (hstay : ∀ a ∈ as, staysGone cfg p a = true)
    (hrun : run (guarded (forgetsLast p) (step cfg)) s as = some s')
    (hclosed : s'.src.closed p = true) : s'.pos.files p = none := by
  have hinv := run_inv_of_labels (I := fun s : System φ ε =>
    cfg.source.fs.stat s.env.world p = none ∧ Forgotten p s) ?_ as s s' hstay
    ⟨hgone, fun hc => by simp [Source.closed, hfollowed] at hc⟩ hrun
  · exact (hinv.2 hclosed).1
  · rintro s a s' ha ⟨hgone, h⟩ hstep
    obtain ⟨hg, hstep⟩ := guarded_eq_some.mp hstep
    refine ⟨?_, ?_⟩
    · rcases step_world hstep with heq | ⟨w, rfl, heq⟩
      · rw [heq]
        exact hgone
      · rw [heq]
        exact Option.isNone_iff_eq_none.mp ha
    · have hagent : (if s.up then agentStep cfg s a else none) = some s' → Forgotten p s' := by
        intro hs
        split at hs
        · exact forgotten_agent hgone h hg ha hs
        · cases hs
      cases a with
      | tick | world | append | truncate =>
        cases hstep
        exact h
      | restart => cases ha
      | _ => exact hagent hstep

/-- The source follows an empty file; its path vanishes, and one line is written to it. -/
def vanishing : Option (System Tree Bytes) :=
  run (step aPipeline) (System.begun ⟨0, [(aLog, .file 7)], fun _ => []⟩)
    (List.replicate 15 (.source aLog) ++ [.world [], .append 7 [121, 10]])

/-- The line is sent, delivered and acknowledged before the file is closed. -/
def deliveredFirst : List (Label Tree Bytes) :=
  List.replicate 6 (.source aLog) ++ [.recv, .ship .timer, .ship (.posted .ok), .ack] ++
    List.replicate 3 (.source aLog)

theorem vanished_forgotten_line : ∃ s s' : System Tree Bytes, vanishing = some s ∧
    run (guarded (forgetsLast aLog) (step aPipeline)) s deliveredFirst = some s' ∧
    s'.sent = [(1, ⟨aLog, 7, 0, 2⟩)] ∧ s'.acked = s'.sent ∧
    s'.pos.files aLog = none :=
  ⟨_, _, rfl, rfl, rfl, rfl, vanished_forgotten aPipeline _ (vanishing.get rfl) _ rfl rfl
    deliveredFirst (by simp [deliveredFirst, staysGone]) rfl rfl⟩

/-- The file is closed while its line is on its way: the acknowledgement brings back
the position of a path that is not there. -/
theorem position_returns : ∃ s s' : System Tree Bytes, vanishing = some s ∧
    Tree.stat s.env.world aLog = none ∧
    s.src.isFollowed aLog = true ∧
    run (step aPipeline) s
      (List.replicate 9 (.source aLog) ++
        [.recv, .ship .timer, .ship (.posted .ok), .ack]) = some s' ∧
    s'.src.closed aLog = true ∧
    s'.delivered aLog = true ∧ s'.acked = s'.sent ∧
    s'.pos.files aLog = some (7, 2) :=
  ⟨_, _, rfl, rfl, rfl, rfl, rfl, rfl, rfl, rfl⟩

end YominsAgent.Logs
