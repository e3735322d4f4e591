import YominsAgent.Logs.CatchUp

/- What a restart makes of the lines in flight.

   As long as the path leads to the inode whenever a process starts, and until the
   process has opened it, every line that was emitted and not acknowledged is emitted
   again (`emitted_again`). Once the file was rotated while its lines are in flight,
   no process that starts later reads the old inode: a renamed file is found under no
   glob, and the position of its path is about the new one (`rotated_in_flight`). -/
namespace YominsAgent.Logs
open Go Lib Relation

variable {φ ε : Type} {cfg : PipelineConfig φ ε} {U : List Str} {p : Str} {i : Inode}
  {s s' : System φ ε} {src : Source} {a : Label φ ε} {env : Env φ} {as : List (Label φ ε)} {k : Nat}

/-! ## Emitted again -/

/-- What is known of a state of a run in which the path stays and few files match. -/
structure Reached (cfg : PipelineConfig φ ε) (U : List Str) (p : Str) (i : Inode)
    (s : System φ ε) : Prop extends Known cfg U s where
  restarts : Restarts cfg p i s

/-- The assumptions, that the path stays while it is owed, and that few files match. -/
def staysPut (cfg : PipelineConfig φ ε) (U : List Str) (p : Str) (i : Inode) (s : System φ ε)
    (a : Label φ ε) : Bool :=
  assumed cfg s a && stays cfg p i s a && fewFiles cfg U s a

theorem Reached.step (h : Reached cfg U p i s) (hg : staysPut cfg U p i s a = true)
    (hs : step cfg s a = some s') : Reached cfg U p i s' := by
  simp only [staysPut, Bool.and_eq_true] at hg
  have hchange := step_change h.inv.ran hg.1.1 hs
  exact ⟨h.toKnown.step hg.1.1 hg.2 hs,
    restarts_step h.inv h.sound h.history h.restarts hg.1.2 hchange⟩

theorem reached_run (hworld : ∀ g ∈ cfg.source.globs, ∀ q ∈ cfg.source.fs.glob env.world g.2, q ∈ U)
    (hrun : run (guarded (staysPut cfg U p i) (step cfg)) (System.init env) as = some s) :
    Reached cfg U p i s :=
  run_guarded_inv (fun _ _ _ h => h.step) as _ s ⟨known_init hworld, restarts_init env⟩ hrun

theorem Reached.gets (h : Reached cfg U p i s) (hup : s.up = true)
    (hgo : s.ship.cancelled = false) (hr : Gets cfg s s') : Reached cfg U p i s' := by
  have hgood : Good cfg U s := ⟨h.inv, h.live, hup, hgo⟩
  refine hgood.keeps hr h ?_
  intro t t' a ht ha hs _ hreached
  have hown : stays cfg p i t a = true ∧ fewFiles cfg U t a = true := by
    cases a with
    | world => cases ha
    | restart => cases ha
    | _ => exact ⟨rfl, rfl⟩
  exact hreached.step (by simp [staysPut, own_assumed ha ht.going, hown]) hs

section
variable (h : Reached cfg U p i s) (hU : U.length ≤ maxFiles) (hup : s.up = true)
  (hgo : s.ship.cancelled = false)
include h hU hup hgo

theorem Reached.opens (hopen : (p, i) ∈ s.opens) (howes : s.owes p i = true) :
    ∃ s', Gets cfg s s' ∧ s'.env.data = s.env.data ∧ (p, i) ∈ s'.mine := by
  have hgood : Good cfg U s := ⟨h.inv, h.live, hup, hgo⟩
  by_cases hmine : (p, i) ∈ s.mine
  · exact ⟨s, .refl, rfl, hmine⟩
  obtain ⟨hstands, -⟩ := h.restarts.path hup howes hmine
  obtain ⟨t, hr, henv, hidle⟩ := hgood.toIdle
  by_cases hmine' : (p, i) ∈ t.mine
  · exact ⟨t, hr, congrArg Env.data henv, hmine'⟩
  have ht := hgood.gets hr
  have hopen' : (p, i) ∈ t.opens := (hgood.onward hr).opens _ hopen
  rw [← henv] at hstands
  -- nothing is followed at a path that leads where an earlier process had opened it
  have hfree : t.src.file? p = none := by
    cases hp : t.src.file? p with
    | none => rfl
    | some tf =>
      exact absurd (ht.inv.followed p tf hp).1
        (ht.inv.old p i hopen' hmine' (stands_leads hstands) tf.inode)
  obtain ⟨s', tf, hr', hdata, -, hp, rfl⟩ :=
    ht.reopen hidle hU (ht.live.admitted _ hopen') hstands hfree
  exact ⟨s', hr.trans hr', by rw [hdata, henv], ((ht.gets hr').inv.followed p tf hp).1⟩

/-- Whatever a process has emitted of the file and a later one has taken over: the
agent on its own gets to where each byte of it was acknowledged, or was passed over as
blank, or is emitted again. -/
theorem Reached.again (hi : i ∉ s.truncated) {sp : Span Str Inode} (hsent : (k, sp) ∈ s.sent)
    (hk : k < s.boot) (hp : sp.path = p) (hf : sp.file = i) :
    ∃ s', Gets cfg s s' ∧ ∀ b, sp.Has p i b →
      s'.Done p i b ∨ ∃ x ∈ s'.sent, k < x.1 ∧ x.2.Has p i b := by
  have hgood : Good cfg U s := ⟨h.inv, h.live, hup, hgo⟩
  by_cases hall : ∀ b, sp.Has p i b → s.Done p i b
  · exact ⟨s, .refl, fun b hb => .inl (hall b hb)⟩
  simp only [not_forall] at hall
  obtain ⟨b0, hb0, hnot⟩ := hall
  have howes : s.owes p i = true := owes_iff.mpr ⟨hi, _, hsent, b0, hb0, hnot⟩
  have hopen : (p, i) ∈ s.opens := by
    have := h.history.opens _ hsent
    rwa [hp, hf] at this
  obtain ⟨s1, hr1, hdata1, hmine1⟩ := h.opens hU hup hgo hopen howes
  have h1 := hgood.gets hr1
  obtain ⟨s2, hr2, henv2, hidle⟩ := h1.toIdle
  have h2 := h1.gets hr2
  have hdata2 : s2.env.data = s.env.data := by rw [henv2, hdata1]
  have hwithin : sp.hi ≤ (s2.env.data i).length := by
    have := h.history.within _ hsent (hf.symm ▸ hi)
    rwa [hf, ← hdata2] at this
  have htr : ∀ t, Gets cfg s t → i ∉ t.truncated := fun t hr => (hgood.onward hr).truncated ▸ hi
  obtain ⟨s3, hr3, -, -, hpast, -⟩ :=
    h2.catchUp (p := p) hidle hwithin (h2.reader_le (htr s2 (hr1.trans hr2)))
  have hr : Gets cfg s s3 := hr1.trans (hr2.trans hr3)
  have hmine3 : (p, i) ∈ s3.mine := (h1.onward (hr2.trans hr3)).mine _ hmine1
  have h3 := h.gets hup hgo hr
  have hon := hgood.onward hr
  refine ⟨s3, hr, fun b hb => ?_⟩
  rcases h3.restarts.bytes (htr s3 hr) (k, sp) (hon.sent _ hsent) (hon.boot.symm ▸ hk) b hb with
    hdone | hreads
  · exact .inl hdone
  have hhandled : s3.Handled p i b := by
    by_cases hfol : ∃ tf, s3.src.file? p = some tf ∧ tf.inode = i
    · obtain ⟨tf, htf, rfl⟩ := hfol
      have hge := (hpast tf htf rfl).1
      obtain ⟨-, -, -, hlt⟩ := hb
      exact handled_of_reader h3.sound h3.history (hgood.gets hr).going htf (htr s3 hr) hreads.begun
        (by omega)
    · exact hreads.closed (hgood.gets hr).going hmine3 fun tf htf hin => hfol ⟨tf, htf, hin⟩
  exact hhandled.imp_right fun ⟨y, hy, hyb⟩ => ⟨_, hy, hon.boot.symm ▸ hk, hyb⟩

end

/-- After a crash nothing in flight is lost, as long as the path of the file stays: in
every state of a running agent, and for every line that a process before this one has
emitted, the agent on its own gets to where every byte of the line was acknowledged to
that process or one before it, is emitted again by a later one, or lies in a piece that
is blank. -/
theorem emitted_again (cfg : PipelineConfig φ ε) (env : Env φ) (U : List Str)
    (hU : U.length ≤ maxFiles)
    (hworld : ∀ g ∈ cfg.source.globs, ∀ q ∈ cfg.source.fs.glob env.world g.2, q ∈ U)
    (k : Nat) (sp : Span Str Inode) (as : List (Label φ ε)) (s : System φ ε)
    (hrun : run (guarded (staysPut cfg U sp.path sp.file) (step cfg)) (System.init env) as = some s)
    (hup : s.up = true) (hgo : s.ship.cancelled = false) (hsent : (k, sp) ∈ s.sent)
    (hk : k < s.boot) (hdisk : sp.file ∉ s.truncated) :
    ∃ bs s', (∀ a ∈ bs, ownLabel a = true) ∧ run (step cfg) s bs = some s' ∧
      ∀ b, sp.lo ≤ b → b < sp.hi →
        (∃ x ∈ s'.acked, x.1 ≤ k ∧ x.2.Has sp.path sp.file b) ∨
        (∃ x ∈ s'.sent, k < x.1 ∧ x.2.Has sp.path sp.file b) ∨
        ∃ x ∈ s'.skipped, BlankAt (s'.env.data sp.file) x.2 ∧ x.2.Has sp.path sp.file b := by
  have h := reached_run hworld hrun
  have hgood : Good cfg U s := ⟨h.inv, h.live, hup, hgo⟩
  obtain ⟨s', hr, hbytes⟩ := h.again hU hup hgo hdisk hsent hk rfl rfl
  obtain ⟨bs, hbs, hrun'⟩ := run_of_own hr
  have hdisk' : sp.file ∉ s'.truncated := (hgood.onward hr).truncated ▸ hdisk
  refine ⟨bs, s', hbs, hrun', fun b hlo hhi => ?_⟩
  rcases hbytes b ⟨rfl, rfl, hlo, hhi⟩ with ⟨x, hx | hx, hb⟩ | hagain
  · by_cases hle : x.1 ≤ k
    · exact Or.inl ⟨x, hx, hle, hb⟩
    · exact Or.inr (Or.inl ⟨x, (h.gets hup hgo hr).history.acked x hx, by omega, hb⟩)
  · have hfile : x.2.file = sp.file := hb.2.1
    have hblank := (hgood.gets hr).inv.blank x hx (hfile.symm ▸ hdisk')
    exact Or.inr (Or.inr ⟨x, hx, hfile ▸ hblank, hb⟩)
  · exact Or.inr (Or.inl hagain)

/-- A log file of one line, which is emitted before its position is acknowledged. -/
def oneLine : List (Label Tree Bytes) :=
  let source (n : Nat) : List (Label Tree Bytes) := List.replicate n (.source aLog)
  [.restart] ++ source 15 ++ [.save, .saveEnd true, .append 7 [120, 10]] ++ source 9

def emittedTwice : List (Label Tree Bytes) := oneLine ++ [.crash, .restart]

/-- The agent crashes and is started again: the line is emitted once more. -/
theorem one_line_again : ∃ s bs s', run (guarded (staysPut aPipeline [aLog] aLog 7) (step aPipeline))
      (System.init aEnv) emittedTwice = some s ∧ s.boot = 2 ∧ s.acked = [] ∧
    (∀ a ∈ bs, ownLabel a = true) ∧ run (step aPipeline) s bs = some s' ∧
    ∀ b, 0 ≤ b → b < 2 →
      (∃ x ∈ s'.acked, x.1 ≤ 1 ∧ x.2.Has aLog 7 b) ∨
      (∃ x ∈ s'.sent, 1 < x.1 ∧ x.2.Has aLog 7 b) ∨
      ∃ x ∈ s'.skipped, BlankAt (s'.env.data 7) x.2 ∧ x.2.Has aLog 7 b := by
  obtain ⟨bs, s', hbs, hrun, hall⟩ := emitted_again aPipeline aEnv [aLog] (by decide) (by decide) 1
    ⟨aLog, 7, 0, 2⟩ emittedTwice _ rfl rfl rfl (List.mem_singleton_self _) (by decide)
    List.not_mem_nil
  exact ⟨_, bs, s', rfl, rfl, rfl, hbs, hrun, hall⟩

/-! ## Left behind -/

/-- The source has opened the inode and not yet registered it. -/
def Opening (i : Inode) : SourceControl → Prop
  | .opened _ _ j _ => j = i
  | .sized _ _ j _ _ => j = i
  | .registering _ tf _ => tf.inode = i
  | _ => False

/-- Nothing reads the inode, and no path that is watched leads to it any more. -/
structure Closed (cfg : SourceConfig φ ε) (i : Inode) (s : System φ ε) : Prop where
  away : ∀ q, Globbed cfg q → (q, i) ∈ s.opens ∧ ¬ Leads cfg.fs s.env.world q i
  files : ∀ q tf, s.src.file? q = some tf → tf.inode ≠ i
  control : ¬ Opening i s.src.control

section
variable (hI : Inv cfg.source s) (h : Closed cfg.source i s)
include hI h

theorem Closed.control_move {effect : Effect ε}
    (hm : SourceMove cfg.source s.env s.pos s.src src effect) : ¬ Opening i src.control := by
  have hold := h.control
  cases hm with
  | opened d q j hc hstat =>
    rintro rfl
    have hctl := hI.controlOk hc
    exact (h.away q hctl.globbed).2 hstat
  | sized _ _ _ _ hc | choose _ _ _ _ _ hc => rwa [hc] at hold
  | shut => split <;> exact id
  | _ => exact id

theorem Closed.source_move {effect : Effect ε}
    (hm : SourceMove cfg.source s.env s.pos s.src src effect)
    (happly : s.apply src effect = some s') :
    (∀ q tf, src.file? q = some tf → tf.inode ≠ i) ∧
      ∀ x ∈ s'.sent, x.2.file = i → x ∈ s.sent := by
  constructor
  · intro q tf' hq
    rcases hm.origin hI hq with ⟨tf, htf, hinode, -⟩ | ⟨d, resumed, hc, -⟩
    · rw [hinode]
      exact h.files q tf htf
    · have hold := h.control
      rwa [hc] at hold
  · cases hm.moves with
    | quiet | register | forget => cases happly; exact fun _ hx _ => hx
    | piece src tf tf' line bs hp =>
      rcases apply_emit happly with ⟨-, rfl⟩ | ⟨e, -, rfl⟩
      · exact fun _ hx _ => hx
      · exact forall_mem_snoc.mpr
          ⟨fun _ hx _ => hx, fun hfile => absurd hfile (h.files tf.path tf hp)⟩

theorem Closed.step (hs : Change cfg s a s') :
    Closed cfg.source i s' ∧ ∀ x ∈ s'.sent, x.2.file = i → x ∈ s.sent := by
  cases hs with
  | source pick src effect s' hup hm happly =>
    have hf := apply_frame happly
    obtain ⟨hfiles, hsent⟩ := h.source_move hI hm happly
    refine ⟨⟨fun q hq => ?_, hf.src ▸ hfiles, hf.src ▸ h.control_move hI hm⟩, hsent⟩
    rw [hf.env]
    exact ⟨hf.opens _ (h.away q hq).1, (h.away q hq).2⟩
  | agent a pos snap saved control chan ship ran acked hup hc =>
    refine ⟨⟨h.away, h.files, ?_⟩, fun _ hx _ => hx⟩
    rcases hc with rfl | ⟨rfl, -⟩
    · exact h.control
    · exact id
  | around a env truncated hback =>
    refine ⟨⟨fun q hq => ?_, h.files, h.control⟩, fun _ hx _ => hx⟩
    obtain ⟨hopen, hnot⟩ := h.away q hq
    exact ⟨hopen, fun hl => hnot (hback q i hopen hl)⟩
  | crash | restart => exact ⟨⟨h.away, nofun, id⟩, fun _ hx _ => hx⟩

/-- Whatever happens from there on, no line of the inode is emitted. -/
theorem Closed.never (hrun : run (guarded (assumed cfg) (Logs.step cfg)) s as = some s') :
    ∀ x ∈ s'.sent, x.2.file = i → x ∈ s.sent := by
  refine (run_guarded_inv (I := fun t => Inv cfg.source t ∧ Closed cfg.source i t ∧
    ∀ x ∈ t.sent, x.2.file = i → x ∈ s.sent) ?_ as s s' ⟨hI, h, fun _ hx _ => hx⟩ hrun).2.2
  rintro t a t' ⟨hI, hC, hsent⟩ hg hs
  obtain ⟨hC', hnew⟩ := hC.step hI (step_change hI.ran hg hs)
  exact ⟨(keeps_step hI hg hs).1, hC', fun x hx hfile => hsent x (hnew x hx hfile) hfile⟩

end

/-- The file is renamed, and a new one created at its path. -/
def rotated : Tree := [(aLog, .file 8), (aLog ++ ".1".toList, .file 7)]

def inFlight : List (Label Tree Bytes) := oneLine ++ [.world rotated, .crash, .restart]

theorem globbed_aPipeline {q : Str} (h : Globbed aPipeline.source q) : q = aLog := by
  obtain ⟨g, hg, w, hq⟩ := h
  cases List.mem_singleton.mp hg
  exact Tree.eq_of_mem_glob hq

/-- The line is in flight when the file is rotated and the agent crashes. It is still on
disk, and no run that goes on from there emits it again. -/
theorem rotated_in_flight : ∃ s : System Tree Bytes,
    run (guarded (assumed aPipeline) (step aPipeline)) (System.init aEnv) inFlight = some s ∧
    (1, ⟨aLog, 7, 0, 2⟩) ∈ s.sent ∧ s.acked = [] ∧ s.boot = 2 ∧ s.truncated = [] ∧
    s.env.data 7 = [120, 10] ∧
    aPipeline.source.fs.stat s.env.world (aLog ++ ".1".toList) = some (7, true) ∧
    ∀ as s', run (guarded (assumed aPipeline) (step aPipeline)) s as = some s' →
      ∀ x ∈ s'.sent, 2 ≤ x.1 → x.2.file ≠ 7 := by
  refine ⟨_, rfl, List.mem_singleton_self _, rfl, rfl, rfl, rfl, by decide,
    fun as s' hrun x hx hk hfile => ?_⟩
  have hold := Closed.never (i := 7) (sound_run aPipeline aEnv inFlight rfl).1
    ⟨fun q hq => ?_, nofun, id⟩ hrun x hx hfile
  · cases List.mem_singleton.mp hold
    exact absurd hk (by decide)
  · rw [globbed_aPipeline hq]
    exact ⟨List.mem_singleton_self _, by decide⟩

end YominsAgent.Logs
