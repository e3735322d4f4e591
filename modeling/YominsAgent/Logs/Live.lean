import YominsAgent.Lib.Progress
import YominsAgent.Logs.History

/- What keeps the goroutine of the source from getting stuck: the files it is about to read are
   followed, each once, an unfinished line has a time, and neither the source nor the shipper has
   stopped without a cancellation. Every path it has ever opened would be opened again (`Admitted`),
   as long as the globs match no more paths than it may follow (`fewFiles`). -/
namespace YominsAgent.Logs
open Go Lib List

variable {φ ε : Type}

/-- The globs match no path that is not in the list. -/
def fewFiles (cfg : PipelineConfig φ ε) (U : List Str) (_ : System φ ε) : Label φ ε → Bool
  | .world w => cfg.source.globs.all fun g => (cfg.source.fs.glob w g.2).all U.contains
  | _ => true

section
variable (cfg : SourceConfig φ ε) (U : List Str)

/-- A glob of the spec has matched the path. -/
def Matched (spec : FileSpec) (p : Str) : Prop :=
  p ∈ U ∧ ∃ g, (spec, g) ∈ cfg.globs ∧ ∃ w, p ∈ cfg.fs.glob w g

/-- Whenever it is there the path is wanted, for one of the specs that match it. -/
def Admitted (p : Str) : Prop :=
  isRotatedName p = false ∧ allowed p cfg.allow = true ∧
    ∃ spec, Matched cfg U spec p ∧ (spec.exclude.any fun ex => cfg.fs.fileMatch ex p) = false

/-- The matches and the globs of a discovery come from the specs. -/
structure SearchOk (d : Discovery) : Prop where
  found : ∀ p ∈ d.found, Matched cfg U d.spec p
  todo : ∀ g ∈ d.todo, g ∈ cfg.globs

/-- The files still to be read in this round are followed, and each comes once. -/
def TodoOk (src : Source) (todo : List Str) : Prop :=
  todo.Nodup ∧ ∀ p ∈ todo, (src.file? p).isSome = true

def LiveControl (src : Source) : SourceControl → Prop
  | .discovering d => SearchOk cfg U d
  | .opening d p => SearchOk cfg U d ∧ Admitted cfg U p
  | .opened d p _ _ => SearchOk cfg U d ∧ Admitted cfg U p
  | .sized d p _ _ _ => SearchOk cfg U d ∧ Admitted cfg U p
  | .registering d tf _ => SearchOk cfg U d ∧ Admitted cfg U tf.path
  | .reading todo => TodoOk src todo
  | .filling p todo => TodoOk src (p :: todo)
  | .emitting p _ _ _ todo => TodoOk src (p :: todo)
  | .closing p _ todo => TodoOk src (p :: todo)
  | .forgetting _ todo => TodoOk src todo
  | _ => True

structure LiveSource (src : Source) : Prop where
  paths : src.paths.Nodup
  parts : ∀ p tf, src.file? p = some tf → tf.part ≠ [] → tf.partAt.isSome = true
  control : LiveControl cfg U src src.control

structure Live (s : System φ ε) : Prop where
  source : LiveSource cfg U s.src
  admitted : ∀ x ∈ s.opens, Admitted cfg U x.1
  running : s.src.control = .stopped → s.ship.cancelled = true
  shipping : s.ship.control = .stopped → s.ship.cancelled = true
  world : ∀ g ∈ cfg.globs, ∀ p ∈ cfg.fs.glob s.env.world g.2, p ∈ U

end

variable {cfg : SourceConfig φ ε} {U : List Str} {s s' : System φ ε} {src src' : Source}
  {todo : List Str} {p : Str} {lastFound : Option Int} {tf : TailedFile} {env : Env φ}

theorem TodoOk.mono (h : TodoOk src todo)
    (hsub : ∀ p, (src.file? p).isSome = true → (src'.file? p).isSome = true) : TodoOk src' todo :=
  ⟨h.1, fun p hp => hsub p (h.2 p hp)⟩

theorem TodoOk.tail (h : TodoOk src (p :: todo)) : TodoOk src todo :=
  ⟨(nodup_cons.mp h.1).2, fun q hq => h.2 q (mem_cons_of_mem p hq)⟩

theorem isSome_of_paths (h : src'.paths = src.paths) (p : Str)
    (hp : (src.file? p).isSome = true) : (src'.file? p).isSome = true := by
  rw [← mem_paths] at hp ⊢
  rw [h]
  exact hp

section
variable (h : LiveSource cfg U src)
include h

theorem LiveSource.turn {control : SourceControl} (hc : LiveControl cfg U src control) :
    LiveSource cfg U { src with lastFound, control } := by
  refine ⟨h.paths, h.parts, ?_⟩
  cases control <;> exact hc

theorem LiveSource.put {tf' : TailedFile} {control : SourceControl} (hp : src.file? p = some tf)
    (hpath : tf'.path = tf.path) (hpart : tf'.part ≠ [] → tf'.partAt.isSome = true)
    (hc : LiveControl cfg U { src with files := src.put tf', control } control) :
    LiveSource cfg U { src with files := src.put tf', control } := by
  have hfind : findFile src.files tf'.path = some tf :=
    (hpath.trans (findFile_path hp)).symm ▸ hp
  refine ⟨?_, ?_, hc⟩
  · show ((src.put tf').map (·.path)).Nodup
    rw [paths_put]
    exact h.paths
  · intro q x hq
    rw [Source.file?, findFile_put hfind] at hq
    split at hq
    · cases hq
      exact hpart
    · exact h.parts q x hq

theorem LiveSource.markGone (f : TailedFile → Bool) (todo : List Str) :
    LiveSource cfg U { src with files := src.markGone f, control := .checking todo } := by
  refine ⟨?_, ?_, trivial⟩
  · show ((src.markGone f).map (·.path)).Nodup
    rw [paths_markGone]
    exact h.paths
  · intro q x hq
    rw [Source.file?, findFile_markGone] at hq
    obtain ⟨tf, htf, rfl⟩ := Option.map_eq_some_iff.mp hq
    split <;> exact h.parts q tf htf

theorem LiveSource.register {d : Discovery} (hnew : src.file? tf.path = none) (hpart : tf.part = [])
    (hd : SearchOk cfg U d) :
    LiveSource cfg U { src with files := src.files ++ [tf], control := .discovering d } := by
  refine ⟨?_, ?_, hd⟩
  · show ((src.files ++ [tf]).map (·.path)).Nodup
    rw [map_append]
    refine List.Nodup.append h.paths (nodup_singleton _) ?_
    intro q hq hq'
    rw [mem_singleton.mp hq'] at hq
    have hsome := mem_paths.mp hq
    rw [hnew] at hsome
    cases hsome
  · intro q x hq
    rw [Source.file?, findFile_snoc hnew] at hq
    split at hq
    · cases hq
      exact fun hne => absurd hpart hne
    · exact h.parts q x hq

theorem LiveSource.shut {control : SourceControl} (htodo : TodoOk src (p :: todo))
    (hc : control = .reading todo ∨ control = .forgetting p todo) :
    LiveSource cfg U { src with files := src.delete p, lastFound, control } := by
  have hrest : TodoOk { src with files := src.delete p, lastFound, control } todo := by
    refine ⟨htodo.tail.1, fun q hq => ?_⟩
    rw [Source.file?, findFile_delete, if_neg]
    · exact htodo.tail.2 q hq
    · rintro rfl
      exact (nodup_cons.mp htodo.1).1 hq
  refine ⟨h.paths.sublist (filter_sublist.map _), ?_, ?_⟩
  · intro q x hq
    rw [Source.file?, findFile_delete] at hq
    split at hq
    · cases hq
    · exact h.parts q x hq
  · rcases hc with rfl | rfl <;> exact hrest

end

theorem live_source (hI : Inv cfg s) (hL : Live cfg U s) {effect : Effect ε}
    (hm : SourceMove cfg s.env s.pos s.src src effect) : LiveSource cfg U src := by
  have h := hL.source
  have hlive : ∀ c, s.src.control = c → LiveControl cfg U s.src c := fun c hc => hc ▸ h.control
  -- a file in the middle of its `read` has no unfinished line
  have hnil : ∀ {p lines rest n todo tf}, s.src.control = .emitting p lines rest n todo →
      s.src.file? p = some tf → tf.part = [] := fun hc hp => (hI.controlOk hc _ hp).1
  have hput : ∀ tf' control todo, TodoOk s.src todo →
      TodoOk { s.src with files := s.src.put tf', control } todo :=
    fun tf' control todo ht => ht.mono (isSome_of_paths paths_put)
  cases hm with
  | search => exact h.turn ⟨(fun p hp => nomatch hp), fun g hg => hg⟩
  | pass d p found seen hc hfound =>
    have hd : SearchOk cfg U d := hlive _ hc
    exact h.turn ⟨fun q hq => hd.found q (hfound ▸ mem_cons_of_mem p hq), hd.todo⟩
  | candidate d p found hc hfound hnew hw =>
    have hd : SearchOk cfg U d := hlive _ hc
    obtain ⟨hrot, hex, -, hallow⟩ := wanted_eq_read.mp hw
    refine h.turn ⟨⟨fun q hq => hd.found q (hfound ▸ mem_cons_of_mem p hq), hd.todo⟩, hrot,
      hallow, d.spec, hd.found p (hfound ▸ mem_cons_self), hex⟩
  | nextGlob d spec g todo hc hfound htodo =>
    have hd : SearchOk cfg U d := hlive _ hc
    have hg : (spec, g) ∈ cfg.globs := hd.todo _ (htodo ▸ mem_cons_self)
    refine h.turn ⟨fun q hq => ⟨hL.world _ hg q hq, g, hg, s.env.world, hq⟩, fun g' hg' => ?_⟩
    exact hd.todo g' (htodo ▸ mem_cons_of_mem _ hg')
  | endSearch => exact h.markGone _ _
  | check => exact h.markGone _ _
  | notOpened d p hc => exact h.turn (hlive _ hc).1
  | opened _ _ _ hc | sized _ _ _ _ hc | choose _ _ _ _ _ hc =>
    have hd := hlive _ hc
    exact h.turn hd
  | register d tf resumed hc =>
    obtain ⟨hop, hpart, -, -⟩ := hI.controlOk hc
    exact h.register hop.new hpart (hlive _ hc).1
  | endCheck =>
    have hperm : s.src.sorted.Perm s.src.paths := perm_insertionSort _ _
    refine h.turn ⟨hperm.nodup_iff.mpr h.paths, fun p hp => ?_⟩
    exact mem_paths.mp (hperm.mem_iff.mp hp)
  | rewind p todo tf hc hp =>
    refine h.put hp (rewind_same _ tf).1 ?_ (hput _ _ _ (hlive _ hc))
    unfold Logs.rewind
    split
    · exact fun hne => absurd rfl hne
    · exact h.parts p tf hp
  | fill p todo tf lines rest hc hp =>
    exact h.put hp rfl (fun hne => absurd rfl hne) (hput _ _ _ (hlive _ hc))
  | line p l lines rest n todo tf hc hp =>
    exact h.put hp rfl (h.parts p tf hp) (hput _ _ _ (hlive _ hc))
  | rest p rest n todo tf partAt hc hp =>
    exact h.put hp rfl (fun hne => absurd (hnil hc hp) hne) (hput _ _ _ (hlive _ hc))
  | keep p rest part n todo tf partAt hc hp hpart =>
    refine h.put hp rfl (fun hne => ?_) (hput _ _ _ (hlive _ hc))
    rcases hpart with ⟨-, hsome⟩ | ⟨-, heq⟩
    · exact hsome
    · exact absurd (heq.trans (hnil hc hp)) hne
  | shut p n todo tf hc =>
    refine h.shut (hlive _ hc) ?_
    split
    · exact .inl rfl
    · exact .inr rfl
  | leave p n todo hc => exact h.turn (hlive _ hc : TodoOk s.src (p :: todo)).tail
  | forget p todo hc =>
    have ht := hlive _ hc
    exact h.turn ht
  | _ => exact h.turn trivial

theorem SourceMove.running {pos : Positions} {effect : Effect ε}
    (hm : SourceMove cfg env pos src src' effect) : src'.control ≠ .stopped := by
  cases hm with
  | shut =>
    simp only
    split <;> exact nofun
  | _ => intro h; cases h

theorem live_newSource (now : Int) : LiveSource cfg U (System.newSource now) :=
  ⟨nodup_nil, nofun, trivial⟩

variable {pcfg : PipelineConfig φ ε} {a : Label φ ε}

theorem live_step (hI : Inv pcfg.source s) (hL : Live pcfg.source U s)
    (hfew : fewFiles pcfg U s a = true) (hs : Change pcfg s a s') : Live pcfg.source U s' := by
  cases hs with
  | source pick src effect s' hup hm happly =>
    have hf := apply_frame happly
    have hrun := hm.running
    refine ⟨hf.src ▸ live_source hI hL hm, ?_, ?_, ?_, ?_⟩
    · cases hm.moves with
      | register d tf resumed hc =>
        have hctl : LiveControl pcfg.source U s.src (.registering d tf resumed) :=
          hc ▸ hL.source.control
        cases happly
        intro x hx
        rcases mem_cons.mp hx with rfl | hx
        · exact hctl.2
        · exact hL.admitted x hx
      | quiet | forget => cases happly; exact hL.admitted
      | piece =>
        rcases apply_emit happly with ⟨-, rfl⟩ | ⟨e, he, rfl⟩
        · exact hL.admitted
        · exact hL.admitted
    · rw [hf.src]
      exact fun hstop => absurd hstop hrun
    · rw [hf.ship]
      exact hL.shipping
    · rw [hf.env]
      exact hL.world
  | agent a pos snap saved control chan ship ran acked hup hc hran hcan hstop =>
    have hkeep : s.ship.cancelled = true → ship.cancelled = true := by
      intro hdone
      rcases hcan with heq | ⟨-, hnow⟩
      · exact heq.trans hdone
      · exact hnow
    refine ⟨?_, hL.admitted, ?_, ?_, hL.world⟩
    · rcases hc with rfl | ⟨rfl, -⟩
      · exact hL.source
      · exact hL.source.turn trivial
    · intro hstopped
      rcases hc with rfl | ⟨-, hdone⟩
      · exact hkeep (hL.running hstopped)
      · exact hkeep hdone
    · intro hstopped
      rcases hstop hstopped with hold | hdone
      · exact hkeep (hL.shipping hold)
      · exact hkeep hdone
  | around a env truncated hback htr hdata hworld =>
    refine ⟨hL.source, hL.admitted, hL.running, hL.shipping, ?_⟩
    rcases hworld with heq | rfl
    · intro g hg p hp
      replace hp : p ∈ pcfg.source.fs.glob env.world g.2 := hp
      rw [heq] at hp
      exact hL.world g hg p hp
    · intro g hg p hp
      have hall := all_eq_true.mp (all_eq_true.mp hfew g hg) p hp
      simpa using hall
  | crash | restart => exact ⟨live_newSource _, hL.admitted, nofun, nofun, hL.world⟩

theorem live_init (hworld : ∀ g ∈ cfg.globs, ∀ p ∈ cfg.fs.glob env.world g.2, p ∈ U) :
    Live cfg U (System.init env : System φ ε) :=
  ⟨live_newSource _, nofun, nofun, nofun, hworld⟩

/-! ## Every run -/

/-- What is known of a state of a run in which few files match. -/
structure Known (cfg : PipelineConfig φ ε) (U : List Str) (s : System φ ε) : Prop where
  inv : Inv cfg.source s
  sound : s.cursors.Sound
  history : History s
  live : Live cfg.source U s

theorem Known.step (h : Known pcfg U s) (hassumed : assumed pcfg s a = true)
    (hfew : fewFiles pcfg U s a = true) (hs : step pcfg s a = some s') : Known pcfg U s' := by
  obtain ⟨hinv, hsteps⟩ := keeps_step h.inv hassumed hs
  have hchange := step_change h.inv.ran hassumed hs
  exact
    { inv := hinv
      sound := Cursors.sound_of_steps hsteps h.sound
      history := history_step h.inv h.history hchange
      live := live_step h.inv h.live hfew hchange }

theorem known_init {env : Env φ}
    (hworld : ∀ g ∈ pcfg.source.globs, ∀ q ∈ pcfg.source.fs.glob env.world g.2, q ∈ U) :
    Known pcfg U (System.init env) :=
  ⟨inv_init _ env, sound_init env, history_init pcfg.source env, live_init hworld⟩

end YominsAgent.Logs
