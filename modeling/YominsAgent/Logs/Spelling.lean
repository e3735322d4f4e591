import YominsAgent.Logs.AllowList

/- How a path is spelled.

   `filepath.Glob` returns a pattern without meta characters as it is spelled, and cleaned paths
   otherwise (`SpellsGlobs`). `discover` compares what it returns with the exclude globs and with
   the keys of the table of followed files, while `Allowed` cleans the path first. So a glob that
   spells a file's path in another way than the cleaned one gets past the exclude globs, and has the
   file followed twice (`excluded_read`). A glob that is no cleaned path does no harm only if it is
   not followed at all: its name is one that logrotate leaves behind, or it is outside the allow
   list (`excluded_unread_iff`). -/
namespace YominsAgent.Logs
open Go Lib List

variable {φ ε : Type}

/-- `hasMeta` of `path/filepath`. -/
def hasMeta (g : Str) : Bool := g.any fun c => c == '*' || c == '?' || c == '[' || c == '\\'

/-- How `filepath.Glob` spells what it finds. -/
def SpellsGlobs (fs : FileSystem φ) : Prop :=
  ∀ w g p, p ∈ fs.glob w g → if hasMeta g then clean p = p else p = g

/-- The specs as `Discover` builds them: with one list of exclude globs. -/
def excluding (exclude : List Str) (specs : List FileSpec) : List FileSpec :=
  specs.map fun spec => { spec with exclude }

/-- No cleaned path of a followed file is excluded, and no two are the same. -/
structure ReadsOnce (fs : FileSystem φ) (exclude : List Str) (src : Source) : Prop where
  included : ∀ tf ∈ src.files, ∀ ex ∈ exclude, fs.fileMatch ex (clean tf.path) = false
  apart : ∀ tf ∈ src.files, ∀ tf' ∈ src.files, clean tf.path = clean tf'.path → tf = tf'

/-- The glob is spelled as a cleaned path, or has meta characters, or is never
followed. -/
def spelledClean (allow : List Str) (g : Str) : Bool :=
  hasMeta g || clean g == g || isRotatedName g || !allowed g allow

/-! ## Where every glob is spelled as a cleaned path -/

/-- What `wanted` lets through is spelled as a cleaned path and not excluded. -/
structure Proper (cfg : SourceConfig φ ε) (exclude : List Str) (p : Str) : Prop where
  clean : clean p = p
  included : ∀ ex ∈ exclude, cfg.fs.fileMatch ex p = false

/-- A discovery that goes through the globs of the specs. -/
structure Discovery.Through (cfg : SourceConfig φ ε) (exclude : List Str) (d : Discovery) : Prop where
  specs : d.FromSpecs cfg
  exclude : d.found ≠ [] → d.spec.exclude = exclude

/-- The file that is being opened is properly spelled and not followed yet. -/
def OpensOnce (cfg : SourceConfig φ ε) (exclude : List Str) (src : Source) : SourceControl → Prop
  | .discovering d => d.Through cfg exclude
  | .opening d p => d.Through cfg exclude ∧ Proper cfg exclude p ∧ p ∉ src.paths
  | .opened d p _ _ => d.Through cfg exclude ∧ Proper cfg exclude p ∧ p ∉ src.paths
  | .sized d p _ _ _ => d.Through cfg exclude ∧ Proper cfg exclude p ∧ p ∉ src.paths
  | .registering d tf _ =>
    d.Through cfg exclude ∧ Proper cfg exclude tf.path ∧ tf.path ∉ src.paths
  | _ => True

structure FollowsOnce (cfg : SourceConfig φ ε) (exclude : List Str) (src : Source) : Prop where
  files : ∀ p ∈ src.paths, Proper cfg exclude p
  nodup : src.paths.Nodup
  opens : OpensOnce cfg exclude src src.control

variable {cfg : SourceConfig φ ε} {exclude : List Str} {src src' : Source} {env : Env φ} {p : Str}

theorem FollowsOnce.readsOnce (h : FollowsOnce cfg exclude src) : ReadsOnce cfg.fs exclude src := by
  have hproper : ∀ tf ∈ src.files, Proper cfg exclude tf.path := by
    intro tf htf
    apply h.files
    exact mem_map_of_mem htf
  refine ⟨?_, ?_⟩
  · intro tf htf ex hex
    rw [(hproper tf htf).clean]
    exact (hproper tf htf).included ex hex
  · intro tf htf tf' htf' heq
    rw [(hproper tf htf).clean, (hproper tf' htf').clean] at heq
    exact inj_on_of_nodup_map h.nodup htf htf' heq

/-- The paths followed are the same, and where the source stands now is as good. -/
theorem FollowsOnce.turn (h : FollowsOnce cfg exclude src) (hp : src'.paths = src.paths)
    (hc : OpensOnce cfg exclude src' src'.control) : FollowsOnce cfg exclude src' :=
  ⟨hp ▸ h.files, hp ▸ h.nodup, hc⟩

theorem Discovery.Through.tail {d : Discovery} {found : List Str} (h : d.Through cfg exclude)
    (hfound : d.found = p :: found) (seen : List Str) :
    Discovery.Through cfg exclude { d with found, seen } := by
  obtain ⟨⟨hd, htodo⟩, hex⟩ := h
  refine ⟨⟨?_, htodo⟩, ?_⟩
  · intro q hq
    exact hd q (hfound ▸ mem_cons_of_mem p hq)
  · intro _
    exact hex (by simp [hfound])

section
variable (hspells : SpellsGlobs cfg.fs)
  (hclean : ∀ g ∈ cfg.globs, spelledClean cfg.allow g.2 = true)
include hspells hclean

/-- A path that a glob found and `wanted` let through is properly spelled. -/
theorem proper_of_wanted {spec : FileSpec} (hglob : Globbed cfg p) (hspec : spec.exclude = exclude)
    (hw : wanted cfg env.world p spec = .read) :
    Proper cfg exclude p := by
  obtain ⟨hrot, hex, -, hallow⟩ := wanted_eq_read.mp hw
  obtain ⟨g, hg, w, hp⟩ := hglob
  refine ⟨?_, ?_⟩
  · have hspelled := hspells w g.2 p hp
    split at hspelled
    · exact hspelled
    · next hmeta =>
      subst hspelled
      have hsc := hclean g hg
      simp only [spelledClean, hmeta, hrot, hallow, Bool.or_false, Bool.not_true,
        Bool.false_or, beq_iff_eq] at hsc
      exact hsc
  · rw [hspec, any_eq_false] at hex
    intro ex hmem
    simpa using hex ex hmem

theorem followsOnce_source {pos : Positions} {effect : Effect ε}
    (hspecs : ∀ g ∈ cfg.globs, g.1.exclude = exclude) (h : FollowsOnce cfg exclude src)
    (hm : SourceMove cfg env pos src src' effect) : FollowsOnce cfg exclude src' := by
  have hopens : ∀ c, src.control = c → OpensOnce cfg exclude src c := fun c hc => hc ▸ h.opens
  cases hm with
  | search =>
    refine h.turn rfl ⟨⟨?_, fun g hg => hg⟩, fun hne => absurd rfl hne⟩
    intro p hp
    cases hp
  | pass d p found seen hc hfound => exact h.turn rfl ((hopens _ hc).tail hfound seen)
  | candidate d p found hc hfound hnew hw =>
    have hd : d.Through cfg exclude := hopens _ hc
    refine h.turn rfl ⟨hd.tail hfound _, ?_, ?_⟩
    · apply proper_of_wanted hspells hclean _ _ hw
      · exact hd.specs.1 p (hfound ▸ mem_cons_self)
      · exact hd.exclude (by simp [hfound])
    · intro hp
      rw [mem_paths] at hp
      change (src.file? p).isSome = true at hp
      rw [hnew] at hp
      cases hp
  | nextGlob d spec g todo hc hfound htodo =>
    obtain ⟨⟨-, hglobs⟩, -⟩ : d.Through cfg exclude := hopens _ hc
    have hg : (spec, g) ∈ cfg.globs := hglobs _ (htodo ▸ mem_cons_self)
    refine h.turn rfl ⟨⟨?_, ?_⟩, ?_⟩
    · intro q hq
      exact ⟨(spec, g), hg, env.world, hq⟩
    · intro g' hg'
      exact hglobs g' (htodo ▸ mem_cons_of_mem _ hg')
    · intro _
      exact hspecs _ hg
  | endSearch | check => exact h.turn (paths_markGone _) trivial
  | notOpened d p hc => exact h.turn rfl (hopens _ hc).1
  | opened _ _ _ hc | sized _ _ _ _ hc | choose _ _ _ _ _ hc =>
    have hd := hopens _ hc
    exact h.turn rfl hd
  | register d tf resumed hc =>
    obtain ⟨hd, hproper, hnew⟩ := hopens _ hc
    have hpaths : ({ src with files := src.files ++ [tf], control := .discovering d } : Source).paths
        = src.paths ++ [tf.path] := by simp [Source.paths]
    refine ⟨?_, ?_, hd⟩
    · rw [hpaths]
      exact forall_mem_snoc.mpr ⟨h.files, hproper⟩
    · rw [hpaths]
      exact nodup_append.mpr ⟨h.nodup, nodup_singleton _, by
        intro a ha b hb heq
        rw [heq, mem_singleton.mp hb] at ha
        exact hnew ha⟩
  | rewind | fill | line | rest | keep => exact h.turn paths_put trivial
  | shut p =>
    have hsub : ((src.delete p).map (·.path)).Sublist src.paths := filter_sublist.map _
    refine ⟨fun q hq => h.files q (hsub.subset hq), h.nodup.sublist hsub, ?_⟩
    show OpensOnce cfg exclude _ (if _ then _ else _)
    split <;> trivial
  | _ => exact h.turn rfl trivial

end

/-- Where every glob is spelled as a cleaned path or never followed, the source reads
no excluded file and no file twice, in every run. -/
theorem excluded_unread {cfg : PipelineConfig φ ε} {specs : List FileSpec}
    (hspells : SpellsGlobs cfg.source.fs) (hspecs : cfg.source.specs = excluding exclude specs)
    (hclean : ∀ spec ∈ specs, ∀ g ∈ spec.globs, spelledClean cfg.source.allow g = true)
    (env : Env φ) (as : List (Label φ ε)) (s : System φ ε)
    (hrun : run (step cfg) (System.init env) as = some s) :
    ReadsOnce cfg.source.fs exclude s.src := by
  have hglobs : ∀ g ∈ cfg.source.globs, g.1.exclude = exclude ∧
      spelledClean cfg.source.allow g.2 = true := by
    intro g hg
    unfold SourceConfig.globs at hg
    rw [hspecs, excluding] at hg
    obtain ⟨spec', hspec', hg⟩ := mem_flatMap.mp hg
    obtain ⟨spec, hspec, rfl⟩ := mem_map.mp hspec'
    obtain ⟨g', hg', rfl⟩ := mem_map.mp hg
    exact ⟨rfl, hclean spec hspec g' hg'⟩
  have hnew : ∀ now, FollowsOnce cfg.source exclude (System.newSource now) := fun now =>
    ⟨(fun p hp => nomatch hp), nodup_nil, trivial⟩
  suffices hinv : FollowsOnce cfg.source exclude s.src from hinv.readsOnce
  refine run_inv (I := fun s : System φ ε => FollowsOnce cfg.source exclude s.src) ?_ as
    (System.init env) s (hnew env.now) hrun
  intro s a s' h hstep
  rcases step_src hstep with heq | ⟨pick, effect, hsrc⟩ | heq | ⟨now, heq⟩
  · rw [heq]
    exact h
  · exact followsOnce_source hspells (fun g hg => (hglobs g hg).2) (fun g hg => (hglobs g hg).1) h
      (sourceStep_move hsrc)
  · rw [heq]
    exact h.turn rfl trivial
  · rw [heq]
    exact hnew now

/-! ## A glob that is spelled in another way -/

/-- A file system without a name that a pattern with meta characters matches. -/
def Tree.bare : FileSystem Tree :=
  { Tree.fileSystem with
    glob := fun w g => if hasMeta g then [] else Tree.glob w g
    glob_stable := by
      intro w w' g p hp hex
      split at hp
      · cases hp
      · next hmeta =>
        rw [if_neg hmeta]
        exact Tree.fileSystem.glob_stable w w' g p hp hex }

theorem spellsGlobs_bare : SpellsGlobs Tree.bare := by
  intro w g p hp
  simp only [Tree.bare] at hp
  split at hp
  · cases hp
  · next hmeta =>
    rw [if_neg hmeta]
    exact Tree.eq_of_mem_glob hp

def barePipeline (specs : List FileSpec) (allow exclude : List Str) : PipelineConfig Tree Bytes :=
  { Tree.pipeline [] allow with
    source :=
      { fs := Tree.bare, specs := excluding exclude specs, allow, parse := fun _ _ line => line } }

theorem step_source {cfg : PipelineConfig φ ε} {s : System φ ε} {effect : Effect ε}
    (hup : s.up = true) (h : sourceStep cfg.source s.env s.pos [] s.src = some (src, effect))
    (hsend : ∀ e, effect ≠ .send e) :
    ∃ s', step cfg s (.source []) = some s' ∧ s'.src = src ∧ s'.env = s.env ∧ s'.up = true := by
  have happly : ∃ s', s.apply src effect = some s' := by
    cases effect with
    | send e => exact absurd rfl (hsend e)
    | _ => exact ⟨_, rfl⟩
  obtain ⟨s', hs'⟩ := happly
  have hf := apply_frame hs'
  refine ⟨s', ?_, hf.src, hf.env, hf.up.trans hup⟩
  simp only [step, hup, if_true, agentStep, h, Option.bind_some, hs']

section Reach
variable {cfg : PipelineConfig Tree Bytes} {s : System Tree Bytes} {g : Str} {d : Discovery}

/-- A match that `wanted` lets through is opened and followed. -/
theorem opened_match (hfs : cfg.source.fs = Tree.bare) (hup : s.up = true)
    (hw : s.env.world = [(g, .file 7)]) (hfiles : s.src.files = [])
    (hc : s.src.control = .discovering d) (hfound : d.found = [g]) (hseen : g ∉ d.seen)
    (hread : wanted cfg.source s.env.world g d.spec = .read) :
    ∃ as s', run (step cfg) s as = some s' ∧ ∃ tf ∈ s'.src.files, tf.path = g := by
  have hopen : ∀ d', openFile cfg.source s.env d' g =
      .opened d' g 7 (cfg.source.fs.real s.env.world g) := by
    intro d'
    simp [openFile, hfs, hw, Tree.bare, Tree.fileSystem, Tree.stat, Tree.resolve, maxLinks]
  -- `discover` comes to the match and opens it
  have hs1 : sourceStep cfg.source s.env s.pos [] s.src = some ({ s.src with
      control := .opening { d with found := [], seen := g :: d.seen } g }, .quiet) := by
    simp [sourceStep, hc, discover, hfound, hseen, Source.isFollowed, hfiles, hread, maxFiles]
  obtain ⟨s1, h1, hsrc1, henv1, hup1⟩ := step_source hup hs1 (by simp)
  have hs2 : sourceStep cfg.source s1.env s1.pos [] s1.src = some ({ s1.src with
      control := .opened { d with found := [], seen := g :: d.seen } g 7
        (cfg.source.fs.real s.env.world g) }, .quiet) := by
    simp [sourceStep, hsrc1, henv1, hopen]
  obtain ⟨s2, h2, hsrc2, henv2, hup2⟩ := step_source hup1 hs2 (by simp)
  -- `f.Stat`, `positions.File` and the switch of `open`
  have hs3 : sourceStep cfg.source s2.env s2.pos [] s2.src = some ({ s2.src with
      control := .sized { d with found := [], seen := g :: d.seen } g 7
        (cfg.source.fs.real s.env.world g) (s2.env.data 7).length }, .quiet) := by
    simp [sourceStep, hsrc2]
  obtain ⟨s3, h3, hsrc3, henv3, hup3⟩ := step_source hup2 hs3 (by simp)
  have hs4 : ∃ tf resumed, tf.path = g ∧ sourceStep cfg.source s3.env s3.pos [] s3.src =
      some ({ s3.src with
        control := .registering { d with found := [], seen := g :: d.seen } tf resumed }, .quiet) := by
    simp only [sourceStep, hsrc3, chooseOffset]
    exact ⟨_, _, rfl, rfl⟩
  obtain ⟨tf, resumed, hpath, hs4⟩ := hs4
  obtain ⟨s4, h4, hsrc4, henv4, hup4⟩ := step_source hup3 hs4 (by simp)
  -- `positions.SetFile`, and the file is followed
  have hs5 : sourceStep cfg.source s4.env s4.pos [] s4.src = some ({ s4.src with
      files := s4.src.files ++ [tf]
      control := .discovering { d with found := [], seen := g :: d.seen } },
      .setFile tf.path (tf.inode, tf.offset) resumed) := by
    simp [sourceStep, hsrc4]
  obtain ⟨s5, h5, hsrc5, -, -⟩ := step_source hup4 hs5 (by simp)
  refine ⟨replicate 5 (.source []), s5, ?_, tf, ?_, hpath⟩
  · simp only [replicate, run, h1, h2, h3, h4, h5]
  · rw [hsrc5]
    exact mem_append_right _ (mem_singleton_self tf)

/-- The discovery comes to a glob that finds a file, past those that find none. -/
theorem reaches_glob (hfs : cfg.source.fs = Tree.bare) (hmeta : hasMeta g = false)
    (hread : ∀ w spec, (spec, g) ∈ cfg.source.globs → w = [(g, .file 7)] →
      wanted cfg.source w g spec = .read) (todo : List (FileSpec × Str))
    (htodo : ∀ x ∈ todo, x ∈ cfg.source.globs) (hg : ∃ spec, (spec, g) ∈ todo)
    (s : System Tree Bytes) (spec0 : FileSpec) (hup : s.up = true)
    (hw : s.env.world = [(g, .file 7)]) (hfiles : s.src.files = [])
    (hc : s.src.control = .discovering ⟨[], spec0, [], todo⟩) :
    ∃ as s', run (step cfg) s as = some s' ∧ ∃ tf ∈ s'.src.files, tf.path = g := by
  induction todo generalizing s spec0 with
  | nil =>
    obtain ⟨spec, hspec⟩ := hg
    cases hspec
  | cons x todo ih =>
    obtain ⟨spec, g'⟩ := x
    have hs1 : sourceStep cfg.source s.env s.pos [] s.src = some ({ s.src with
        control := .discovering ⟨[], spec, cfg.source.fs.glob s.env.world g', todo⟩ }, .quiet) := by
      simp [sourceStep, hc, discover]
    obtain ⟨s1, h1, hsrc1, henv1, hup1⟩ := step_source hup hs1 nofun
    have hrest : (∃ as s', run (step cfg) s1 as = some s' ∧ ∃ tf ∈ s'.src.files, tf.path = g) →
        ∃ as s', run (step cfg) s as = some s' ∧ ∃ tf ∈ s'.src.files, tf.path = g := by
      rintro ⟨as, s', hrun, htf⟩
      exact ⟨.source [] :: as, s', run_cons.mpr ⟨s1, h1, hrun⟩, htf⟩
    apply hrest
    by_cases hgg : g' = g
    · subst hgg
      have hfound : cfg.source.fs.glob s.env.world g' = [g'] := by
        simp [hfs, hw, Tree.bare, hmeta, Tree.glob]
      refine opened_match (d := ⟨[], spec, [g'], todo⟩) hfs hup1 (henv1 ▸ hw) ?_ ?_ rfl
        not_mem_nil ?_
      · rw [hsrc1]
        exact hfiles
      · rw [hsrc1, hfound]
      · exact hread _ spec (htodo _ mem_cons_self) (henv1 ▸ hw)
    · have hfound : cfg.source.fs.glob s.env.world g' = [] := by
        simp [hfs, hw, Tree.bare, Tree.glob, lookup_cons, beq_eq_false_iff_ne.mpr hgg]
      refine ih (fun x hx => htodo x (mem_cons_of_mem _ hx)) ?_ s1 spec hup1 (henv1 ▸ hw) ?_ ?_
      · obtain ⟨spec', hspec'⟩ := hg
        rcases mem_cons.mp hspec' with heq | hmem
        · cases heq
          exact absurd rfl hgg
        · exact ⟨spec', hmem⟩
      · rw [hsrc1]
        exact hfiles
      · rw [hsrc1, hfound]

end Reach

/-- The source reads no excluded file and no file twice, whatever the exclude globs, the
file system and the run, exactly when each glob of the specs is spelled as a cleaned
path, has meta characters, or is never followed. -/
theorem excluded_unread_iff (specs : List FileSpec) (allow : List Str) :
    (∀ (φ ε : Type) (cfg : PipelineConfig φ ε) (exclude : List Str), SpellsGlobs cfg.source.fs →
      cfg.source.specs = excluding exclude specs → cfg.source.allow = allow →
      ∀ (env : Env φ) (as : List (Label φ ε)) (s : System φ ε),
        run (step cfg) (System.init env) as = some s → ReadsOnce cfg.source.fs exclude s.src) ↔
      ∀ spec ∈ specs, ∀ g ∈ spec.globs, spelledClean allow g = true := by
  constructor
  · intro h spec hspec g hg
    by_contra hsc
    simp only [spelledClean, Bool.or_eq_true, Bool.not_eq_true', beq_iff_eq, not_or,
      Bool.not_eq_true, Bool.not_eq_false] at hsc
    obtain ⟨⟨⟨hmeta, hclean⟩, hrot⟩, hallow⟩ := hsc
    -- the cleaned path is excluded, and the file is there under the other spelling
    have hspecs : ∀ x ∈ (barePipeline specs allow [clean g]).source.globs,
        x.1.exclude = [clean g] := by
      intro x hx
      obtain ⟨spec', hspec', hx⟩ := mem_flatMap.mp hx
      obtain ⟨spec'', -, rfl⟩ := mem_map.mp hspec'
      obtain ⟨g', -, rfl⟩ := mem_map.mp hx
      rfl
    have hread : ∀ w spec', (spec', g) ∈ (barePipeline specs allow [clean g]).source.globs →
        w = [(g, .file 7)] →
        wanted (barePipeline specs allow [clean g]).source w g spec' = .read := by
      intro w spec' hspec' hw
      refine wanted_eq_read.mpr ⟨hrot, ?_, ⟨7, ?_⟩, hallow⟩
      · rw [hspecs _ hspec']
        simpa [barePipeline, Tree.bare, Tree.fileSystem] using hclean
      · simp [hw, barePipeline, Tree.bare, Tree.fileSystem, Tree.stat, Tree.resolve, maxLinks]
    have hmem : ∃ spec', (spec', g) ∈ (barePipeline specs allow [clean g]).source.globs := by
      refine ⟨{ spec with exclude := [clean g] }, mem_flatMap.mpr
        ⟨{ spec with exclude := [clean g] }, ?_, ?_⟩⟩
      · exact mem_map_of_mem hspec
      · exact mem_map_of_mem hg
    obtain ⟨s1, hs1, hup, hw, hfiles, hc⟩ : ∃ s1 : System Tree Bytes,
        run (step (barePipeline specs allow [clean g]))
          (System.init ⟨0, [(g, .file 7)], fun _ => []⟩) [.restart, .source []] = some s1 ∧
        s1.up = true ∧ s1.env.world = [(g, .file 7)] ∧ s1.src.files = [] ∧
        s1.src.control = .discovering
          ⟨[], ⟨[], [], [], [], []⟩, [], (barePipeline specs allow [clean g]).source.globs⟩ :=
      ⟨_, rfl, rfl, rfl, rfl, rfl⟩
    obtain ⟨as, s, hrun, tf, htf, hpath⟩ := reaches_glob rfl hmeta hread _ (fun _ hx => hx) hmem s1
      _ hup hw hfiles hc
    have hall := h Tree Bytes _ [clean g] spellsGlobs_bare rfl rfl _ ([.restart, .source []] ++ as) s
      (by rw [run_append, hs1]; exact hrun)
    have hno := hall.included tf htf (clean g) (mem_singleton_self _)
    rw [hpath] at hno
    simp [barePipeline, Tree.bare, Tree.fileSystem] at hno
  · intro hclean φ ε cfg exclude hspells hspecs hallow env as s hrun
    refine excluded_unread hspells hspecs ?_ env as s hrun
    rw [hallow]
    exact hclean

/-- Two spellings of one path under `/var/log`. -/
def twoSpellings : List FileSpec :=
  [{ source := [], globs := ["/var/log/x.log".toList, "/var/log//x.log".toList], exclude := []
     parser := [], container := [] }]

def spelledTwice : Env Tree :=
  ⟨0, [("/var/log/x.log".toList, .file 7), ("/var/log//x.log".toList, .file 7)], fun _ => []⟩

/-- With the path excluded the file is read under its other spelling; without exclude
globs it is followed twice. -/
theorem excluded_read :
    (∃ s : System Tree Bytes,
      run (step (barePipeline twoSpellings defaultAllow ["/var/log/x.log".toList]))
        (System.init spelledTwice) (.restart :: List.replicate 10 (.source [])) = some s ∧
      ∃ tf ∈ s.src.files, Tree.bare.fileMatch "/var/log/x.log".toList (clean tf.path) = true) ∧
    ∃ s : System Tree Bytes,
      run (step (barePipeline twoSpellings defaultAllow []))
        (System.init spelledTwice) (.restart :: List.replicate 14 (.source [])) = some s ∧
      ∃ tf ∈ s.src.files, ∃ tf' ∈ s.src.files, clean tf.path = clean tf'.path ∧ tf ≠ tf' := by
  refine ⟨⟨_, rfl, _, .head _, ?_⟩, ⟨_, rfl, _, .head _, _, .tail _ (.head _), ?_, ?_⟩⟩
  · decide +kernel
  · decide +kernel
  · decide +kernel

end YominsAgent.Logs
