import YominsAgent.Logs.FileTree
import YominsAgent.Logs.Invariant

/- Where the file source may read.

   `wanted` checks the allow list against the path as it is spelled, and `open` follows links. So
   the source keeps inside the list as long as no path that its globs find, and that the list
   covers, leads out of it (`linksInside`): then `reads_allowed` holds in every run. A link out of
   `/var/log` is read (`link_read`). -/
namespace YominsAgent.Logs
open Go Lib List

variable {φ ε : Type}

/-- The followed file whose bytes the next step of the source reads. -/
def Source.readsNow (src : Source) : Option TailedFile :=
  match src.control with
  | .filling p _ => src.file? p
  | _ => none

/-- Every path that a glob finds and the allow list covers leads to a path that the
list covers. -/
def linksInside (cfg : SourceConfig φ ε) (w : φ) : Bool :=
  cfg.globs.all fun g => (cfg.fs.glob w g.2).all fun p =>
    !((cfg.fs.stat w p).isSome && allowed p cfg.allow) || allowed (cfg.fs.real w p) cfg.allow

/-- The file systems of the run keep their links inside. -/
def staysInside (cfg : PipelineConfig φ ε) (_ : System φ ε) : Label φ ε → Bool
  | .world w => linksInside cfg.source w
  | _ => true

/-- The matches and the globs of a discovery come from the specs. -/
def Discovery.FromSpecs (cfg : SourceConfig φ ε) (d : Discovery) : Prop :=
  (∀ p ∈ d.found, Globbed cfg p) ∧ ∀ g ∈ d.todo, g ∈ cfg.globs

/-- The file that is being opened lies inside the allow list. -/
def OpensInside (cfg : SourceConfig φ ε) : SourceControl → Prop
  | .discovering d => d.FromSpecs cfg
  | .opening d p => d.FromSpecs cfg ∧ Globbed cfg p ∧ allowed p cfg.allow = true
  | .opened d _ _ real => d.FromSpecs cfg ∧ allowed real cfg.allow = true
  | .sized d _ _ real _ => d.FromSpecs cfg ∧ allowed real cfg.allow = true
  | .registering d tf _ => d.FromSpecs cfg ∧ allowed tf.real cfg.allow = true
  | _ => True

/-- Every file the source follows, or is opening, lies inside the allow list. -/
structure Confined (cfg : SourceConfig φ ε) (src : Source) : Prop where
  files : ∀ tf ∈ src.files, allowed tf.real cfg.allow = true
  opens : OpensInside cfg src.control

variable {cfg : SourceConfig φ ε} {src src' : Source} {env : Env φ}

theorem linksInside_real {w : φ} (hw : linksInside cfg w = true) {p : Str}
    (hglob : Globbed cfg p) (hex : cfg.fs.stat w p ≠ none) (ha : allowed p cfg.allow = true) :
    allowed (cfg.fs.real w p) cfg.allow = true := by
  obtain ⟨g, hg, w', hp⟩ := hglob
  have hnow : p ∈ cfg.fs.glob w g.2 := cfg.fs.glob_stable _ _ _ _ hp hex
  have hall := all_eq_true.mp (all_eq_true.mp hw g hg) p hnow
  have hsome : (cfg.fs.stat w p).isSome = true := Option.isSome_iff_ne_none.mpr hex
  simpa [hsome, ha] using hall

theorem Confined.turn (h : Confined cfg src) {lastFound : Option Int} {control : SourceControl}
    (hc : OpensInside cfg control) : Confined cfg { src with lastFound, control } :=
  ⟨h.files, hc⟩

theorem Confined.markGone (h : Confined cfg src) (f : TailedFile → Bool) :
    ∀ tf ∈ src.markGone f, allowed tf.real cfg.allow = true := by
  intro x hx
  obtain ⟨tf, htf, rfl⟩ := mem_map.mp hx
  split <;> exact h.files tf htf

theorem Confined.put (h : Confined cfg src) {p : Str} {tf tf' : TailedFile}
    (hp : src.file? p = some tf) (hreal : tf'.real = tf.real) :
    ∀ x ∈ src.put tf', allowed x.real cfg.allow = true := by
  intro x hx
  obtain ⟨y, hy, rfl⟩ := mem_map.mp hx
  split
  · rw [hreal]
    exact h.files tf (findFile_mem hp)
  · exact h.files y hy

theorem confined_source {pos : Positions} {effect : Effect ε}
    (hw : linksInside cfg env.world = true) (h : Confined cfg src)
    (hm : SourceMove cfg env pos src src' effect) : Confined cfg src' := by
  have hopens : ∀ c, src.control = c → OpensInside cfg c := fun c hc => hc ▸ h.opens
  cases hm with
  | search => exact h.turn ⟨(fun p hp => nomatch hp), fun g hg => hg⟩
  | pass d p found seen hc hfound =>
    obtain ⟨hd, htodo⟩ : d.FromSpecs cfg := hopens _ hc
    exact h.turn ⟨fun q hq => hd q (hfound ▸ mem_cons_of_mem p hq), htodo⟩
  | candidate d p found hc hfound hnew hwanted =>
    obtain ⟨hd, htodo⟩ : d.FromSpecs cfg := hopens _ hc
    exact h.turn ⟨⟨fun q hq => hd q (hfound ▸ mem_cons_of_mem p hq), htodo⟩,
      hd p (hfound ▸ mem_cons_self), (wanted_eq_read.mp hwanted).2.2.2⟩
  | nextGlob d spec g todo hc hfound htodo =>
    obtain ⟨-, hglobs⟩ : d.FromSpecs cfg := hopens _ hc
    refine h.turn ⟨?_, fun g' hg' => hglobs g' (htodo ▸ mem_cons_of_mem _ hg')⟩
    exact fun q hq => ⟨(spec, g), hglobs _ (htodo ▸ mem_cons_self), env.world, hq⟩
  | notOpened d p hc => exact h.turn (hopens _ hc).1
  | opened d p i hc hstat =>
    -- the path leads where it does now, not where it did when it was checked
    obtain ⟨hd, hglob, ha⟩ := hopens _ hc
    refine h.turn ⟨hd, linksInside_real hw hglob ?_ ha⟩
    intro hnone
    rw [hnone] at hstat
    cases hstat
  | sized _ _ _ _ hc | choose _ _ _ _ _ hc =>
    have hd := hopens _ hc
    exact h.turn hd
  | register d tf resumed hc =>
    obtain ⟨hd, hreal⟩ := hopens _ hc
    exact ⟨forall_mem_snoc.mpr ⟨h.files, hreal⟩, hd⟩
  | rewind p todo tf hc hp =>
    refine ⟨h.put hp ?_, trivial⟩
    unfold rewind
    split <;> rfl
  | endSearch | check => exact ⟨h.markGone _, trivial⟩
  | fill _ _ _ _ _ _ hp | line _ _ _ _ _ _ _ _ hp | rest _ _ _ _ _ _ _ hp
  | keep _ _ _ _ _ _ _ _ hp => exact ⟨h.put hp rfl, trivial⟩
  | shut =>
    refine ⟨fun x hx => h.files x (mem_filter.mp hx).1, ?_⟩
    split <;> trivial
  | _ => exact h.turn trivial

/-- In every run whose file systems keep their links inside the allow list, every
file the source reads lies inside it, all links followed. -/
theorem reads_allowed (cfg : PipelineConfig φ ε) (env : Env φ)
    (hinit : linksInside cfg.source env.world = true) (as : List (Label φ ε)) (s : System φ ε)
    (hrun : run (guarded (staysInside cfg) (step cfg)) (System.init env) as = some s)
    (tf : TailedFile) (hreads : s.src.readsNow = some tf) :
    allowed tf.real cfg.source.allow = true := by
  have hnew : ∀ now, Confined cfg.source (System.newSource now) := fun now =>
    ⟨(fun x hx => nomatch hx), trivial⟩
  have hinv := run_guarded_inv (I := fun s : System φ ε =>
    linksInside cfg.source s.env.world = true ∧ Confined cfg.source s.src) ?_ as
    (System.init env) s ⟨hinit, hnew env.now⟩ hrun
  · unfold Source.readsNow at hreads
    split at hreads
    · exact hinv.2.files tf (findFile_mem hreads)
    · cases hreads
  · rintro s a s' ⟨hw, hs⟩ hg hstep
    refine ⟨?_, ?_⟩
    · rcases step_world hstep with heq | ⟨w, rfl, heq⟩
      · rw [heq]
        exact hw
      · rw [heq]
        exact hg
    · rcases step_src hstep with heq | ⟨pick, effect, hsrc⟩ | heq | ⟨now, heq⟩
      · rw [heq]
        exact hs
      · exact confined_source hw hs (sourceStep_move hsrc)
      · rw [heq]
        exact hs.turn trivial
      · rw [heq]
        exact hnew now

/-- Log files inside the allow list. -/
def xLog : Str := "/var/log/x.log".toList

def yLog : Str := "/var/log/y.log".toList

def shadow : Str := "/etc/shadow".toList

/-- A link that stays inside the list. -/
def linkInside : Env Tree := ⟨0, [(xLog, .link yLog), (yLog, .file 7)], fun _ => []⟩

/-- The source reads the file behind the link. -/
theorem reads_allowed_file : ∃ (s : System Tree Bytes) (tf : TailedFile),
    run (guarded (staysInside (Tree.pipeline xLog defaultAllow))
      (step (Tree.pipeline xLog defaultAllow))) (System.init linkInside)
      (.restart :: List.replicate 11 (.source xLog)) = some s ∧
    s.src.readsNow = some tf ∧ tf.real = yLog ∧ allowed tf.real defaultAllow = true :=
  ⟨_, _, rfl, rfl, rfl, reads_allowed (Tree.pipeline xLog defaultAllow) linkInside
    (by decide +kernel) (.restart :: replicate 11 (.source xLog)) _ rfl _ rfl⟩

/-- A link in `/var/log` to a file outside the default allow list: the source reads
what is written to that file. -/
theorem link_read : ∃ (s : System Tree Bytes) (tf : TailedFile),
    run (step (Tree.pipeline xLog defaultAllow))
      (System.init ⟨0, [(xLog, .link shadow), (shadow, .file 3)], fun _ => []⟩)
      (.restart :: .append 3 [120, 10] :: List.replicate 11 (.source xLog) ++
        [.append 3 [121, 10]]) = some s ∧
    s.src.readsNow = some tf ∧ fill (s.env.data tf.inode) tf = [121, 10] ∧
    tf.real = shadow ∧ allowed tf.real defaultAllow = false := by
  refine ⟨_, _, rfl, rfl, rfl, rfl, ?_⟩
  decide +kernel

end YominsAgent.Logs
