import YominsAgent.Logs.Redelivery

/- A file is rotated while its writer goes on.

   A writer keeps its descriptor across a rename, so the old inode grows until the writer reopens
   the path. The source reads the old inode to its end once it has noticed the rotation, closes it
   at the first short read, and opens the new file in the next discovery. What is written to the old
   inode before that last `read`, and what is written to the new one, is emitted (`late_writes`);
   what is written to the old inode afterwards is not (`late_write_lost`). -/
namespace YominsAgent.Logs
open Go Lib Relation List Option Bool

variable {φ ε : Type} {cfg : PipelineConfig φ ε} {U : List Str} {p : Str} {i : Inode}
  {s s' : System φ ε} {src : Source} {a : Label φ ε}

/-! ## The condition -/

/-- The file is marked gone, and the `read` under way has come to its end: the file is
closed without another look at it. -/
def lastRead : SourceControl → TailedFile → Bool
  | .emitting q _ _ n _, tf => tf.gone && q == tf.path && decide (n < readChunk)
  | .closing q n _, tf => tf.gone && q == tf.path && decide (n < readChunk)
  | _, _ => false

namespace System

def touched (s : System φ ε) (p : Str) : Bool := s.mine.any (·.1 == p)

/-- The process is at most two seconds old: a path it has no position of is taken for
one that was there before. -/
def young (s : System φ ε) : Bool := s.up && decide (s.env.now - s.src.started ≤ 2 * interval)

end System

/-- One run of the agent in which a file of the path is written to only as long as it
has yet to be read for the last time, a new file at the path stays until it is opened,
and the path does not vanish while the process is young. -/
def rotates (cfg : PipelineConfig φ ε) (p : Str) (s : System φ ε) : Label φ ε → Bool
  | .append i _ =>
    !s.mine.contains (p, i) ||
      (s.src.file? p).any fun tf => tf.inode == i && !lastRead s.src.control tf
  | .world w =>
    !decide (Leads cfg.source.fs w p 0) &&
    (!s.young || (cfg.source.fs.stat s.env.world p).isNone || (cfg.source.fs.stat w p).isSome) &&
    (!s.touched p || (cfg.source.fs.stat s.env.world p).all fun x =>
      s.mine.contains (p, x.1) || !stands cfg.source.fs s.env.world p x.1 ||
        stands cfg.source.fs w p x.1)
  | .crash => false
  | _ => true

/-! ## What is known of a path -/

def OpeningOn (p : Str) (i : Inode) : SourceControl → Prop
  | .opened _ q j _ => q = p ∧ j = i
  | .sized _ q j _ _ => q = p ∧ j = i
  | .registering _ tf _ => tf.path = p ∧ tf.inode = i
  | _ => False

/-- The byte was sent, or passed over. -/
def System.Out (s : System φ ε) (p : Str) (i : Inode) (b : Nat) : Prop :=
  ∃ x, (x ∈ s.sent ∨ x ∈ s.skipped) ∧ x.2.Has p i b

/-- Where a path stands that one process follows across rotations. -/
structure Rotating (cfg : SourceConfig φ ε) (p : Str) (s : System φ ε) : Prop where
  down : s.up = false → s.mine = []
  numbered : ¬ Leads cfg.fs s.env.world p 0
  opening : ∀ i, OpeningOn p i s.src.control → i ≠ 0
  /-- A young process has a position of every path it has followed. -/
  there : s.young = true → s.touched p = true ∨ (∃ i, OpeningOn p i s.src.control) →
    cfg.fs.stat s.env.world p ≠ none
  known : s.young = true → s.touched p = true → (s.pos.files p).isSome = true
  forgetting : ∀ todo, s.src.control = .forgetting p todo → s.young = false
  /-- A successor is read from its start. -/
  begins : ∀ d tf resumed, s.src.control = .registering d tf resumed → tf.path = p →
    s.touched p = true → resumed = false ∧ tf.offset = 0
  reading : ∀ tf, s.src.file? p = some tf → tf.gone = true → tf.inode ∉ s.truncated →
    ReadOut s.src.control tf (s.env.data tf.inode).length
  closed : s.ship.cancelled = false → ∀ i, (p, i) ∈ s.mine → i ∉ s.truncated →
    (∀ tf, s.src.file? p = some tf → tf.inode ≠ i) →
    ∀ b, s.start p i ≤ b → b < (s.env.data i).length → s.Out p i b

theorem touched_iff : s.touched p = true ↔ ∃ i, (p, i) ∈ s.mine := by
  simp only [System.touched, List.any_eq_true, beq_iff_eq]
  constructor
  · rintro ⟨⟨q, i⟩, hx, rfl⟩
    exact ⟨i, hx⟩
  · rintro ⟨i, hx⟩
    exact ⟨(p, i), hx, rfl⟩

theorem young_iff : s.young = true ↔ s.up = true ∧ s.env.now - s.src.started ≤ 2 * interval := by
  simp [System.young]

/-! ## The steps of the source -/

section Source
variable {c : SourceConfig φ ε} {env : Env φ} {pos : Positions} {src' : Source} {effect : Effect ε}

theorem SourceMove.started (hm : SourceMove c env pos src src' effect) :
    src'.started = src.started := by
  cases hm <;> rfl

theorem SourceMove.openingOn (hm : SourceMove c env pos src src' effect)
    (h : OpeningOn p i src'.control) :
    OpeningOn p i src.control ∨ Leads c.fs env.world p i := by
  cases hm with
  | opened d q j hc hstat =>
    obtain ⟨rfl, rfl⟩ := h
    exact .inr hstat
  | sized _ _ _ _ hc | choose _ _ _ _ _ hc =>
    rw [hc]
    exact .inl h
  | shut =>
    simp only at h
    split at h <;> exact h.elim
  | _ => exact h.elim

end Source

variable {c : SourceConfig φ ε} {effect : Effect ε} {tf : TailedFile} {b lo : Nat}
  {as : List (Label φ ε)}

theorem System.Handled.out (hH : History s) (h : s.Handled p i b) : s.Out p i b := by
  rcases h with ⟨x, hx, hb⟩ | ⟨sp, hsp, hb⟩
  · exact ⟨x, hx.imp_left (hH.acked x), hb⟩
  · exact ⟨_, .inl hsp, hb⟩

theorem Grown.out (hg : Grown s s') (h : s.Out p i b) : s'.Out p i b := by
  obtain ⟨x, hx, hb⟩ := h
  exact ⟨x, hx.imp (hg.sent x) (hg.skipped x), hb⟩

/-- The successor of a followed file does not resume, and begins at its start. -/
theorem Rotating.choose (hI : Inv c s) (h : Rotating c p s) (hup : s.up = true) {d : Discovery}
    {j : Inode} {real : Str} {size : Nat} (hc : s.src.control = .sized d p j real size)
    (ht : s.touched p = true) :
    (firstOffset (s.pos.files p) j size s.src.started s.env.now).2 = false ∧
      (firstOffset (s.pos.files p) j size s.src.started s.env.now).1 = 0 := by
  have hctl := hI.controlOk hc
  cases hpos : s.pos.files p with
  | none =>
    unfold firstOffset
    simp only
    split
    · exact ⟨rfl, rfl⟩
    · next hage =>
      have hyoung : s.young = true := young_iff.mpr ⟨hup, by omega⟩
      have hsome := h.known hyoung ht
      rw [hpos] at hsome
      cases hsome
  | some pos =>
    obtain ⟨k, o⟩ := pos
    unfold firstOffset
    simp only
    split
    · next hres =>
      -- the position would be about a file of an earlier process
      obtain ⟨rfl, -⟩ := hres
      have hclaim : s.cursors.Claims p k o :=
        .inl ⟨_, Cursors.pos_mem_tables, hpos⟩
      obtain ⟨i, hi⟩ := touched_iff.mp ht
      exact absurd hi (hctl.1.untouched (hI.claimed p k o hclaim).1 i)
    · exact ⟨rfl, rfl⟩

section
variable (hI : Inv cfg.source s) (h : Rotating cfg.source p s)
  (hm : SourceMove cfg.source s.env s.pos s.src src effect) (happly : s.apply src effect = some s')

include hm happly in
theorem young_source : s'.young = s.young := by
  have hf := apply_frame happly
  unfold System.young
  rw [hf.up, hf.env, hf.src, hm.started]

/-- A path becomes followed when it is registered. -/
theorem Mined.touched (hmined : Mined s s') (ht : s'.touched p = true) :
    s.touched p = true ∨ ∃ i, OpeningOn p i s.src.control := by
  obtain ⟨i, hi⟩ := touched_iff.mp ht
  cases hmined with
  | same s' hmine => exact .inl (touched_iff.mpr ⟨i, hmine ▸ hi⟩)
  | register d tf resumed hc =>
    rcases mem_cons.mp hi with heq | hi
    · cases heq
      exact .inr ⟨tf.inode, by rw [hc]; exact ⟨rfl, rfl⟩⟩
    · exact .inl (touched_iff.mpr ⟨i, hi⟩)

include h

theorem Rotating.known_source (hmined : Mined s s') (hy : s.young = true)
    (ht : s'.touched p = true) : (s'.pos.files p).isSome = true := by
  have hold := hmined.touched ht
  cases hmined with
  | same s' hmine hopens hstart hpos =>
    rw [hpos p fun todo hc => ?_]
    · refine h.known hy (touched_iff.mpr ?_)
      rw [← hmine]
      exact touched_iff.mp ht
    · rw [h.forgetting todo hc] at hy
      cases hy
  | register d tf resumed hc =>
    by_cases hp : p = tf.path
    · subst hp
      refine Positions.setFile_isSome fun heq => ?_
      exact h.opening tf.inode (by rw [hc]; exact ⟨rfl, rfl⟩) (congrArg Prod.fst heq)
    · show ((s.pos.setFile tf.path (tf.inode, tf.offset)).files p).isSome = true
      rw [Positions.setFile_other hp]
      refine h.known hy (hold.resolve_right ?_)
      rintro ⟨i, hi⟩
      rw [hc] at hi
      exact hp hi.1.symm

include hI hm

theorem Rotating.forgetting_source {todo : List Str} (hc : src.control = .forgetting p todo) :
    s.young = false := by
  cases hm with
  | shut q n todo' tf hc' hp =>
    simp only at hc
    split at hc
    · cases hc
    · next hnone =>
      cases hc
      by_contra hy
      refine h.there (by simpa using hy) (.inl (touched_iff.mpr ⟨_, (hI.followed p tf hp).1⟩)) ?_
      simpa using hnone
  | _ => cases hc

include happly

theorem Rotating.begins_source (hup : s.up = true) {d : Discovery} {tf : TailedFile} {resumed : Bool}
    (hc : src.control = .registering d tf resumed) (hpath : tf.path = p)
    (ht : s'.touched p = true) : resumed = false ∧ tf.offset = 0 := by
  cases hm with
  | choose d' q j real size hc' =>
    cases hc
    cases happly
    obtain rfl : q = p := hpath
    exact h.choose hI hup hc' ht
  | shut =>
    simp only at hc
    split at hc <;> cases hc
  | _ => cases hc

theorem Rotating.source (hS : s.cursors.Sound) (hH : History s) (hup : s.up = true) :
    Rotating cfg.source p s' := by
  have hf := apply_frame happly
  have hg := grown_source hI hup hm happly
  have hmined := mined_source hm happly
  have hyoung := young_source hm happly
  refine ⟨?_, ?_, ?_, ?_, ?_, ?_, ?_, ?_, ?_⟩
  · rw [hf.up, hup]
    exact nofun
  · rw [hf.env]
    exact h.numbered
  · rw [hf.src]
    intro i hi
    rcases hm.openingOn hi with hold | hleads
    · exact h.opening i hold
    · rintro rfl
      exact h.numbered hleads
  · rw [hyoung, hf.src, hf.env]
    intro hy hor
    rcases hor with ht | ⟨i, hi⟩
    · exact h.there hy (hmined.touched ht)
    · rcases hm.openingOn hi with hold | hleads
      · exact h.there hy (.inr ⟨i, hold⟩)
      · exact hleads.exists
  · rw [hyoung]
    exact h.known_source hmined
  · rw [hf.src, hyoung]
    exact fun todo => h.forgetting_source hI hm
  · rw [hf.src]
    exact fun d tf resumed => h.begins_source hI hm happly hup
  · rw [hf.src, hf.env, hf.truncated]
    intro tf hp hgone hi
    refine readOut_move hI hm hp hi (le_refl _) fun x hx hinode hsame => ?_
    rw [← hinode] at hi ⊢
    exact h.reading x hx (hsame.trans hgone) hi
  · rw [hf.src, hf.env, hf.truncated, hf.ship]
    intro hgo i hmine hi hnot b hlo hhi
    obtain ⟨hmine, hstart, hold | ⟨tf, hp, rfl, hgone, hend⟩⟩ := closed_source hI hm happly hmine hnot
    · exact hg.out (h.closed hgo i hmine hi hold b (hstart ▸ hlo) hhi)
    · -- it is shut, and its last `read` has come to its end
      have hle := hend _ (h.reading tf hp hgone hi)
      exact hg.out ((handled_of_reader hS hH hgo hp hi (hstart ▸ hlo) (by omega)).out hH)

end

/-! ## Every step -/

/-- A position is lost by `Forget` or with the process. -/
theorem agentStep_pos (h : agentStep cfg s a = some s')
    (hforget : ∀ todo, s.src.control ≠ .forgetting p todo) (hcrash : a ≠ .crash)
    (hpos : (s.pos.files p).isSome = true) : (s'.pos.files p).isSome = true := by
  cases agentStep_move h with
  | source pick src effect s' hsrc happly =>
    cases mined_source (sourceStep_move hsrc) happly with
    | same s' _ _ _ hsame => rwa [hsame p hforget]
    | register d tf resumed hc => exact Positions.setFile_mono hpos
  | crash => exact absurd rfl hcrash
  | recv _ _ _ _ h | ship _ _ _ h =>
    obtain ⟨-, ship, -, rfl⟩ := shipperStep_eq_some h
    exact hpos
  | ack e =>
    unfold System.runAck
    cases e.ack with
    | file sp => exact Positions.setFile_mono hpos
    | journal cursor =>
      show ((s.pos.setJournalCursor cursor).files p).isSome = true
      rwa [Positions.setJournalCursor_files]
  | save =>
    show ((s.pos.beginSave cfg.stateDir).2.files p).isSome = true
    rwa [Positions.beginSave_files]
  | _ => exact hpos

/-- A file that has yet to be read for the last time was not read to its end. -/
theorem readOut_of_not_last {control : SourceControl} {len : Nat} (hgone : tf.gone = true)
    (h : lastRead control tf = false) : ReadOut control tf len := by
  cases control with
  | emitting | closing =>
    rintro rfl hn
    simp [lastRead, hgone, hn] at h
  | _ => trivial

/-- The surroundings change: time passes, the path leads elsewhere, or a file that has
yet to be read for the last time grows. -/
theorem Rotating.around (hI : Inv c s) (h : Rotating c p s) {env : Env φ} {truncated : List Inode}
    (htime : s.env.now ≤ env.now) (hnumbered : ¬ Leads c.fs env.world p 0)
    (hthere : s.young = true → c.fs.stat s.env.world p ≠ none → c.fs.stat env.world p ≠ none)
    (htr : ∀ j ∈ s.truncated, j ∈ truncated)
    (hdata : ∀ j, j ∉ truncated → (p, j) ∈ s.mine → env.data j = s.env.data j ∨
      ∃ tf, s.src.file? p = some tf ∧ tf.inode = j ∧ lastRead s.src.control tf = false) :
    Rotating c p { s with env, truncated } := by
  have hyoung : ({ s with env, truncated } : System φ ε).young = true → s.young = true := by
    intro hy
    obtain ⟨hup, hage⟩ := young_iff.mp hy
    replace hage : env.now - s.src.started ≤ 2 * interval := hage
    exact young_iff.mpr ⟨hup, by omega⟩
  refine ⟨h.down, hnumbered, h.opening, ?_, fun hy => h.known (hyoung hy), ?_, h.begins,
    ?_, ?_⟩
  · exact fun hy hor => hthere (hyoung hy) (h.there (hyoung hy) hor)
  · intro todo hc
    have hold := h.forgetting todo hc
    by_contra hy
    rw [hyoung (by simpa using hy)] at hold
    cases hold
  · intro tf hp hgone hi
    rcases hdata tf.inode hi (hI.followed p tf hp).1 with heq | ⟨x, hx, -, hlast⟩
    · show ReadOut s.src.control tf (env.data tf.inode).length
      rw [heq]
      exact h.reading tf hp hgone fun hm => hi (htr _ hm)
    · cases hp.symm.trans hx
      exact readOut_of_not_last hgone hlast
  · intro hgo i hmine hi hnot b hlo hhi
    rcases hdata i hi hmine with heq | ⟨tf, hp, hinode, -⟩
    · replace hhi : b < (env.data i).length := hhi
      rw [heq] at hhi
      exact h.closed hgo i hmine (fun hm => hi (htr i hm)) hnot b hlo hhi
    · exact absurd hinode (hnot tf hp)

section
variable (hI : Inv cfg.source s) (hS : s.cursors.Sound) (hH : History s)
  (h : Rotating cfg.source p s)
include hI hS hH h

/-- The surroundings stay: the source acts, or the rest of the agent does, or it starts. -/
theorem Rotating.change (henv : s'.env = s.env) (hcrash : a ≠ .crash)
    (htr : ∀ i bs, a ≠ .truncate i bs)
    (hpos : s.up = true → (∀ todo, s.src.control ≠ .forgetting p todo) → (s.pos.files p).isSome = true → (s'.pos.files p).isSome = true)
    (hs : Change cfg s a s') : Rotating cfg.source p s' := by
  cases hs with
  | source pick src effect s' hup hm happly => exact h.source hI hm happly hS hH hup
  | agent a pos snap saved control chan ship ran acked hup hc hran hcan =>
    have hgo : ship.cancelled = false → s.ship.cancelled = false := by
      intro hno
      rcases hcan with heq | ⟨-, hyes⟩
      · exact heq ▸ hno
      · rw [hyes] at hno
        cases hno
    have hknown : s.young = true → s.touched p = true → (pos.files p).isSome = true := by
      intro hy ht
      refine hpos hup (fun todo hfor => ?_) (h.known hy ht)
      rw [h.forgetting todo hfor] at hy
      cases hy
    rcases hc with rfl | ⟨rfl, -⟩
    · exact ⟨h.down, h.numbered, h.opening, h.there, hknown, h.forgetting, h.begins,
        h.reading, fun hno => h.closed (hgo hno)⟩
    · refine ⟨h.down, h.numbered, ?_, ?_, hknown, nofun, nofun, fun _ _ _ _ => trivial,
        fun hno => h.closed (hgo hno)⟩
      · exact fun _ hop => hop.elim
      · exact fun hy hor => h.there hy (.inl (hor.resolve_right fun ⟨_, hop⟩ => hop))
  | around a env truncated hback htr' =>
    obtain rfl : env = s.env := henv
    rcases htr' with rfl | ⟨i, bs, -, rfl⟩
    · exact h
    · exact absurd rfl (htr i bs)
  | crash => exact absurd rfl hcrash
  | restart hup =>
    refine ⟨nofun, h.numbered, ?_, ?_, ?_, nofun, nofun, nofun, ?_⟩
    · exact fun _ hop => hop.elim
    · rintro - (ht | ⟨i, hop⟩)
      · cases ht
      · exact hop.elim
    · exact fun _ ht => nomatch ht
    · exact fun _ i hmine => nomatch hmine

theorem Rotating.step (hassumed : assumed cfg s a = true) (hrot : rotates cfg p s a = true)
    (hs : step cfg s a = some s') :
    Rotating cfg.source p s' := by
  have hchange := step_change hI.ran hassumed hs
  have hagent : (∀ i bs, a ≠ .truncate i bs) → a ≠ .crash → agentStep cfg s a = some s' →
      Rotating cfg.source p s' := fun htr hcrash hstep =>
    h.change hI hS hH (agentStep_env hstep).1 hcrash htr
      (fun _ hforget hpos => agentStep_pos hstep hforget hcrash hpos) hchange
  have hthere : s.young = true → cfg.source.fs.stat s.env.world p ≠ none →
      cfg.source.fs.stat s.env.world p ≠ none := fun _ hst => hst
  cases a with
  | tick d =>
    cases hs
    have htime : s.env.now ≤ s.env.now + d := by omega
    exact h.around hI htime h.numbered hthere (fun _ hj => hj) fun _ _ _ => .inl rfl
  | world =>
    cases hs
    simp only [rotates, Bool.and_eq_true, Bool.or_eq_true, Bool.not_eq_true', decide_eq_false_iff_not,
      Option.isNone_iff_eq_none] at hrot
    obtain ⟨⟨hnumbered, hvanish⟩, -⟩ := hrot
    refine h.around hI (le_refl _) hnumbered (fun hy hst => ?_) (fun _ hj => hj)
      fun _ _ _ => .inl rfl
    rcases hvanish with (hno | hnone) | hsome
    · rw [hno] at hy
      cases hy
    · exact absurd hnone hst
    · exact Option.isSome_iff_ne_none.mp hsome
  | append i =>
    cases hs
    refine h.around hI (le_refl _) h.numbered hthere (fun _ hj => hj) fun j _ hmine => ?_
    by_cases hj : j = i
    · subst hj
      right
      simp only [rotates, Bool.or_eq_true, Bool.not_eq_true', List.contains_eq_mem,
        decide_eq_false_iff_not, Option.any_eq_true, Bool.and_eq_true, beq_iff_eq] at hrot
      obtain ⟨tf, hp, hinode, hlast⟩ := hrot.resolve_left fun hno => hno hmine
      exact ⟨tf, hp, hinode, hlast⟩
    · exact .inl (if_neg hj)
  | truncate i =>
    cases hs
    refine h.around hI (le_refl _) h.numbered hthere (fun _ hj => List.mem_cons_of_mem i hj) ?_
    intro j hj _
    refine .inl (if_neg ?_)
    rintro rfl
    exact hj List.mem_cons_self
  | crash => cases hrot
  | restart =>
    refine h.change (a := .restart) hI hS hH ?_ (by simp) (by simp) (fun hup => ?_) hchange
    · simp only [Logs.step] at hs
      split at hs
      · cases hs
      · cases hs
        rfl
    · simp only [Logs.step, hup, if_true] at hs
      cases hs
  | _ =>
    obtain ⟨-, hs⟩ := ite_none_right_eq_some.mp hs
    exact hagent (by simp) (by simp) hs

end

/-! ## The files of the path -/

/-- A file of the path, of which everything from the byte `lo` on is to be emitted: it
was opened there, or the path leads to it and it is the next to be opened. -/
inductive Watched (cfg : SourceConfig φ ε) (p : Str) (i : Inode) (lo : Nat) (s : System φ ε) :
    Prop where
  | opened (hmine : (p, i) ∈ s.mine) (hstart : s.start p i = lo)
  | next (hlo : lo = 0) (hmine : (p, i) ∉ s.mine) (htouched : s.touched p = true)
      (hstands : stands cfg.fs s.env.world p i = true)

theorem Watched.source (hI : Inv c s) (hR : Rotating c p s) (h : Watched c p i lo s)
    (hm : SourceMove c s.env s.pos s.src src effect) (happly : s.apply src effect = some s') :
    Watched c p i lo s' := by
  have hf := apply_frame happly
  cases mined_source hm happly with
  | same s' hmine _ hstart =>
    cases h with
    | opened hopen hlo => exact .opened (hmine ▸ hopen) (by rw [hstart, hlo])
    | next hlo hnot ht hst =>
      refine .next hlo (hmine ▸ hnot) (touched_iff.mpr (hmine ▸ touched_iff.mp ht)) ?_
      rw [hf.env]
      exact hst
  | register d tf resumed hc =>
    have hctl := hI.controlOk hc
    by_cases heq : p = tf.path ∧ i = tf.inode
    · obtain ⟨rfl, rfl⟩ := heq
      cases h with
      | opened hopen => exact absurd hopen hctl.1.notMine
      | next hlo _ ht =>
        obtain ⟨rfl, hzero⟩ := hR.begins d tf resumed hc rfl ht
        refine .opened mem_cons_self ?_
        simp [Cursors.set₂, hzero, hlo]
    · cases h with
      | opened hopen hlo =>
        refine .opened (mem_cons_of_mem _ hopen) ?_
        rw [← hlo]
        show (if resumed then s.start else _) p i = _
        split
        · rfl
        · exact if_neg heq
      | next hlo hnot ht hst =>
        obtain ⟨j, hj⟩ := touched_iff.mp ht
        refine .next hlo ?_ (touched_iff.mpr ⟨j, mem_cons_of_mem _ hj⟩) hst
        intro hmem
        rcases mem_cons.mp hmem with hnew | hmem
        · exact heq ⟨congrArg Prod.fst hnew, congrArg Prod.snd hnew⟩
        · exact hnot hmem

theorem Watched.step (hI : Inv cfg.source s) (hR : Rotating cfg.source p s)
    (h : Watched cfg.source p i lo s) (hrot : rotates cfg p s a = true) (hs : Change cfg s a s') :
    Watched cfg.source p i lo s' := by
  cases hs with
  | source pick src effect s' hup hm happly => exact h.source hI hR hm happly
  | agent =>
    cases h with
    | opened hopen hlo => exact .opened hopen hlo
    | next hlo hnot ht hst => exact .next hlo hnot ht hst
  | around a env truncated hback htr hdata hworld =>
    cases h with
    | opened hopen hlo => exact .opened hopen hlo
    | next hlo hnot ht hst =>
      refine .next hlo hnot ht ?_
      rcases hworld with heq | rfl
      · show stands _ env.world p i = true
        rw [heq]
        exact hst
      · -- the new file stays until it is opened
        obtain ⟨hstat, -⟩ := stands_iff.mp hst
        simp only [rotates, hstat, ht, hst, hnot, Bool.and_eq_true, Option.all_some, Bool.not_true,
          Bool.false_or, List.contains_eq_mem, decide_false] at hrot
        exact hrot.2
  | crash => cases hrot
  | restart hup =>
    have hnone : ∀ j, (p, j) ∉ s.mine := by simp [hR.down hup]
    cases h with
    | opened hopen => exact absurd hopen (hnone i)
    | next _ _ ht =>
      obtain ⟨j, hj⟩ := touched_iff.mp ht
      exact absurd hj (hnone j)

/-! ## One run of the agent -/

/-- No process runs, and nothing is left of the last one but what is on disk. -/
structure Stopped (s : System φ ε) : Prop where
  control : s.src.control = .idle
  files : s.src.files = []
  mine : s.mine = []

theorem stopped_step (h : s.up = false → Stopped s) (hs : Change cfg s a s') (hdown : s'.up = false) :
    Stopped s' := by
  cases hs with
  | source pick src effect s' hup hm happly => cases ((apply_frame happly).up.trans hup).symm.trans hdown
  | agent _ _ _ _ _ _ _ _ _ hup => cases hup.symm.trans hdown
  | around => exact ⟨(h hdown).control, (h hdown).files, (h hdown).mine⟩
  | crash => exact ⟨rfl, rfl, rfl⟩
  | restart => cases hdown

theorem rotating_stopped (hdown : s.up = false) (h : Stopped s) (hnumbered : ¬ Leads c.fs s.env.world p 0) :
    Rotating c p s := by
  have hyoung : s.young = true → False := fun hy => nomatch hdown.symm.trans (young_iff.mp hy).1
  have hfile : ∀ tf, s.src.file? p ≠ some tf := by simp [Source.file?, findFile, h.files]
  refine ⟨fun _ => h.mine, hnumbered, fun i hop => ?_, fun hy => (hyoung hy).elim,
    fun hy => (hyoung hy).elim, fun todo hc => ?_, fun d tf resumed hc => ?_,
    fun tf hp => absurd hp (hfile tf), fun _ i hmine => ?_⟩
  · rw [h.control] at hop
    exact hop.elim
  · cases h.control.symm.trans hc
  · cases h.control.symm.trans hc
  · rw [h.mine] at hmine
    cases hmine

/-- What is known of a state of one run in which a path is followed across rotations. -/
structure Watch (cfg : PipelineConfig φ ε) (U : List Str) (p : Str) (s : System φ ε) : Prop
    extends Known cfg U s where
  rotating : Rotating cfg.source p s

/-- The assumptions, and that few files match. -/
def usual (cfg : PipelineConfig φ ε) (U : List Str) (s : System φ ε) (a : Label φ ε) : Bool :=
  assumed cfg s a && fewFiles cfg U s a

/-- The assumptions, that few files match, and how files are rotated. -/
def keepsWriting (cfg : PipelineConfig φ ε) (U : List Str) (p : Str) (s : System φ ε)
    (a : Label φ ε) : Bool :=
  assumed cfg s a && fewFiles cfg U s a && rotates cfg p s a

theorem Watch.step (h : Watch cfg U p s) (hg : keepsWriting cfg U p s a = true)
    (hs : step cfg s a = some s') : Watch cfg U p s' := by
  simp only [keepsWriting, and_eq_true] at hg
  exact ⟨h.toKnown.step hg.1.1 hg.1.2 hs,
    h.rotating.step h.inv h.sound h.history hg.1.1 hg.2 hs⟩

theorem Watch.run (h : Watch cfg U p s) (hw : Watched cfg.source p i lo s)
    (hrun : Lib.run (guarded (keepsWriting cfg U p) (Logs.step cfg)) s as = some s') :
    Watch cfg U p s' ∧ Watched cfg.source p i lo s' := by
  refine run_guarded_inv (I := fun t => Watch cfg U p t ∧ Watched cfg.source p i lo t) ?_ as s s'
    ⟨h, hw⟩ hrun
  rintro t a t' ⟨ht, hwt⟩ hg hs
  refine ⟨ht.step hg hs, ?_⟩
  simp only [keepsWriting, and_eq_true] at hg
  exact hwt.step ht.inv ht.rotating hg.2 (step_change ht.inv.ran hg.1.1 hs)

/-- Whatever the processes before have done. -/
theorem watch_stopped {env : Env φ}
    (hworld : ∀ g ∈ cfg.source.globs, ∀ q ∈ cfg.source.fs.glob env.world g.2, q ∈ U)
    (hrun : Lib.run (guarded (usual cfg U) (Logs.step cfg)) (System.init env) as = some s)
    (hdown : s.up = false) (hnumbered : ¬ Leads cfg.source.fs s.env.world p 0) : Watch cfg U p s := by
  have hkeep : Known cfg U s ∧ (s.up = false → Stopped s) := by
    refine run_guarded_inv (I := fun t => Known cfg U t ∧ (t.up = false → Stopped t)) ?_ as _ s
      ⟨known_init hworld, fun _ => ⟨rfl, rfl, rfl⟩⟩ hrun
    rintro t a t' ⟨ht, hstopped⟩ hg hs
    obtain ⟨hassumed, hfew⟩ := Bool.and_eq_true_iff.mp hg
    exact ⟨ht.step hassumed hfew hs, stopped_step hstopped (step_change ht.inv.ran hassumed hs)⟩
  exact ⟨hkeep.1, rotating_stopped hdown (hkeep.2 hdown) hnumbered⟩

theorem Watch.run_only (h : Watch cfg U p s)
    (hrun : Lib.run (guarded (keepsWriting cfg U p) (Logs.step cfg)) s as = some s') :
    Watch cfg U p s' :=
  run_guarded_inv (fun _ _ _ ht => ht.step) as _ s' h hrun

theorem Watch.gets (h : Watch cfg U p s) (hw : Watched cfg.source p i lo s) (hup : s.up = true)
    (hgo : s.ship.cancelled = false) (hr : Gets cfg s s') :
    Watch cfg U p s' ∧ Watched cfg.source p i lo s' := by
  have hgood : Good cfg U s := ⟨h.inv, h.live, hup, hgo⟩
  refine hgood.keeps (I := fun t => Watch cfg U p t ∧ Watched cfg.source p i lo t) hr ⟨h, hw⟩ ?_
  rintro t t' a ht ha hs hchange ⟨hwatch, hwt⟩
  have hown : rotates cfg p t a = true ∧ fewFiles cfg U t a = true := by
    cases a with
    | world | append | crash => cases ha
    | _ => exact ⟨rfl, rfl⟩
  exact ⟨hwatch.step (by simp [keepsWriting, own_assumed ha ht.going, hown]) hs,
    hwt.step hwatch.inv hwatch.rotating hown.1 hchange⟩

section
variable (h : Watch cfg U p s) (hw : Watched cfg.source p i lo s) (hU : U.length ≤ maxFiles)
  (hup : s.up = true) (hgo : s.ship.cancelled = false)
include h hw hU hup hgo

theorem Watch.opens :
    ∃ s', Gets cfg s s' ∧ s'.env.data = s.env.data ∧ (p, i) ∈ s'.mine := by
  have hgood : Good cfg U s := ⟨h.inv, h.live, hup, hgo⟩
  obtain ⟨t, hr, henv, hidle⟩ := hgood.toIdle
  have ht := hgood.gets hr
  cases (h.gets hw hup hgo hr).2 with
  | opened hmine => exact ⟨t, hr, by rw [henv], hmine⟩
  | next _ hnot htouched hstands =>
    obtain ⟨j, hj⟩ := touched_iff.mp htouched
    have hadm : Admitted cfg.source U p := ht.live.admitted _ (ht.inv.mine _ hj)
    -- what is followed under the path is another file
    obtain ⟨u, hr', hdata, hidle', hfree⟩ : ∃ u, Gets cfg t u ∧ u.env.data = t.env.data ∧
        u.src.control = .idle ∧ u.src.file? p = none := by
      cases hp : t.src.file? p with
      | none => exact ⟨t, .refl, rfl, hidle, hp⟩
      | some tf =>
        refine ht.letGo hidle hp fun hleads => hnot ?_
        rw [(stands_leads hstands).unique hleads]
        exact (ht.inv.followed p tf hp).1
    have hu := ht.gets hr'
    rw [← gets_world hr'] at hstands
    obtain ⟨s', tf, hr'', hdata', -, hp, rfl⟩ := hu.reopen hidle' hU hadm hstands hfree
    refine ⟨s', hr.trans (hr'.trans hr''), ?_, ((hu.gets hr'').inv.followed p tf hp).1⟩
    rw [hdata', hdata, henv]

theorem Watch.emits (hi : i ∉ s.truncated) : ∃ s', Gets cfg s s' ∧
      ∀ b, lo ≤ b → b < (s.env.data i).length → s'.Out p i b := by
  have hgood : Good cfg U s := ⟨h.inv, h.live, hup, hgo⟩
  obtain ⟨s1, hr1, hdata1, hmine1⟩ := h.opens hw hU hup hgo
  have h1 := hgood.gets hr1
  obtain ⟨s2, hr2, henv2, hidle⟩ := h1.toIdle
  have h2 := h1.gets hr2
  have hi2 : i ∉ s2.truncated := (hgood.onward (hr1.trans hr2)).truncated ▸ hi
  obtain ⟨s3, hr3, hdata3, -, hpast, -⟩ := h2.catchUp (p := p) hidle (le_refl _) (h2.reader_le hi2)
  have hr : Gets cfg s s3 := hr1.trans (hr2.trans hr3)
  have h3 := hgood.gets hr
  have hi3 : i ∉ s3.truncated := (hgood.onward hr).truncated ▸ hi
  have hdata : s3.env.data = s.env.data := by rw [hdata3, henv2, hdata1]
  obtain ⟨hwatch, hw3⟩ := h.gets hw hup hgo hr
  have hmine3 : (p, i) ∈ s3.mine := (h1.onward (hr2.trans hr3)).mine _ hmine1
  refine ⟨s3, hr, fun b hlo hhi => ?_⟩
  obtain rfl : s3.start p i = lo := by
    cases hw3 with
    | opened _ hstart => exact hstart
    | next _ hnot => exact absurd hmine3 hnot
  by_cases hfol : ∃ tf, s3.src.file? p = some tf ∧ tf.inode = i
  · obtain ⟨tf, hp, rfl⟩ := hfol
    have hge := (hpast tf hp rfl).1
    rw [henv2, hdata1] at hge
    exact (handled_of_reader hwatch.sound hwatch.history h3.going hp hi3 hlo (by omega)).out
      hwatch.history
  · refine hwatch.rotating.closed h3.going i hmine3 hi3 (fun tf hp hin => hfol ⟨tf, hp, hin⟩) b hlo ?_
    rw [hdata]
    exact hhi

end

/-- Lines are not lost over a rotation, as long as each file is written to only before
it is read for the last time: in one run of the agent, whatever was saved before it, for a
file that was opened under the path, or that the path led to after it was followed, and in
every state later in the run, the agent on its own gets to where every byte that was
written to the file is emitted or lies in a piece that is blank. -/
theorem late_writes (cfg : PipelineConfig φ ε) (env : Env φ) (U : List Str)
    (hU : U.length ≤ maxFiles)
    (hworld : ∀ g ∈ cfg.source.globs, ∀ q ∈ cfg.source.fs.glob env.world g.2, q ∈ U) (p : Str)
    (before as bs : List (Label φ ε)) (t₀ t s : System φ ε)
    (hbefore : run (guarded (usual cfg U) (step cfg)) (System.init env) before = some t₀)
    (hdown : t₀.up = false) (hnumbered : ¬ Leads cfg.source.fs t₀.env.world p 0)
    (hrun : run (guarded (keepsWriting cfg U p) (step cfg)) t₀ as = some t)
    (hrun' : run (guarded (keepsWriting cfg U p) (step cfg)) t bs = some s) (hup : s.up = true)
    (hgo : s.ship.cancelled = false) (i : Inode) (lo : Nat) (hfile : Watched cfg.source p i lo t)
    (hdisk : i ∉ s.truncated) :
    ∃ cs s', (∀ a ∈ cs, ownLabel a = true) ∧ run (step cfg) s cs = some s' ∧
      ∀ b, lo ≤ b → b < (s.env.data i).length →
        (∃ x ∈ s'.sent, x.2.Has p i b) ∨
        ∃ x ∈ s'.skipped, BlankAt (s'.env.data i) x.2 ∧ x.2.Has p i b := by
  obtain ⟨h, hw⟩ := ((watch_stopped hworld hbefore hdown hnumbered).run_only hrun).run hfile hrun'
  have hgood : Good cfg U s := ⟨h.inv, h.live, hup, hgo⟩
  obtain ⟨s', hr, hout⟩ := h.emits hw hU hup hgo hdisk
  obtain ⟨cs, hcs, hrun''⟩ := run_of_own hr
  have hdisk' : i ∉ s'.truncated := (hgood.onward hr).truncated ▸ hdisk
  refine ⟨cs, s', hcs, hrun'', fun b hlo hhi => ?_⟩
  obtain ⟨x, hx | hx, hb⟩ := hout b hlo hhi
  · exact Or.inl ⟨x, hx, hb⟩
  · have hfile : x.2.file = i := hb.2.1
    exact Or.inr ⟨x, hx, hfile ▸ (hgood.gets hr).inv.blank x hx (hfile.symm ▸ hdisk'), hb⟩

/-- A log file that is empty is opened. -/
def emptyLog : List (Label Tree Bytes) := [.restart] ++ List.replicate 15 (.source aLog)

/-- Its position is saved, and the process ends. -/
def savedEmpty : List (Label Tree Bytes) := emptyLog ++ [.save, .saveEnd true, .crash]

def rotatedEmpty : List (Label Tree Bytes) := emptyLog ++ [.world rotated]

def writtenTo : List (Label Tree Bytes) := [.append 7 [120, 10], .append 8 [121, 10]]

def lateWrite : List (Label Tree Bytes) :=
  rotatedEmpty ++ List.replicate 8 (.source aLog) ++ [.append 7 [120, 10]]

/-- The second process takes the file up where the first has left it. It is rotated, and both
files are written to before the source looks. -/
theorem both_files_emitted : ∃ t₀ t s,
    run (guarded (usual aPipeline [aLog]) (step aPipeline)) (System.init aEnv) savedEmpty = some t₀ ∧
    run (guarded (keepsWriting aPipeline [aLog] aLog) (step aPipeline)) t₀ rotatedEmpty = some t ∧
    t.boot = 2 ∧
    run (guarded (keepsWriting aPipeline [aLog] aLog) (step aPipeline)) t writtenTo = some s ∧
    ∀ i, i = 7 ∨ i = 8 → ∃ cs s', (∀ a ∈ cs, ownLabel a = true) ∧
      run (step aPipeline) s cs = some s' ∧ ∀ b, 0 ≤ b → b < 2 →
        (∃ x ∈ s'.sent, x.2.Has aLog i b) ∨
        ∃ x ∈ s'.skipped, BlankAt (s'.env.data i) x.2 ∧ x.2.Has aLog i b := by
  refine ⟨_, _, _, rfl, rfl, rfl, rfl, fun i hi => ?_⟩
  have hemits := late_writes aPipeline aEnv [aLog] (by decide) (by decide) aLog savedEmpty
    rotatedEmpty writtenTo _ _ _ rfl rfl (by decide) rfl rfl rfl rfl i 0 ?_ not_mem_nil
  · rcases hi with rfl | rfl <;> exact hemits
  · rcases hi with rfl | rfl
    · exact .opened (mem_singleton_self _) rfl
    · exact .next rfl (by decide) (by decide) (by decide)

/-- The source has noticed the rotation and closed the old file when a line is written to
it. The line is on disk, and no run that goes on from there emits it. -/
theorem late_write_lost : ∃ s : System Tree Bytes,
    run (guarded (assumed aPipeline) (step aPipeline)) (System.init aEnv) lateWrite = some s ∧
    (aLog, 7) ∈ s.mine ∧ s.start aLog 7 = 0 ∧ s.boot = 1 ∧ s.up = true ∧
    s.ship.cancelled = false ∧ s.truncated = [] ∧ s.env.data 7 = [120, 10] ∧
    ∀ as s', run (guarded (assumed aPipeline) (step aPipeline)) s as = some s' →
      ∀ x ∈ s'.sent, x.2.file ≠ 7 := by
  refine ⟨_, rfl, mem_singleton_self _, rfl, rfl, rfl, rfl, rfl, rfl, ?_⟩
  intro as s' hrun x hx hfile
  have hold := Closed.never (sound_run aPipeline aEnv lateWrite rfl).1
    ⟨fun q hq => ?_, fun q tf hq => ?_, id⟩ hrun x hx hfile
  · cases hold
  · rw [globbed_aPipeline hq]
    exact ⟨mem_singleton_self _, by decide⟩
  · cases hq

end YominsAgent.Logs
