import YominsAgent.Logs.Invariant

/- The steps of the file source keep the invariant: what it finds, opens, reads,
   closes and forgets, and what `emit` makes of a piece of a file. -/
namespace YominsAgent.Logs
open Go Lib List Option

variable {φ ε : Type} {cfg : SourceConfig φ ε} {s s' : System φ ε} {src : Source} {p real : Str}
  {tf : TailedFile} {d : Discovery} {i : Inode} {todo : List Str} {n : Nat} {sp : Span Str Inode}
  {e : Entry ε}

/-! ## The files change and nothing else -/

/-- The followed files keep their inodes, and those in place are not marked gone. -/
structure Refiled (cfg : SourceConfig φ ε) (s : System φ ε) (files : List TailedFile) : Prop where
  kept : ∀ p tf', findFile files p = some tf' → ∃ tf, s.src.file? p = some tf ∧
    tf'.inode = tf.inode ∧
    (tf.inode ∉ s.truncated → At (s.env.data tf.inode) tf'.offset tf'.part)
  here : ∀ p tf, s.src.file? p = some tf → Leads cfg.fs s.env.world p tf.inode →
    tf.gone = false → ∃ tf', findFile files p = some tf' ∧ tf'.inode = tf.inode ∧ tf'.gone = false

theorem Inv.refile (hI : Inv cfg s) (hf : Refiled cfg s src.files)
    (hc : ControlOk cfg { s with src } src.control) : Inv cfg { s with src } where
  claimed := hI.claimed
  queued := hI.queued
  mine := hI.mine
  followed p tf' hp := by
    obtain ⟨tf, htf, hinode, hat⟩ := hf.kept p tf' hp
    obtain ⟨hmine, hglob, -⟩ := hI.followed p tf htf
    exact ⟨hinode ▸ hmine, hglob, fun hi => by rw [hinode] at hi ⊢; exact hat hi⟩
  here p i hmine hleads := by
    obtain ⟨tf, htf, rfl, hgone⟩ := hI.here p i hmine hleads
    obtain ⟨tf', htf', hinode, hgone'⟩ := hf.here p tf htf hleads hgone
    exact ⟨tf', htf', hinode, hgone'⟩
  old := hI.old
  untouched := hI.untouched
  blank := hI.blank
  ran := hI.ran
  control := hc

theorem refiled_markGone (hI : Inv cfg s) {f : TailedFile → Bool}
    (hf : ∀ p tf, s.src.file? p = some tf → Leads cfg.fs s.env.world p tf.inode → f tf = false) :
    Refiled cfg s (s.src.markGone f) where
  kept p tf' hp := by
    rw [findFile_markGone] at hp
    obtain ⟨tf, htf, rfl⟩ := map_eq_some_iff.mp hp
    have hat := (hI.followed p tf htf).2.2
    refine ⟨tf, htf, ?_, fun hi => ?_⟩
    · split <;> rfl
    · split <;> exact hat hi
  here p tf htf hleads hgone := by
    refine ⟨tf, ?_, rfl, hgone⟩
    rw [findFile_markGone, show findFile s.src.files p = some tf from htf, map_some,
      if_neg (by simp [hf p tf htf hleads])]

theorem refiled_put (hI : Inv cfg s) {tf' : TailedFile} (hp : s.src.file? p = some tf)
    (hpath : tf'.path = tf.path) (hinode : tf'.inode = tf.inode) (hgone : tf'.gone = tf.gone)
    (hat : tf.inode ∉ s.truncated → At (s.env.data tf.inode) tf'.offset tf'.part) :
    Refiled cfg s (s.src.put tf') := by
  have htf : tf'.path = p := hpath.trans (findFile_path hp)
  have hfind : findFile s.src.files tf'.path = some tf := htf ▸ hp
  constructor
  · intro q x hq
    rw [findFile_put hfind] at hq
    split at hq
    · next he =>
      cases hq
      exact ⟨tf, he ▸ hfind, hinode, hat⟩
    · exact ⟨x, hq, rfl, (hI.followed q x hq).2.2⟩
  · intro q x hq hleads hno
    rw [findFile_put hfind]
    split
    · next he =>
      have hx : x = tf := some.inj (hq.symm.trans (he ▸ hfind))
      subst hx
      exact ⟨tf', rfl, hinode, hgone.trans hno⟩
    · exact ⟨x, hq, rfl, hno⟩

theorem refiled_delete (hI : Inv cfg s) (hp : s.src.file? p = some tf) (hgone : tf.gone = true) :
    Refiled cfg s (s.src.delete p) := by
  constructor
  · intro q x hq
    rw [findFile_delete] at hq
    split at hq
    · cases hq
    · exact ⟨x, hq, rfl, (hI.followed q x hq).2.2⟩
  · intro q x hq _ hno
    rw [findFile_delete]
    split
    · next he =>
      have hx : x = tf := some.inj (hq.symm.trans (he ▸ hp))
      rw [hx, hgone] at hno
      cases hno
    · exact ⟨x, hq, rfl, hno⟩

theorem Inv.turn (hI : Inv cfg s) {lastFound : Option Int} {control : SourceControl}
    (hc : ControlOk cfg s control) :
    Inv cfg { s with src := { s.src with lastFound, control } } := by
  have ho : Others cfg s { s with src := { s.src with lastFound, control } } :=
    Others.of_passive rfl (.inl rfl)
  exact ho.inv hI rfl hI.ran (ho.control hI hc)

/-! ## Discovery -/

theorem searching_start (hI : Inv cfg s) (spec : FileSpec) :
    Searching cfg s ⟨[], spec, [], cfg.globs⟩ where
  ahead p tf hp hleads := by
    obtain ⟨-, ⟨g, hg, w, hw⟩, -⟩ := hI.followed p tf hp
    exact .inr (.inr ⟨g, hg, cfg.fs.glob_stable _ _ _ _ hw hleads.exists⟩)
  found p hp := nomatch hp
  todo g hg := hg

/-- One match is dealt with: it counts as seen, or it is not followed. -/
theorem Searching.next {found seen : List Str} (h : Searching cfg s d)
    (hfound : d.found = p :: found) (hseen : ∀ q ∈ d.seen, q ∈ seen)
    (hp : p ∈ seen ∨ s.src.file? p = none) : Searching cfg s { d with found, seen } where
  ahead q tf hq hleads := by
    rcases h.ahead q tf hq hleads with h1 | h1 | h1
    · exact .inl (hseen q h1)
    · rw [hfound] at h1
      rcases mem_cons.mp h1 with rfl | h1
      · rcases hp with hp | hp
        · exact .inl hp
        · rw [hp] at hq
          cases hq
      · exact .inr (.inl h1)
    · exact .inr (.inr h1)
  found q hq := h.found q (hfound ▸ mem_cons_of_mem p hq)
  todo := h.todo

theorem Searching.nextGlob {spec : FileSpec} {g : Str} {todo : List (FileSpec × Str)}
    (h : Searching cfg s d) (hfound : d.found = []) (htodo : d.todo = (spec, g) :: todo) :
    Searching cfg s { d with spec, found := cfg.fs.glob s.env.world g, todo } where
  ahead p tf hp hleads := by
    rcases h.ahead p tf hp hleads with h1 | h1 | ⟨g', hg', hglob⟩
    · exact .inl h1
    · rw [hfound] at h1
      cases h1
    · rw [htodo] at hg'
      rcases mem_cons.mp hg' with rfl | hg'
      · exact .inr (.inl hglob)
      · exact .inr (.inr ⟨g', hg', hglob⟩)
  found p hp := ⟨(spec, g), h.todo _ (htodo ▸ mem_cons_self), s.env.world, hp⟩
  todo g' hg' := h.todo g' (htodo ▸ mem_cons_of_mem _ hg')

/-- The loops of `discover` are over: a file in place has been seen, and is not marked. -/
theorem Inv.endSearch (hI : Inv cfg s) (hd : s.src.control = .discovering d) (hfound : d.found = [])
    (htodo : d.todo = []) :
    Inv cfg { s with src := { s.src with
      files := s.src.markGone fun tf => !d.seen.contains tf.path
      control := .checking s.src.paths } } := by
  have h : Searching cfg s d := by simpa [hd, ControlOk] using hI.control
  refine hI.refile (refiled_markGone hI ?_) trivial
  intro p tf hp hleads
  rcases h.ahead p tf hp hleads with h1 | h1 | ⟨g', hg', -⟩
  · simpa [findFile_path hp] using h1
  · rw [hfound] at h1
    cases h1
  · rw [htodo] at hg'
    cases hg'

/-! ## A file is opened -/

theorem Candidate.opened (hI : Inv cfg s) (h : Candidate cfg s d p)
    (hleads : Leads cfg.fs s.env.world p i) : Opened cfg s d p i := by
  have hmine : (p, i) ∉ s.mine := by
    intro hmine
    obtain ⟨tf, htf, -⟩ := hI.here p i hmine hleads
    rw [h.new] at htf
    cases htf
  exact { h with
    notMine := hmine
    untouched := fun hopen => hI.old p i hopen hmine hleads
    left := fun j hj _ hlj => hj (hlj.unique hleads) }

theorem Inv.statFile (hI : Inv cfg s) (hc : s.src.control = .opened d p i real) :
    Inv cfg { s with
      src := { s.src with control := .sized d p i real (s.env.data i).length } } := by
  have h : Opened cfg s d p i := by simpa [hc, ControlOk] using hI.control
  exact hI.turn ⟨h, fun hi => ⟨Nat.le_refl _, fun o ho => (hI.claimed p i o ho).2 hi⟩⟩

/-- On a path this process has not opened the positions in memory say it all. -/
theorem Inv.claims_untouched (hI : Inv cfg s) {o : Nat} (hun : s.Untouched p)
    (h : s.cursors.Claims p i o) : s.pos.files p = some (i, o) := by
  rcases h with ⟨t, ht, ho⟩ | ⟨sp, hsp, rfl, rfl, -⟩
  · have hu := hI.untouched p hun
    calc s.pos.files p = s.saved.files p := hu _ Cursors.pos_mem_tables
      _ = t p := (hu t ht).symm
      _ = some (i, o) := ho
  · exact absurd (hI.queued sp hsp) (hun sp.file)

theorem Inv.chooseOffset (hI : Inv cfg s) {size : Nat} (hc : s.src.control = .sized d p i real size) :
    Inv cfg { s with
      src := { s.src with control := chooseOffset s.env s.pos d p i real size s.src } } := by
  have h := hI.controlOk hc
  obtain ⟨hopened, hsize⟩ := h
  have hpos : ∀ o, s.cursors.Claims p i o → s.pos.files p = some (i, o) := fun o ho =>
    hI.claims_untouched (hopened.untouched (hI.claimed p i o ho).1) ho
  refine hI.turn ⟨hopened, rfl, rfl, fun hi => ?_⟩
  obtain ⟨hlen, hbound⟩ := hsize hi
  -- the cases of `firstOffset`
  cases hp : s.pos.files p with
  | none =>
    have hnone : ∀ o, ¬ s.cursors.Claims p i o := by
      intro o ho
      rw [hpos o ho] at hp
      cases hp
    simp only
    split
    · exact ⟨Nat.zero_le _, hnone⟩
    · exact ⟨hlen, hnone⟩
  | some x =>
    obtain ⟨j, o⟩ := x
    simp only
    split
    · next hres =>
      obtain ⟨rfl, ho⟩ := hres
      have hclaim : s.cursors.Claims p j o :=
        .inl ⟨s.pos.files, Cursors.pos_mem_tables, hp⟩
      exact ⟨ho.trans hlen, rfl, hopened.untouched (hI.claimed p j o hclaim).1⟩
    · next hres =>
      refine ⟨Nat.zero_le _, fun o' ho' => hres ?_⟩
      -- the position would be about this inode, and within the size
      rw [hpos o' ho'] at hp
      cases hp
      exact ⟨rfl, hbound _ ho'⟩

/-- What is claimed once a position is set. -/
theorem claims_setFile {src : Source} {q : Str} {pos : Position} {opens mine : List (Str × Inode)}
    {start : Str → Inode → Nat} {j : Inode} {o : Nat}
    (h : ({ s with src, pos := s.pos.setFile q pos, opens, mine, start } :
      System φ ε).cursors.Claims p j o) : s.cursors.Claims p j o ∨ p = q ∧ pos = (j, o) := by
  rcases h with ⟨t, ht, ho⟩ | hq
  · rcases Cursors.mem_tables.mp ht with rfl | ht
    · rcases Positions.setFile_eq_some ho with hold | ⟨hp, hpos⟩
      · exact .inl (.inl ⟨_, Cursors.pos_mem_tables, hold⟩)
      · exact .inr ⟨hp, hpos.symm⟩
    · exact .inl (.inl ⟨t, Cursors.mem_tables.mpr (.inr ht), ho⟩)
  · exact .inl (.inr hq)

theorem Inv.register (hI : Inv cfg s) {resumed : Bool}
    (hc : s.src.control = .registering d tf resumed) (start : Str → Inode → Nat) :
    Inv cfg { s with
      src := { s.src with files := s.src.files ++ [tf], control := .discovering d }
      pos := s.pos.setFile tf.path (tf.inode, tf.offset)
      opens := (tf.path, tf.inode) :: s.opens, mine := (tf.path, tf.inode) :: s.mine, start } := by
  have h := hI.controlOk hc
  obtain ⟨hop, hpart, hgone, hnew⟩ := h
  have hfind : ∀ q, findFile (s.src.files ++ [tf]) q =
      if q = tf.path then some tf else s.src.file? q := fun q => findFile_snoc hop.new
  refine ⟨?_, ?_, ?_, ?_, ?_, ?_, ?_, hI.blank, hI.ran, ?_⟩
  · intro q j o hclaim
    rcases claims_setFile hclaim with hold | ⟨rfl, hpos⟩
    · exact (hI.claimed q j o hold).imp_left (mem_cons_of_mem _)
    · cases hpos
      exact ⟨mem_cons_self, fun hi => (hnew hi).1⟩
  · exact fun sp hsp => mem_cons_of_mem _ (hI.queued sp hsp)
  · intro x hx
    rcases mem_cons.mp hx with rfl | hx
    · exact mem_cons_self
    · exact mem_cons_of_mem _ (hI.mine x hx)
  · intro q x hq
    rw [Source.file?, hfind] at hq
    split at hq
    · next he =>
      cases hq
      subst he
      exact ⟨mem_cons_self, hop.globbed, fun hi => hpart ▸ At.nil (hnew hi).1⟩
    · obtain ⟨hmine, hrest⟩ := hI.followed q x hq
      exact ⟨mem_cons_of_mem _ hmine, hrest⟩
  · intro q j hmine hleads
    rw [Source.file?, hfind]
    rcases mem_cons.mp hmine with he | hmine
    · cases he
      exact ⟨tf, if_pos rfl, rfl, hgone⟩
    · obtain ⟨x, hx, hrest⟩ := hI.here q j hmine hleads
      have hne : q ≠ tf.path := by
        rintro rfl
        rw [hop.new] at hx
        cases hx
      exact ⟨x, (if_neg hne).trans hx, hrest⟩
  · intro q j hopen hmine hleads k hk
    have hne : (q, j) ≠ (tf.path, tf.inode) := fun he => hmine (he ▸ mem_cons_self)
    have hopen' : (q, j) ∈ s.opens := (mem_cons.mp hopen).resolve_left hne
    rcases mem_cons.mp hk with he | hk
    · -- the path would have left the inode it was opened on
      cases he
      exact hop.left j (fun hj => hne (by rw [hj])) hopen' hleads
    · exact hI.old q j hopen' (fun hm => hmine (mem_cons_of_mem _ hm)) hleads k hk
  · intro q hun t ht
    have hne : q ≠ tf.path := by
      rintro rfl
      exact hun tf.inode mem_cons_self
    have hu := hI.untouched q fun j hj => hun j (mem_cons_of_mem _ hj)
    rcases Cursors.mem_tables.mp ht with rfl | ht
    · exact (Positions.setFile_other hne).trans (hu _ Cursors.pos_mem_tables)
    · exact hu t (Cursors.mem_tables.mpr (.inr ht))
  · refine ⟨?_, hop.found, hop.todo⟩
    intro q x hq hleads
    rw [Source.file?, hfind] at hq
    split at hq
    · next he => exact .inl (he ▸ hop.seen)
    · exact hop.ahead q x hq hleads

/-! ## The followed files are looked at, read and closed -/

theorem Inv.check (hI : Inv cfg s) (p : Str) (todo : List Str) :
    Inv cfg { s with src := check cfg s.env p todo s.src } := by
  refine hI.refile (refiled_markGone hI ?_) trivial
  intro q tf hq hleads
  by_cases hp : tf.path = p
  · have hstat : (cfg.fs.stat s.env.world p).map (·.1) = some tf.inode := by
      rw [← hp, findFile_path hq]
      exact hleads
    simp [hstat]
  · simp [hp]

theorem rewind_eq {size : Nat} (h : tf.offset + tf.part.length ≤ size) :
    rewind size tf = tf := if_neg (by omega)

section
variable (hI : Inv cfg s) (hp : s.src.file? p = some tf)
include hI hp

theorem Inv.rewind :
    Inv cfg { s with src := { s.src with
      files := s.src.put (rewind (s.env.data tf.inode).length tf), control := .filling p todo } } := by
  obtain ⟨hpath, hinode, hgone⟩ := rewind_same (s.env.data tf.inode).length tf
  refine hI.refile (refiled_put hI hp hpath hinode hgone fun hi => ?_) trivial
  have hat := (hI.followed p tf hp).2.2 hi
  rw [rewind_eq hat.le]
  exact hat

theorem Inv.fill {lines : List Bytes} {rest : Bytes}
    (hsplit : splitLines (tf.part ++ fill (s.env.data tf.inode) tf) = (lines, rest)) :
    Inv cfg { s with src := { s.src with
      files := s.src.put { tf with part := [] }, control := .emitting p lines rest n todo } } := by
  have hat := (hI.followed p tf hp).2.2
  refine hI.refile (refiled_put hI hp rfl rfl rfl fun hi => ?_) ?_
  · exact (nil_append tf.part ▸ hat hi : At _ _ ([] ++ tf.part)).left
  · intro x hx
    cases hx.symm.trans (findFile_put_self hp rfl)
    refine ⟨rfl, fun hi => ?_⟩
    have hjoin := joinLines_splitLines (tf.part ++ Logs.fill (s.env.data tf.inode) tf)
    rw [hsplit] at hjoin
    rw [hjoin]
    exact (hat hi).fill

theorem Inv.shut (hd : drained tf n = true) :
    Inv cfg { s with src := { s.src with
      files := s.src.delete p, lastFound := none
      control := if (cfg.fs.stat s.env.world p).isSome then .reading todo
        else .forgetting p todo } } := by
  have hgone : tf.gone = true := by
    simp only [drained, Bool.and_eq_true] at hd
    exact hd.1.1
  refine hI.refile (refiled_delete hI hp hgone) ?_
  show ControlOk cfg _ (if _ then _ else _)
  split
  · trivial
  · exact ⟨tf.inode, (hI.followed p tf hp).1⟩

end

theorem Inv.forget (hI : Inv cfg s) (hc : s.src.control = .forgetting p todo) :
    Inv cfg { s with src := { s.src with control := .reading todo }, pos := s.pos.forget p } := by
  have hp := hI.controlOk hc
  obtain ⟨i, hi⟩ := hp
  have hother : ∀ q, q ≠ p → (s.pos.forget p).files q = s.pos.files q := by
    intro q hq
    rw [Positions.forget_files]
    exact if_neg hq
  refine { hI with claimed := ?_, untouched := ?_, control := trivial }
  · rintro q j o (⟨t, ht, ho⟩ | hq)
    · rcases Cursors.mem_tables.mp ht with rfl | ht
      · have hne : q ≠ p := by
          rintro rfl
          replace ho : (s.pos.forget q).files q = some (j, o) := ho
          rw [Positions.forget_files] at ho
          cases (if_pos rfl).symm.trans ho
        exact hI.claimed q j o (.inl ⟨s.pos.files, Cursors.pos_mem_tables,
          (hother q hne).symm.trans ho⟩)
      · exact hI.claimed q j o (.inl ⟨t, Cursors.mem_tables.mpr (.inr ht), ho⟩)
    · exact hI.claimed q j o (.inr hq)
  · intro q hun t ht
    have hne : q ≠ p := by
      rintro rfl
      exact hun i hi
    rcases Cursors.mem_tables.mp ht with rfl | ht
    · exact (hother q hne).trans (hI.untouched q hun _ Cursors.pos_mem_tables)
    · exact hI.untouched q hun t (Cursors.mem_tables.mpr (.inr ht))

/-! ## A piece is handed to `emit` -/

/-- The span that `emit` takes from the file. -/
def TailedFile.next (tf : TailedFile) (n : Nat) : Span Str Inode :=
  ⟨tf.path, tf.inode, tf.offset, tf.offset + n⟩

theorem emit_cases (cfg : SourceConfig φ ε) (tf : TailedFile) (line : Bytes) (n : Nat) :
    (isBlank line = true ∧ (emit cfg tf line n).2 = .skip (tf.next n)) ∨
      ∃ e : Entry ε, e.ack = .file (tf.next n) ∧ (emit cfg tf line n).2 = .send e := by
  unfold emit
  split
  · next hb => exact .inl ⟨hb, rfl⟩
  · exact .inr ⟨_, rfl, rfl⟩

/-- A piece of a file goes to `emit`: it is passed over or sent. -/
theorem apply_emit {line : Bytes} (h : s.apply src (emit cfg tf line n).2 = some s') :
    (isBlank line = true ∧ s' = { s with src, skipped := s.skipped ++ [(s.boot, tf.next n)] }) ∨
      ∃ e : Entry ε, e.ack = .file (tf.next n) ∧
        s' = { s with src, chan := s.chan ++ [e], sent := s.sent ++ [(s.boot, tf.next n)] } := by
  rcases emit_cases cfg tf line n with ⟨hblank, heff⟩ | ⟨e, he, heff⟩
  · rw [heff] at h
    exact .inl ⟨hblank, (some.inj h).symm⟩
  · rw [heff] at h
    simp only [System.apply, he] at h
    split at h
    · exact .inr ⟨e, he, (some.inj h).symm⟩
    · cases h

theorem Inv.skip (hI : Inv cfg s) (hb : sp.file ∉ s.truncated → BlankAt (s.env.data sp.file) sp) :
    Inv cfg { s with skipped := s.skipped ++ [(s.boot, sp)] } := by
  have ho : Others cfg s { s with skipped := s.skipped ++ [(s.boot, sp)] } :=
    ⟨rfl, rfl, rfl, fun _ _ _ h => h, fun _ h => h, fun _ _ => ⟨[], (append_nil _).symm⟩,
      fun _ h => h, fun _ _ _ h => h, fun _ h _ => ⟨h, rfl⟩⟩
  refine ⟨hI.claimed, hI.queued, hI.mine, hI.followed, hI.here, hI.old, hI.untouched, ?_, hI.ran,
    ho.control hI hI.control⟩
  exact forall_mem_snoc.mpr ⟨hI.blank, hb⟩

/-- The entry is the last of those in flight, or after the cancellation none of them. -/
theorem queue_send (he : e.ack = .file sp) (sent : List (Nat × Span Str Inode)) :
    ({ s with chan := s.chan ++ [e], sent } : System φ ε).cursors.queue =
      s.cursors.queue ++ if s.ship.cancelled then [] else [sp] := by
  have hspan : e.span? = some sp := by simp [Entry.span?, he]
  cases hc : s.ship.cancelled <;>
    simp [System.cursors, System.inFlight, System.due, hc, filterMap_append, hspan]

theorem mem_queue_send {x : Span Str Inode} (he : e.ack = .file sp)
    {sent : List (Nat × Span Str Inode)}
    (hx : x ∈ ({ s with chan := s.chan ++ [e], sent } : System φ ε).cursors.queue) :
    x ∈ s.cursors.queue ∨ x = sp := by
  rw [queue_send he] at hx
  rcases mem_append.mp hx with hx | hx
  · exact .inl hx
  · split at hx
    · cases hx
    · exact .inr (mem_singleton.mp hx)

theorem Inv.send (hI : Inv cfg s) (he : e.ack = .file sp) (hmine : (sp.path, sp.file) ∈ s.mine)
    (hlen : sp.file ∉ s.truncated → sp.hi ≤ (s.env.data sp.file).length)
    (sent : List (Nat × Span Str Inode))
    (hc : ControlOk cfg { s with chan := s.chan ++ [e], sent } s.src.control) :
    Inv cfg { s with chan := s.chan ++ [e], sent } := by
  refine ⟨?_, ?_, hI.mine, hI.followed, hI.here, hI.old, hI.untouched, hI.blank, hI.ran, hc⟩
  · rintro p i o (ht | ⟨x, hx, hpi⟩)
    · exact hI.claimed p i o (.inl ht)
    · rcases mem_queue_send he hx with hx | rfl
      · exact hI.claimed p i o (.inr ⟨x, hx, hpi⟩)
      · obtain ⟨rfl, rfl, rfl⟩ := hpi
        exact ⟨hI.mine _ hmine, hlen⟩
  · intro x hx
    rcases mem_queue_send he hx with hx | rfl
    · exact hI.queued x hx
    · exact hmine

end YominsAgent.Logs
