import YominsAgent.Logs.Soundness

/- What the processes have sent, and what is known about it: each acknowledged span
   was sent, each process sends only of files it has opened, and neither a span nor
   a position lies before the start of its file (`History`). -/
namespace YominsAgent.Logs
open Go Lib List

variable {φ ε : Type}

/-! ## What a step of the source does to the offsets -/

/-- The offsets stay, a file is added, a path is forgotten, or a piece of a file goes
to `emit`. -/
inductive Moves (cfg : SourceConfig φ ε) (s : System φ ε) : Source → Effect ε → Prop where
  | quiet (src : Source) (h : ∀ q tf', src.file? q = some tf' →
      ∃ tf, s.src.file? q = some tf ∧ tf'.inode = tf.inode ∧
        (tf.offset + tf.part.length ≤ (s.env.data tf.inode).length → tf'.offset = tf.offset)) :
      Moves cfg s src .quiet
  | register (d : Discovery) (tf : TailedFile) (resumed : Bool)
      (hc : s.src.control = .registering d tf resumed) :
      Moves cfg s { s.src with files := s.src.files ++ [tf], control := .discovering d }
        (.setFile tf.path (tf.inode, tf.offset) resumed)
  | forget (p : Str) (todo : List Str) (hc : s.src.control = .forgetting p todo) :
      Moves cfg s { s.src with control := .reading todo } (.forget p)
  | piece (src : Source) (tf tf' : TailedFile) (line bs : Bytes)
      (hp : s.src.file? tf.path = some tf) (hpath : tf'.path = tf.path)
      (hinode : tf'.inode = tf.inode) (hoff : tf'.offset = tf.offset + bs.length)
      (hfiles : src.files = s.src.put tf') (hbs : bs = line ∨ bs = line ++ [10])
      (hat : ∀ data, (∀ lines rest n todo, s.src.control = .emitting tf.path lines rest n todo →
        At data tf.offset (joinLines lines ++ rest)) → At data tf.offset bs) :
      Moves cfg s src (emit cfg tf line bs.length).2

variable {cfg : SourceConfig φ ε} {s s' : System φ ε} {src : Source} {p : Str} {tf tf' : TailedFile}
  {n : Nat} {effect : Effect ε}

theorem moves_same (hfiles : src.files = s.src.files) : Moves cfg s src .quiet := by
  refine .quiet src fun q x hq => ⟨x, ?_, rfl, fun _ => rfl⟩
  rw [Source.file?, hfiles] at hq
  exact hq

theorem moves_markGone {f : TailedFile → Bool} (hfiles : src.files = s.src.markGone f) :
    Moves cfg s src .quiet := by
  refine .quiet src fun q x hq => ?_
  rw [Source.file?, hfiles, findFile_markGone] at hq
  obtain ⟨tf, htf, rfl⟩ := Option.map_eq_some_iff.mp hq
  refine ⟨tf, htf, ?_, fun _ => ?_⟩ <;> split <;> rfl

theorem moves_put (tf' : TailedFile) (hp : s.src.file? p = some tf) (hpath : tf'.path = tf.path)
    (hinode : tf'.inode = tf.inode)
    (hoff : tf.offset + tf.part.length ≤ (s.env.data tf.inode).length → tf'.offset = tf.offset)
    (hfiles : src.files = s.src.put tf') : Moves cfg s src .quiet := by
  have hfind : findFile s.src.files tf'.path = some tf :=
    (hpath.trans (findFile_path hp)).symm ▸ hp
  refine .quiet src fun q x hq => ?_
  rw [Source.file?, hfiles, findFile_put hfind] at hq
  split at hq
  · next he =>
    cases hq
    exact ⟨tf, he ▸ hfind, hinode, hoff⟩
  · exact ⟨x, hq, rfl, fun _ => rfl⟩

theorem SourceMove.moves (hm : SourceMove cfg s.env s.pos s.src src effect) :
    Moves cfg s src effect := by
  cases hm with
  | endSearch | check => exact moves_markGone rfl
  | register d tf resumed hc => exact .register d tf resumed hc
  | rewind p todo tf hc hp =>
    obtain ⟨hpath, hinode, -⟩ := rewind_same (s.env.data tf.inode).length tf
    exact moves_put _ hp hpath hinode (fun hle => by rw [rewind_eq hle]) rfl
  | fill p todo tf lines rest hc hp =>
    exact moves_put { tf with part := [] } hp rfl rfl (fun _ => rfl) rfl
  | keep p rest part n todo tf partAt hc hp =>
    exact moves_put { tf with part, partAt } hp rfl rfl (fun _ => rfl) rfl
  | line p l lines rest n todo tf hc hp =>
    obtain rfl := findFile_path hp
    have hlen : (l ++ [10]).length = l.length + 1 := length_append
    rw [← hlen]
    refine .piece _ tf { tf with offset := tf.offset + (l ++ [10]).length } l (l ++ [10]) hp rfl rfl
      rfl rfl (.inr rfl) fun data h => ?_
    have hat : At data tf.offset ((l ++ [10]) ++ (joinLines lines ++ rest)) := by
      simpa [joinLines] using h _ _ _ _ hc
    exact hat.left
  | rest p rest n todo tf partAt hc hp =>
    obtain rfl := findFile_path hp
    exact .piece _ tf { tf with offset := tf.offset + rest.length, partAt } rest rest hp rfl rfl rfl
      rfl (.inl rfl) fun data h => h _ _ _ _ hc
  | shut =>
    refine .quiet _ fun q x hq => ?_
    rw [Source.file?, findFile_delete] at hq
    split at hq
    · cases hq
    · exact ⟨x, hq, rfl, fun _ => rfl⟩
  | forget p todo hc => exact .forget p todo hc
  | _ => exact moves_same rfl

/-- A file is followed before its reader moves on, or it is being registered. -/
theorem SourceMove.origin (hI : Inv cfg s) (hm : SourceMove cfg s.env s.pos s.src src effect)
    (hp : src.file? p = some tf') :
    (∃ tf, s.src.file? p = some tf ∧ tf'.inode = tf.inode ∧
      (tf.offset + tf.part.length ≤ (s.env.data tf.inode).length → tf.offset ≤ tf'.offset)) ∨
    ∃ d resumed, s.src.control = .registering d tf' resumed ∧ tf'.path = p := by
  cases hm.moves with
  | quiet src hfiles =>
    obtain ⟨tf, htf, hinode, hoff⟩ := hfiles p tf' hp
    exact .inl ⟨tf, htf, hinode, fun hle => (hoff hle).ge⟩
  | register d tf resumed hc =>
    rw [Source.file?, findFile_snoc (hI.controlOk hc).1.new] at hp
    split at hp
    · next he =>
      cases hp
      exact .inr ⟨d, resumed, hc, he.symm⟩
    · exact .inl ⟨tf', hp, rfl, fun _ => Nat.le_refl _⟩
  | forget => exact .inl ⟨tf', hp, rfl, fun _ => Nat.le_refl _⟩
  | piece src tf x line bs htf hpath hinode hoff hfiles =>
    have hfind : findFile s.src.files x.path = some tf := hpath.symm ▸ htf
    rw [Source.file?, hfiles, findFile_put hfind] at hp
    split at hp
    · next he =>
      cases hp
      exact .inl ⟨tf, he ▸ hfind, hinode, fun _ => by omega⟩
    · exact .inl ⟨tf', hp, rfl, fun _ => Nat.le_refl _⟩

/-! ## What was sent -/

/-- How what was sent, and what is known, relate to each other. -/
structure History (s : System φ ε) : Prop where
  tags : ∀ x, x ∈ s.sent ∨ x ∈ s.skipped → x.1 ≤ s.boot
  acked : ∀ x ∈ s.acked, x ∈ s.sent
  queued : ∀ sp ∈ s.cursors.queue, (s.boot, sp) ∈ s.sent
  opens : ∀ x ∈ s.sent, (x.2.path, x.2.file) ∈ s.opens
  mine : s.up = true → ∀ sp, (s.boot, sp) ∈ s.sent → (sp.path, sp.file) ∈ s.mine
  within : ∀ x ∈ s.sent, x.2.file ∉ s.truncated → x.2.hi ≤ (s.env.data x.2.file).length
  begun : ∀ sp, (s.boot, sp) ∈ s.sent → sp.file ∉ s.truncated → s.start sp.path sp.file ≤ sp.lo
  claims : ∀ p i o, s.cursors.Claims p i o → i ∉ s.truncated → s.start p i ≤ o
  reader : ∀ p tf, s.src.file? p = some tf → tf.inode ∉ s.truncated → s.start p tf.inode ≤ tf.offset

theorem history_init (cfg : SourceConfig φ ε) (env : Env φ) :
    History (System.init env : System φ ε) := by
  refine ⟨?_, ?_, ?_, ?_, ?_, ?_, ?_, ?_, ?_⟩
  · rintro x (hx | hx) <;> cases hx
  · exact fun x hx => nomatch hx
  · exact fun sp hsp => nomatch hsp
  · exact fun x hx => nomatch hx
  · exact fun hup => nomatch hup
  · exact fun x hx => nomatch hx
  · exact fun sp hsp => nomatch hsp
  · exact fun p i o h => nomatch ((inv_init cfg env).claimed p i o h).1
  · exact fun p tf hp => nomatch hp

theorem History.advance (hH : History s) (hp : s.src.file? tf.path = some tf)
    (hpath : tf'.path = tf.path) (hinode : tf'.inode = tf.inode) (hoff : tf'.offset = tf.offset + n)
    (hfiles : src.files = s.src.put tf') :
    ∀ q x, src.file? q = some x → x.inode ∉ s.truncated → s.start q x.inode ≤ x.offset := by
  intro q x hq hi
  have hfind : findFile s.src.files tf'.path = some tf := hpath.symm ▸ hp
  rw [Source.file?, hfiles, findFile_put hfind] at hq
  split at hq
  · next he =>
    cases hq
    rw [hinode] at hi ⊢
    have := hH.reader q tf (he ▸ hfind) hi
    omega
  · exact hH.reader q x hq hi

theorem History.piece (hI : Inv cfg s) (hH : History s) {line : Bytes}
    (hp : s.src.file? tf.path = some tf) (hpath : tf'.path = tf.path)
    (hinode : tf'.inode = tf.inode) (hoff : tf'.offset = tf.offset + n)
    (hfiles : src.files = s.src.put tf')
    (hwithin : tf.inode ∉ s.truncated → tf.offset + n ≤ (s.env.data tf.inode).length)
    (h : s.apply src (emit cfg tf line n).2 = some s') : History s' := by
  have hreader := hH.advance hp hpath hinode hoff hfiles
  have hmine : (tf.path, tf.inode) ∈ s.mine := (hI.followed tf.path tf hp).1
  rcases apply_emit h with ⟨-, rfl⟩ | ⟨e, he, rfl⟩
  · refine { hH with tags := ?_, reader := hreader }
    rintro x (hx | hx)
    · exact hH.tags x (.inl hx)
    · rcases mem_snoc.mp hx with hx | rfl
      · exact hH.tags x (.inr hx)
      · exact Nat.le_refl _
  · -- what is new is the span itself
    have hnew : ∀ x ∈ s.sent ++ [(s.boot, tf.next n)], x ∈ s.sent ∨ x = (s.boot, tf.next n) :=
      fun _ => mem_snoc.mp
    have hq : ∀ sp ∈ (System.cursors { s with
        src, chan := s.chan ++ [e], sent := s.sent ++ [(s.boot, tf.next n)] }).queue,
        sp ∈ s.cursors.queue ∨ sp = tf.next n :=
      fun sp hsp => mem_queue_send (s := { s with src }) he hsp
    refine ⟨?_, ?_, ?_, ?_, ?_, ?_, ?_, ?_, hreader⟩
    · rintro x (hx | hx)
      · rcases hnew x hx with hx | rfl
        · exact hH.tags x (.inl hx)
        · exact Nat.le_refl _
      · exact hH.tags x (.inr hx)
    · exact fun x hx => mem_append_left _ (hH.acked x hx)
    · intro sp hsp
      rcases hq sp hsp with hsp | rfl
      · exact mem_append_left _ (hH.queued sp hsp)
      · exact mem_append_right _ (mem_singleton_self _)
    · intro x hx
      rcases hnew x hx with hx | rfl
      · exact hH.opens x hx
      · exact hI.mine _ hmine
    · intro hup sp hsp
      rcases hnew _ hsp with hsp | heq
      · exact hH.mine hup sp hsp
      · cases heq
        exact hmine
    · intro x hx hi
      rcases hnew x hx with hx | rfl
      · exact hH.within x hx hi
      · exact hwithin hi
    · intro sp hsp hi
      rcases hnew _ hsp with hsp | heq
      · exact hH.begun sp hsp hi
      · cases heq
        exact hH.reader tf.path tf hp hi
    · rintro p i o (ht | ⟨sp, hsp, hpi⟩) hi
      · exact hH.claims p i o (.inl ht) hi
      · rcases hq sp hsp with hsp | rfl
        · exact hH.claims p i o (.inr ⟨sp, hsp, hpi⟩) hi
        · obtain ⟨rfl, rfl, rfl⟩ := hpi
          have := hH.reader tf.path tf hp hi
          show s.start tf.path tf.inode ≤ tf.offset + n
          omega

theorem History.register (hI : Inv cfg s) (hH : History s) (hup : s.up = true) {d : Discovery}
    {resumed : Bool} (hc : s.src.control = .registering d tf resumed)
    (h : s.apply { s.src with files := s.src.files ++ [tf], control := .discovering d }
      (.setFile tf.path (tf.inode, tf.offset) resumed) = some s') : History s' := by
  cases h
  have hctl := hI.controlOk hc
  obtain ⟨hop, -, -, hnew⟩ := hctl
  let start := if resumed then s.start else Cursors.set₂ s.start tf.path tf.inode tf.offset
  -- the start of another file stays, and so it does when something is about this one
  have hother : ∀ q j, (q, j) ≠ (tf.path, tf.inode) → start q j = s.start q j := by
    intro q j hne
    show (if resumed then s.start else _) q j = _
    split
    · rfl
    · exact if_neg fun he => hne (by rw [he.1, he.2])
  have hself : tf.inode ∉ s.truncated → start tf.path tf.inode ≤ tf.offset := by
    intro hi
    have hres := (hnew hi).2
    show (if resumed then s.start else _) tf.path tf.inode ≤ _
    cases resumed with
    | true =>
      exact hH.claims _ _ _ (.inl ⟨_, Cursors.pos_mem_tables, hres.1⟩) hi
    | false => simp [Cursors.set₂]
  have hclaims : ∀ q j o, s.cursors.Claims q j o → j ∉ s.truncated → start q j ≤ o := by
    intro q j o hcl hj
    by_cases heq : (q, j) = (tf.path, tf.inode)
    · cases heq
      have hres := (hnew hj).2
      show (if resumed then s.start else _) tf.path tf.inode ≤ _
      cases resumed with
      | true => exact hH.claims _ _ o hcl hj
      | false => exact absurd hcl (hres o)
    · rw [hother q j heq]
      exact hH.claims q j o hcl hj
  refine ⟨hH.tags, hH.acked, hH.queued, ?_, ?_, hH.within, ?_, ?_, ?_⟩
  · exact fun x hx => mem_cons_of_mem _ (hH.opens x hx)
  · exact fun _ sp hsp => mem_cons_of_mem _ (hH.mine hup sp hsp)
  · intro sp hsp hi
    show start sp.path sp.file ≤ sp.lo
    rw [hother _ _ fun heq => hop.notMine (heq ▸ hH.mine hup sp hsp)]
    exact hH.begun sp hsp hi
  · intro q j o hclaim hj
    rcases claims_setFile hclaim with hold | ⟨rfl, hpos⟩
    · exact hclaims q j o hold hj
    · cases hpos
      exact hself hj
  · intro q x hq hi
    rw [Source.file?, findFile_snoc hop.new] at hq
    split at hq
    · next he =>
      cases hq
      subst he
      exact hself hi
    · next he =>
      show start q x.inode ≤ _
      rw [hother _ _ fun heq => he (congrArg Prod.fst heq)]
      exact hH.reader q x hq hi

theorem claims_forget {q : Str} {i : Inode} {o : Nat}
    (h : (System.cursors { s with src, pos := s.pos.forget p }).Claims q i o) :
    s.cursors.Claims q i o := by
  refine Cursors.Claims.of_less (fun r x hx => ?_) h
  rw [Positions.forget_files] at hx
  exact Cursors.set_none_eq_some hx

theorem history_source (hI : Inv cfg s) (hH : History s) (hup : s.up = true)
    (hm : SourceMove cfg s.env s.pos s.src src effect) (h : s.apply src effect = some s') :
    History s' := by
  cases hm.moves with
  | quiet src hfiles =>
    cases h
    refine { hH with reader := ?_ }
    intro p tf' hp hi
    obtain ⟨tf, htf, hinode, hoff⟩ := hfiles p tf' hp
    rw [hinode] at hi ⊢
    rw [hoff ((hI.followed p tf htf).2.2 hi).le]
    exact hH.reader p tf htf hi
  | register d tf resumed hc => exact hH.register hI hup hc h
  | forget =>
    cases h
    exact { hH with claims := fun q j o hcl hj => hH.claims q j o (claims_forget hcl) hj }
  | piece src tf tf' line bs hp hpath hinode hoff hfiles hbs hat =>
    refine hH.piece hI hp hpath hinode hoff hfiles (fun hi => (hat _ ?_).le) h
    exact fun _ _ _ _ hc => (hI.controlOk hc tf hp).2 hi

variable {pcfg : PipelineConfig φ ε} {a : Label φ ε}

theorem history_step (hI : Inv pcfg.source s) (hH : History s) (hs : Change pcfg s a s') :
    History s' := by
  cases hs with
  | source pick src effect s' hup hm happly => exact history_source hI hH hup hm happly
  | agent a pos snap saved control chan ship ran acked hup hc hran hcan hstop hack hcur =>
    have hqueue : ∀ sp, sp ∈ (System.cursors { s with
        pos, snap, saved, src := { s.src with control }, chan, ship, ran, acked }).queue →
        sp ∈ s.cursors.queue := by
      intro sp hsp
      rcases hcur with hcur | hcur
      · exact hcur ▸ hsp
      · exact hcur.mem_queue hsp
    refine { hH with acked := ?_, queued := fun sp hsp => hH.queued sp (hqueue sp hsp), claims := ?_ }
    · rcases hack with rfl | ⟨sp, hsp, rfl⟩
      · exact hH.acked
      · exact forall_mem_snoc.mpr ⟨hH.acked, hH.queued sp hsp⟩
    · intro p i o hcl
      rcases hcur with hcur | hcur
      · exact hH.claims p i o (hcur ▸ hcl)
      · exact hH.claims p i o (hcur.claims hcl)
  | around a env truncated hback htr hdata =>
    have halive : ∀ i, i ∉ truncated → i ∉ s.truncated := by
      rcases htr with rfl | ⟨i, -, rfl, -⟩
      · exact fun j hj => hj
      · exact fun j hj hm => hj (mem_cons_of_mem i hm)
    refine { hH with within := ?_, begun := ?_, claims := ?_, reader := ?_ }
    · intro x hx hi
      obtain ⟨more, hmore⟩ := hdata _ hi
      have := hH.within x hx (halive _ hi)
      rw [hmore, length_append]
      omega
    · exact fun sp hsp hi => hH.begun sp hsp (halive _ hi)
    · exact fun p i o hcl hi => hH.claims p i o hcl (halive _ hi)
    · exact fun p tf hp hi => hH.reader p tf hp (halive _ hi)
  | crash =>
    exact { hH with
      queued := fun sp hsp => nomatch hsp
      mine := fun hno => nomatch hno
      claims := fun p i o hcl => hH.claims p i o (cursors_boots.claims hcl)
      reader := fun p tf hp => nomatch hp }
  | restart =>
    have hnone : ∀ sp, (s.boot + 1, sp) ∉ s.sent := by
      intro sp hsp
      have := hH.tags _ (.inl hsp)
      simp only at this
      omega
    refine { hH with
      tags := fun x hx => Nat.le_succ_of_le (hH.tags x hx)
      queued := fun sp hsp => nomatch hsp
      mine := fun _ sp hsp => absurd hsp (hnone sp)
      begun := fun sp hsp => absurd hsp (hnone sp)
      claims := fun p i o hcl => hH.claims p i o (cursors_boots.claims hcl)
      reader := fun p tf hp => nomatch hp }

/-! ## How the history grows -/

/-- What one step adds: the spans sent are of this process and of files it has opened. -/
structure Grown (s s' : System φ ε) : Prop where
  sent : ∀ x ∈ s.sent, x ∈ s'.sent
  acked : ∀ x ∈ s.acked, x ∈ s'.acked
  skipped : ∀ x ∈ s.skipped, x ∈ s'.skipped
  truncated : ∀ i ∈ s.truncated, i ∈ s'.truncated
  new : ∀ x ∈ s'.sent, x ∈ s.sent ∨ x.1 = s'.boot ∧ s'.up = true ∧ (x.2.path, x.2.file) ∈ s'.mine

theorem grown_of_eq (hsent : s'.sent = s.sent) (hacked : s'.acked = s.acked)
    (hskipped : s'.skipped = s.skipped) (htr : s'.truncated = s.truncated) : Grown s s' := by
  constructor <;> simp_all

theorem grown_source (hI : Inv cfg s) (hup : s.up = true)
    (hm : SourceMove cfg s.env s.pos s.src src effect) (h : s.apply src effect = some s') :
    Grown s s' := by
  cases hm.moves with
  | quiet | register | forget => cases h; exact grown_of_eq rfl rfl rfl rfl
  | piece src tf tf' line n hp =>
    rcases apply_emit h with ⟨-, rfl⟩ | ⟨e, he, rfl⟩
    · exact { grown_of_eq (s := s) rfl rfl rfl rfl with
        skipped := fun _ h => mem_append_left _ h }
    · refine { grown_of_eq (s := s) rfl rfl rfl rfl with
        sent := fun _ h => mem_append_left _ h, new := ?_ }
      exact forall_mem_snoc.mpr ⟨fun _ => .inl, .inr ⟨rfl, hup, (hI.followed tf.path tf hp).1⟩⟩

theorem Change.grown (hI : Inv pcfg.source s) (h : Change pcfg s a s') : Grown s s' := by
  cases h with
  | source pick src effect s' hup hm happly => exact grown_source hI hup hm happly
  | agent a pos snap saved control chan ship ran acked hup hc hran hcan hstop hack =>
    refine { grown_of_eq (s := s) rfl rfl rfl rfl with acked := fun x hx => ?_ }
    rcases hack with rfl | ⟨sp, -, rfl⟩
    · exact hx
    · exact mem_append_left _ hx
  | around a env truncated hback htr =>
    refine { grown_of_eq (s := s) rfl rfl rfl rfl with truncated := fun j hj => ?_ }
    rcases htr with rfl | ⟨i, -, rfl, -⟩
    · exact hj
    · exact mem_cons_of_mem i hj
  | crash | restart => exact grown_of_eq rfl rfl rfl rfl

end YominsAgent.Logs
