import YominsAgent.Logs.Rounds

/- What a restart finds of the lines in flight.

   Every byte that an earlier process has emitted was acknowledged or passed over, or the
   file is read from before it on: a process that opens the file resumes at a sound
   position, or begins at its start. So once the reader is past the byte, or has closed
   the file at its end, this process has emitted it (`Rereads`). This holds in every run in
   which the path leads to the inode, and has a saved position, when a process starts, and
   leads to it until the process has opened it (`stays`). -/
namespace YominsAgent.Logs
open Go Lib List

variable {φ ε : Type}

namespace System

/-- The byte was acknowledged or passed over. -/
def Done (s : System φ ε) (p : Str) (i : Inode) (b : Nat) : Prop :=
  ∃ x, (x ∈ s.acked ∨ x ∈ s.skipped) ∧ x.2.Has p i b

/-- It was, or this process has emitted it. -/
def Handled (s : System φ ε) (p : Str) (i : Inode) (b : Nat) : Prop :=
  s.Done p i b ∨ ∃ sp, (s.boot, sp) ∈ s.sent ∧ sp.Has p i b

/-- Some byte of the file was emitted, and neither acknowledged nor passed over. -/
def owes (s : System φ ε) (p : Str) (i : Inode) : Bool :=
  !s.truncated.contains i && s.sent.any fun x => (List.range x.2.hi).any fun b =>
    decide (x.2.Has p i b) && (s.acked ++ s.skipped).all fun y => !decide (y.2.Has p i b)

end System

/-- The path leads to the inode, a regular file that can be opened. -/
def stands (fs : FileSystem φ) (w : φ) (p : Str) (i : Inode) : Bool :=
  fs.stat w p == some (i, true) && fs.readable w p

/-- As long as lines of the file are in flight, a process starts only while the path
leads to the inode and has a saved position, and the path is not taken away before
the process has opened it. -/
def stays (cfg : PipelineConfig φ ε) (p : Str) (i : Inode) (s : System φ ε) : Label φ ε → Bool
  | .restart =>
    !s.owes p i || stands cfg.source.fs s.env.world p i && (s.saved.files p).isSome
  | .world w =>
    !(s.up && s.owes p i) || s.mine.contains (p, i) || stands cfg.source.fs w p i
  | _ => true

/-- Of a file that was read to its end, this much is there: what the `read` under way
has yet to hand out reaches up to it. -/
def ReadOut : SourceControl → TailedFile → Nat → Prop
  | .emitting q lines rest n _, tf, len =>
    q = tf.path → n < readChunk → len ≤ tf.offset + (joinLines lines ++ rest).length
  | .closing q n _, tf, len => q = tf.path → n < readChunk → len ≤ tf.offset + tf.part.length
  | _, _, _ => True

/-- The file is read from before the byte on, and is not closed before it is read. -/
structure Rereads (s : System φ ε) (p : Str) (i : Inode) (b : Nat) : Prop where
  begun : s.start p i ≤ b
  reading : ∀ tf, s.src.file? p = some tf → tf.inode = i → ReadOut s.src.control tf (b + 1)
  closed : s.ship.cancelled = false → (p, i) ∈ s.mine →
    (∀ tf, s.src.file? p = some tf → tf.inode ≠ i) → s.Handled p i b

/-- Where every byte is that the processes before this one have emitted, and that a
path this process has yet to open is in place and has a position. -/
structure Restarts (cfg : PipelineConfig φ ε) (p : Str) (i : Inode) (s : System φ ε) : Prop where
  bytes : i ∉ s.truncated → ∀ x ∈ s.sent, x.1 < s.boot → ∀ b, x.2.Has p i b →
    s.Done p i b ∨ Rereads s p i b
  fresh : ∀ d tf, s.src.control = .registering d tf false → tf.path = p → tf.inode = i →
    s.owes p i = true → tf.offset = 0
  path : s.up = true → s.owes p i = true → (p, i) ∉ s.mine →
    stands cfg.source.fs s.env.world p i = true ∧ (s.pos.files p).isSome = true

variable {cfg : SourceConfig φ ε} {s s' : System φ ε} {src : Source} {p : Str} {i : Inode} {b : Nat}
  {x : Nat × Span Str Inode} {tf : TailedFile} {d : Discovery} {effect : Effect ε}

theorem owes_iff : s.owes p i = true ↔
    i ∉ s.truncated ∧ ∃ x ∈ s.sent, ∃ b, x.2.Has p i b ∧ ¬ s.Done p i b := by
  simp only [System.owes, System.Done, Bool.and_eq_true, Bool.not_eq_true', contains_eq_mem,
    decide_eq_false_iff_not, any_eq_true, mem_range, decide_eq_true_eq,
    all_eq_true, mem_append, not_exists, not_and]
  constructor
  · rintro ⟨hi, x, hx, b, -, hb, hall⟩
    exact ⟨hi, x, hx, b, hb, hall⟩
  · rintro ⟨hi, x, hx, b, hb, hall⟩
    exact ⟨hi, x, hx, b, hb.2.2.2, hb, hall⟩

theorem stands_leads {fs : FileSystem φ} {w : φ} (h : stands fs w p i = true) : Leads fs w p i := by
  have hstat : fs.stat w p = some (i, true) := by
    simpa using (Bool.and_eq_true_iff.mp h).1
  rw [Leads, hstat]
  rfl

/-! ## What a reader has handed out -/

theorem joinLines_cons_length (l : Bytes) (lines : List Bytes) (rest : Bytes) :
    (joinLines (l :: lines) ++ rest).length = l.length + 1 + (joinLines lines ++ rest).length := by
  simp only [joinLines, flatMap_cons, length_append, length_singleton]
  omega

/-- A `read` that gets less than it asks for has come to the end of the file. -/
theorem reaches_fill {data : Bytes} {lines : List Bytes} {rest : Bytes}
    (hsplit : splitLines (tf.part ++ fill data tf) = (lines, rest))
    (hat : At data tf.offset tf.part) (hn : (fill data tf).length < readChunk) :
    tf.offset + (joinLines lines ++ rest).length = data.length := by
  have hjoin := joinLines_splitLines (tf.part ++ fill data tf)
  rw [hsplit] at hjoin
  have hle := hat.le
  rw [hjoin, length_append]
  unfold fill at hn ⊢
  rw [length_take, length_drop] at hn ⊢
  omega

/-- A `read` that comes to the end of a file hands out all of it. -/
theorem readOut_move (hI : Inv cfg s) {len : Nat}
    (hm : SourceMove cfg s.env s.pos s.src src effect) (htf : src.file? p = some tf)
    (hi : tf.inode ∉ s.truncated) (hlen : len ≤ (s.env.data tf.inode).length)
    (h : ∀ x, s.src.file? p = some x → x.inode = tf.inode → x.gone = tf.gone →
      ReadOut s.src.control x len) : ReadOut src.control tf len := by
  -- the file being read is the one of the path
  have hself : ∀ {q : Str} {x x' : TailedFile} {control : SourceControl}, s.src.file? q = some x →
      ({ s.src with files := s.src.put x', control } : Source).file? p = some tf →
      x'.path = x.path → q = tf.path → q = p ∧ tf = x' := by
    intro q x x' control hq htf hpath hname
    obtain rfl : q = p := hname.trans (findFile_path htf)
    exact ⟨rfl, Option.some.inj (htf.symm.trans (findFile_put_self hq hpath))⟩
  cases hm with
  | fill q todo x lines rest hc hq hsplit =>
    intro hname hn
    obtain ⟨rfl, rfl⟩ := hself hq htf rfl hname
    exact hlen.trans (reaches_fill hsplit ((hI.followed q x hq).2.2 hi) hn).ge
  | line q l lines rest n todo x hc hq =>
    intro hname hn
    obtain ⟨rfl, rfl⟩ := hself hq htf rfl hname
    have hle := h x hq rfl rfl
    rw [hc] at hle
    have hle' := hle hname hn
    rw [joinLines_cons_length] at hle'
    show len ≤ x.offset + (l.length + 1) + _
    omega
  | rest q rest n todo x partAt hc hq =>
    intro hname hn
    obtain ⟨rfl, rfl⟩ := hself hq htf rfl hname
    have hle := h x hq rfl rfl
    rw [hc] at hle
    have hle' : len ≤ x.offset + rest.length := hle hname hn
    show len ≤ x.offset + rest.length + x.part.length
    omega
  | keep q rest part n todo x partAt hc hq hpart =>
    intro hname hn
    obtain ⟨rfl, rfl⟩ := hself hq htf rfl hname
    have hle := h x hq rfl rfl
    rw [hc] at hle
    have hle' : len ≤ x.offset + rest.length := hle hname hn
    show len ≤ x.offset + part.length
    rcases hpart with ⟨rfl, -⟩ | ⟨rfl, rfl⟩
    · exact hle'
    · rw [(hI.controlOk hc x hq).1]
      exact hle'
  | shut =>
    simp only
    split <;> trivial
  | _ => trivial

theorem handled_of_reader (hS : s.cursors.Sound) (hH : History s) (hgo : s.ship.cancelled = false)
    (hp : s.src.file? p = some tf) (hi : tf.inode ∉ s.truncated) (hlo : s.start p tf.inode ≤ b)
    (hhi : b < tf.offset) : s.Handled p tf.inode b := by
  obtain ⟨sp, hsp, hb⟩ := hS.head p tf.inode tf.offset (head_eq hgo hp) hi b hlo hhi
  rcases hsp with (hack | hskip) | hqueue
  · obtain ⟨x, hx, rfl⟩ := mem_map.mp hack
    exact .inl ⟨x, .inl hx, hb⟩
  · obtain ⟨x, hx, rfl⟩ := mem_map.mp hskip
    exact .inl ⟨x, .inr hx, hb⟩
  · exact .inr ⟨sp, hH.queued sp hqueue, hb⟩

/-! ## What the source changes of the files this process has opened -/

inductive Mined (s : System φ ε) : System φ ε → Prop where
  | same (s' : System φ ε) (hmine : s'.mine = s.mine) (hopens : s'.opens = s.opens)
      (hstart : s'.start = s.start)
      (hpos : ∀ p, (∀ todo, s.src.control ≠ .forgetting p todo) →
        s'.pos.files p = s.pos.files p) : Mined s s'
  | register (d : Discovery) (tf : TailedFile) (resumed : Bool)
      (hc : s.src.control = .registering d tf resumed) :
      Mined s { s with
        src := { s.src with files := s.src.files ++ [tf], control := .discovering d }
        pos := s.pos.setFile tf.path (tf.inode, tf.offset)
        opens := (tf.path, tf.inode) :: s.opens, mine := (tf.path, tf.inode) :: s.mine
        start := if resumed then s.start else Cursors.set₂ s.start tf.path tf.inode tf.offset }

theorem mined_source (hm : SourceMove cfg s.env s.pos s.src src effect)
    (happly : s.apply src effect = some s') : Mined s s' := by
  cases hm.moves with
  | quiet => cases happly; exact .same _ rfl rfl rfl fun _ _ => rfl
  | register d tf resumed hc => cases happly; exact .register d tf resumed hc
  | forget q todo hc =>
    cases happly
    refine .same _ rfl rfl rfl fun p hne => ?_
    show (s.pos.forget q).files p = _
    rw [Positions.forget_files]
    refine if_neg ?_
    rintro rfl
    exact hne todo hc
  | piece =>
    rcases apply_emit happly with ⟨-, rfl⟩ | ⟨e, -, rfl⟩ <;>
      exact .same _ rfl rfl rfl fun _ _ => rfl

/-- A file that is not followed after a step was not followed before, or was shut by the
step, read to its end. -/
theorem closed_source (hI : Inv cfg s) (hm : SourceMove cfg s.env s.pos s.src src effect)
    (happly : s.apply src effect = some s') (hmine : (p, i) ∈ s'.mine)
    (hnot : ∀ tf, src.file? p = some tf → tf.inode ≠ i) :
    (p, i) ∈ s.mine ∧ s'.start p i = s.start p i ∧
      ((∀ tf, s.src.file? p = some tf → tf.inode ≠ i) ∨
        ∃ tf, s.src.file? p = some tf ∧ tf.inode = i ∧ tf.gone = true ∧
          ∀ len, ReadOut s.src.control tf len → len ≤ tf.offset) := by
  have hnew : ∀ d x resumed, s.src.control = .registering d x resumed →
      s.src.file? x.path = none := fun d x resumed hc => (hI.controlOk hc).1.new
  -- the file is not the one just opened
  have hold : (p, i) ∈ s.mine ∧ s'.start p i = s.start p i := by
    have hsrc := (apply_frame happly).src
    cases mined_source hm happly with
    | same s' hsame _ hstart => exact ⟨hsame ▸ hmine, by rw [hstart]⟩
    | register d tf resumed hc =>
      have hfind : src.file? tf.path = some tf := by
        rw [← hsrc, Source.file?, findFile_snoc (hnew d tf resumed hc), if_pos rfl]
      have hne : ¬ (p = tf.path ∧ i = tf.inode) := by
        rintro ⟨rfl, rfl⟩
        exact hnot tf hfind rfl
      refine ⟨(mem_cons.mp hmine).resolve_left fun heq => hne (Prod.mk.inj heq), ?_⟩
      show (if resumed then s.start else _) p i = _
      split
      · rfl
      · exact if_neg hne
  refine ⟨hold.1, hold.2, ?_⟩
  by_cases hfol : ∃ tf, s.src.file? p = some tf ∧ tf.inode = i
  · obtain ⟨tf, hp, rfl⟩ := hfol
    rcases hm.followed hnew hp with ⟨tf', hp', hinode, -⟩ | ⟨n, todo, hc, hd, -⟩
    · exact absurd hinode (hnot tf' hp')
    · simp only [drained, Bool.and_eq_true, decide_eq_true_eq, beq_iff_eq] at hd
      obtain ⟨⟨hgone, hn⟩, hpart⟩ := hd
      refine .inr ⟨tf, hp, rfl, hgone, fun len hread => ?_⟩
      rw [hc] at hread
      have hend := hread (findFile_path hp).symm hn
      omega
  · exact .inl fun tf hp hinode => hfol ⟨tf, hp, hinode⟩

/-! ## Every step -/

variable {pcfg : PipelineConfig φ ε} {a : Label φ ε}

theorem Grown.done (hg : Grown s s') (h : s.Done p i b) : s'.Done p i b := by
  obtain ⟨x, hx, hb⟩ := h
  exact ⟨x, hx.imp (hg.acked x) (hg.skipped x), hb⟩

theorem Grown.handled (hg : Grown s s') (hboot : s'.boot = s.boot) (h : s.Handled p i b) :
    s'.Handled p i b := by
  refine h.imp hg.done fun ⟨sp, hsp, hb⟩ => ⟨sp, ?_, hb⟩
  rw [hboot]
  exact hg.sent _ hsp

theorem Grown.owes (hg : Grown s s') (hmine : (p, i) ∉ s'.mine) (h : s'.owes p i = true) :
    s.owes p i = true := by
  obtain ⟨hi, x, hx, b, hb, hnot⟩ := owes_iff.mp h
  refine owes_iff.mpr ⟨fun hm => hi (hg.truncated i hm), x, ?_, b, hb, mt hg.done hnot⟩
  rcases hg.new x hx with hx | ⟨-, -, hopen⟩
  · exact hx
  · rw [hb.1, hb.2.1] at hopen
    exact absurd hopen hmine

theorem Rereads.source (hI : Inv cfg s) (hS : s.cursors.Sound) (hH : History s) (hup : s.up = true)
    (hi : i ∉ s.truncated) (hlen : b < (s.env.data i).length)
    (hfresh : ∀ d tf, s.src.control = .registering d tf false → tf.path = p → tf.inode = i →
      tf.offset = 0) (h : Rereads s p i b) (hm : SourceMove cfg s.env s.pos s.src src effect)
    (happly : s.apply src effect = some s') : Rereads s' p i b := by
  have hf := apply_frame happly
  refine ⟨?_, ?_, ?_⟩
  · cases mined_source hm happly with
    | same s' _ _ hstart => rw [hstart]; exact h.begun
    | register d tf resumed hc =>
      cases resumed with
      | true => exact h.begun
      | false =>
        show Cursors.set₂ s.start tf.path tf.inode tf.offset p i ≤ b
        unfold Cursors.set₂
        split
        · next he => rw [hfresh d tf hc he.1.symm he.2.symm]; exact Nat.zero_le b
        · exact h.begun
  · rw [hf.src]
    rintro tf hp rfl
    exact readOut_move hI hm hp hi hlen fun x hx hinode _ => h.reading x hx hinode
  · rw [hf.src, hf.ship]
    intro hgo hmine hnot
    have hg := grown_source hI hup hm happly
    obtain ⟨hmine, -, hold | ⟨tf, hp, rfl, -, hend⟩⟩ := closed_source hI hm happly hmine hnot
    · exact hg.handled hf.boot (h.closed hgo hmine hold)
    · exact hg.handled hf.boot (handled_of_reader hS hH hgo hp hi h.begun
        (hend _ (h.reading tf hp rfl)))

/-- Where the bytes are after a step. -/
theorem Restarts.bytes_step (hI : Inv pcfg.source s) (hS : s.cursors.Sound) (hH : History s)
    (hR : Restarts pcfg p i s) (hstep : Change pcfg s a s') (hi' : i ∉ s'.truncated)
    (hx' : x ∈ s'.sent) (hk : x.1 < s'.boot) (hb : x.2.Has p i b) :
    s'.Done p i b ∨ Rereads s' p i b := by
  have hg := hstep.grown hI
  have hi : i ∉ s.truncated := fun hm => hi' (hg.truncated i hm)
  have hx : x ∈ s.sent := by
    rcases hg.new x hx' with hx | ⟨hboot, -⟩
    · exact hx
    · omega
  -- what was acknowledged or passed over stays so
  have hold : x.1 < s.boot → (¬ s.Done p i b → Rereads s p i b → Rereads s' p i b) →
      s'.Done p i b ∨ Rereads s' p i b := by
    intro hk hgo
    by_cases hdone : s.Done p i b
    · exact .inl (hg.done hdone)
    · exact .inr (hgo hdone ((hR.bytes hi x hx hk b hb).resolve_left hdone))
  cases hstep with
  | source pick src effect s' hup hm happly =>
    refine hold ((apply_frame happly).boot ▸ hk) fun hdone h => ?_
    have howes : s.owes p i = true := owes_iff.mpr ⟨hi, x, hx, b, hb, hdone⟩
    have hlen : b < (s.env.data i).length := by
      obtain ⟨-, rfl, -, hhi⟩ := hb
      exact hhi.trans_le (hH.within x hx hi)
    exact h.source hI hS hH hup hi hlen (fun d tf hc hp hin => hR.fresh d tf hc hp hin howes) hm
      happly
  | agent a pos snap saved control chan ship ran acked hup hc hran hcan =>
    refine hold hk fun _ h => ⟨h.begun, fun tf hp hin => ?_, fun hgo hmine hnot => ?_⟩
    · rcases hc with rfl | ⟨rfl, -⟩
      · exact h.reading tf hp hin
      · trivial
    · refine hg.handled rfl (h.closed ?_ hmine hnot)
      rcases hcan with heq | ⟨-, hyes⟩
      · exact heq ▸ hgo
      · cases hyes.symm.trans hgo
  | around => exact hold hk fun _ h => ⟨h.begun, h.reading, h.closed⟩
  | crash => exact hold hk fun _ h => ⟨h.begun, nofun, nofun⟩
  | restart =>
    -- the process that has ended had read the file from before what it emitted
    rcases Nat.lt_or_eq_of_le (hH.tags x (.inl hx)) with hlt | heq
    · exact hold hlt fun _ h => ⟨h.begun, nofun, nofun⟩
    · refine .inr ⟨?_, nofun, nofun⟩
      obtain ⟨rfl, rfl, hlo, -⟩ := hb
      exact (hH.begun x.2 (heq ▸ hx) hi).trans hlo

/-- A file that is owed and does not resume begins at its start: its path has a position. -/
theorem Restarts.fresh_step (hI : Inv pcfg.source s) (hR : Restarts pcfg p i s)
    (hstep : Change pcfg s a s') (hc' : s'.src.control = .registering d tf false)
    (hp : tf.path = p) (hin : tf.inode = i) (howes' : s'.owes p i = true) : tf.offset = 0 := by
  have hg := hstep.grown hI
  subst hp hin
  cases hstep with
  | source pick src effect s' hup hm happly =>
    rw [(apply_frame happly).src] at hc'
    cases hm with
    | choose d q j real size hc =>
      cases happly
      obtain ⟨-, rfl, hres⟩ := SourceControl.registering.inj hc'
      have hnot : (q, j) ∉ s.mine := (hI.controlOk hc).1.notMine
      obtain ⟨⟨k, o⟩, hko⟩ :=
        Option.isSome_iff_exists.mp (hR.path hup (hg.owes hnot howes') hnot).2
      simp only [show s.pos.files q = some (k, o) from hko] at hres ⊢
      split at hres
      · cases hres
      · next hne => rw [if_neg hne]
    | shut =>
      simp only at hc'
      split at hc' <;> cases hc'
    | _ => cases hc'
  | agent a pos snap saved control chan ship ran acked hup hc =>
    rcases hc with rfl | ⟨rfl, -⟩
    · exact hR.fresh d tf hc' rfl rfl (hg.owes (hI.controlOk hc').1.notMine howes')
    · cases hc'
  | around => exact hR.fresh d tf hc' rfl rfl (hg.owes (hI.controlOk hc').1.notMine howes')
  | crash | restart => cases hc'

/-- A step of the source leaves alone the position of a path in place that this process
has not opened. -/
theorem pos_source (hI : Inv cfg s) (hopen : (p, i) ∈ s.opens) (hmine : (p, i) ∉ s'.mine)
    (hold : (p, i) ∉ s.mine) (hleads : Leads cfg.fs s.env.world p i) {effect : Effect ε}
    (hm : SourceMove cfg s.env s.pos s.src src effect) (happly : s.apply src effect = some s') :
    s'.pos.files p = s.pos.files p := by
  have hun : s.Untouched p := hI.old p i hopen hold hleads
  cases hm.moves with
  | quiet => cases happly; rfl
  | register d tf resumed hc =>
    have hctl := hI.controlOk hc
    cases happly
    refine Positions.setFile_other ?_
    rintro rfl
    -- it would have been opened on another inode than it leads to
    have hne : i ≠ tf.inode := by
      rintro rfl
      exact hmine mem_cons_self
    exact hctl.1.left i hne hopen hleads
  | forget q todo hc =>
    have hctl := hI.controlOk hc
    cases happly
    obtain ⟨j, hj⟩ := hctl
    show (s.pos.forget q).files p = _
    rw [Positions.forget_files]
    refine if_neg ?_
    rintro rfl
    exact hun j hj
  | piece =>
    rcases apply_emit happly with ⟨-, rfl⟩ | ⟨e, he, rfl⟩
    · rfl
    · rfl

theorem Restarts.path_step (hI : Inv pcfg.source s) (hH : History s) (hR : Restarts pcfg p i s)
    (hstays : stays pcfg p i s a = true) (hstep : Change pcfg s a s') (hup' : s'.up = true)
    (howes' : s'.owes p i = true) (hmine' : (p, i) ∉ s'.mine) :
    stands pcfg.source.fs s'.env.world p i = true ∧ (s'.pos.files p).isSome = true := by
  have hg := hstep.grown hI
  have howes := hg.owes hmine' howes'
  obtain ⟨-, x, hx, b, hb, -⟩ := owes_iff.mp howes
  have hopen : (p, i) ∈ s.opens := by
    obtain ⟨rfl, rfl, -⟩ := hb
    exact hH.opens x hx
  cases hstep with
  | source pick src effect s' hup hm happly =>
    have hf := apply_frame happly
    have hmine : (p, i) ∉ s.mine := fun hm => hmine' (hf.mine _ hm)
    obtain ⟨hst, hpos⟩ := hR.path hup howes hmine
    rw [hf.env, pos_source hI hopen hmine' hmine (stands_leads hst) hm happly]
    exact ⟨hst, hpos⟩
  | agent a pos snap saved control chan ship ran acked hup hc hran hcan hstop hack hcur =>
    obtain ⟨hst, hpos⟩ := hR.path hup howes hmine'
    have hun : s.Untouched p := hI.old p i hopen hmine' (stands_leads hst)
    have ho : Others pcfg.source s { s with
        pos, snap, saved, src := { s.src with control }, chan, ship, ran, acked } :=
      Others.of_passive rfl hcur
    have hsame := (ho.uniform p (hI.untouched p hun)
      fun sp hsp he => hun sp.file (he ▸ hI.queued sp hsp)).2
    refine ⟨hst, ?_⟩
    rw [hsame]
    exact hpos
  | around a env truncated hback htr hdata hworld =>
    obtain ⟨hst, hpos⟩ := hR.path hup' howes hmine'
    refine ⟨?_, hpos⟩
    rcases hworld with heq | rfl
    · show stands _ env.world p i = true
      rw [heq]
      exact hst
    · replace hup' : s.up = true := hup'
      have hgo : (p, i) ∈ s.mine ∨ stands pcfg.source.fs env.world p i = true := by
        simpa [stays, hup', howes] using hstays
      exact hgo.resolve_left hmine'
  | crash => cases hup'
  | restart =>
    have hgo : stands pcfg.source.fs s.env.world p i = true ∧ (s.saved.files p).isSome = true := by
      simpa [stays, howes] using hstays
    exact hgo

/-- Every step that keeps to the condition keeps the invariant. -/
theorem restarts_step (hI : Inv pcfg.source s) (hs : s.cursors.Sound) (hH : History s)
    (hR : Restarts pcfg p i s) (hstays : stays pcfg p i s a = true)
    (hstep : Change pcfg s a s') : Restarts pcfg p i s' where
  bytes hi _ hx hk _ hb := hR.bytes_step hI hs hH hstep hi hx hk hb
  fresh _ _ hc hp hin howes := hR.fresh_step hI hstep hc hp hin howes
  path hup howes hmine := hR.path_step hI hH hstays hstep hup howes hmine

theorem restarts_init (env : Env φ) : Restarts pcfg p i (System.init env : System φ ε) where
  bytes _ _ hx := nomatch hx
  fresh _ _ hc := nomatch hc
  path hup := nomatch hup

end YominsAgent.Logs
