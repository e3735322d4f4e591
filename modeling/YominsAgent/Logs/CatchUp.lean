import YominsAgent.Logs.Restart

/- The source catches up: as long as a followed file has bytes in front of its reader, one round of
   the agent on its own reads some of them, or hands out the line that was waiting for its end
   (`Good.readRound`), so the reader gets past every byte that is there (`Good.catchUp`). A path
   that is in place and wanted is opened in the next discovery (`Good.reopen`). -/
namespace YominsAgent.Logs
open Go Lib Relation List

variable {φ ε : Type} {cfg : PipelineConfig φ ε} {U : List Str} {p : Str} {i : Inode}
  {s s' : System φ ε} {src : Source} {n hi : Nat} {todo found : List Str} {tf tf' : TailedFile}
  {now : Int} {w : φ} {c : SourceConfig φ ε} {d : Discovery} {q : Str}

theorem gets_wait (cfg : PipelineConfig φ ε) (s : System φ ε) (d : Nat) : ∃ s', Gets cfg s s' ∧ s'.src = s.src ∧
    s'.env = { s.env with now := s.env.now + d } ∧ s'.mine = s.mine := by
  have hown : Own ownLabel (step cfg) s { s with env := { s.env with now := s.env.now + d } } :=
    ⟨.tick d, rfl, rfl⟩
  exact ⟨_, .single hown, rfl, rfl, rfl⟩

/-! ## One `read` -/

/-- What a `read` makes of a file whose content, from its offset on, is `data`. -/
structure ReadTo (now : Int) (data : Bytes) (tf tf' : TailedFile) : Prop where
  path : tf'.path = tf.path
  inode : tf'.inode = tf.inode
  total : tf'.offset + tf'.part.length = tf.offset + data.length
  forth : tf.offset ≤ tf'.offset
  /-- A line that has waited too long is not kept. -/
  flushed : overdue now tf = true → tf'.part = []

theorem readTo_rest (tf : TailedFile) (now : Int) (rest : Bytes) (hpart : tf.part = []) :
    ReadTo now rest tf (readRest cfg.source now tf rest).1 := by
  unfold readRest emit
  split
  · exact ⟨rfl, rfl, by simp [hpart], Nat.le_add_right _ _, fun _ => hpart⟩
  · split
    · split
      · exact ⟨rfl, rfl, by simp [hpart], Nat.le_add_right _ _, fun _ => hpart⟩
      · next hno =>
        refine ⟨rfl, rfl, rfl, Nat.le_refl _, fun hover => ?_⟩
        simp [hover] at hno
    · next hnone =>
      have hrest : rest = [] := length_eq_zero_iff.mp (by omega)
      exact ⟨rfl, rfl, by simp [hpart, hrest], Nat.le_refl _, fun _ => hpart⟩

theorem Good.emitAll {rest : Bytes} (lines : List Bytes) :
    ∀ {s : System φ ε} {tf : TailedFile}, Good cfg U s →
      s.src.control = .emitting p lines rest n todo → s.src.file? p = some tf →
      ∃ s' tf', Gets cfg s s' ∧ s'.env = s.env ∧ s'.src.control = .closing p n todo ∧
        s'.src.file? p = some tf' ∧ ReadTo s.env.now (joinLines lines ++ rest) tf tf' := by
  induction lines with
  | nil =>
    intro s tf h hc hp
    obtain rfl := findFile_path hp
    have hctl := h.inv.controlOk hc
    have hpart : tf.part = [] := (hctl tf hp).1
    have hstep : sourceStep cfg.source s.env s.pos [] s.src =
        some (emitNext cfg.source s.env tf [] rest n todo s.src) := by
      simp [sourceStep, hc, hp]
    obtain ⟨s', hr, hsrc, henv⟩ := h.act hstep
    have hread : ReadTo s.env.now rest tf (readRest cfg.source s.env.now tf rest).1 :=
      readTo_rest tf s.env.now rest hpart
    refine ⟨s', _, hr, henv, ?_, ?_, hread⟩
    · rw [hsrc]
    · rw [hsrc]
      exact findFile_put_self hp hread.path
  | cons l lines ih =>
    intro s tf h hc hp
    obtain rfl := findFile_path hp
    have hstep : sourceStep cfg.source s.env s.pos [] s.src =
        some (emitNext cfg.source s.env tf (l :: lines) rest n todo s.src) := by
      simp [sourceStep, hc, hp]
    obtain ⟨t, hr, hsrc, henv⟩ := h.act hstep
    have htc : t.src.control = .emitting tf.path lines rest n todo := by
      rw [hsrc]
    have htp : t.src.file? tf.path = some { tf with offset := tf.offset + (l.length + 1) } := by
      rw [hsrc]
      exact findFile_put_self hp rfl
    obtain ⟨s', tf', hr', henv', hc', hp', hread⟩ := ih (h.gets hr) htc htp
    refine ⟨s', tf', hr.trans hr', henv'.trans henv, hc', hp', hread.path, hread.inode, ?_, ?_, ?_⟩
    · rw [hread.total, joinLines_cons_length]
      show tf.offset + (l.length + 1) + _ = _
      omega
    · have hforth := hread.forth
      simp only at hforth
      omega
    · rw [henv] at hread
      exact hread.flushed

/-- The turn of a file in a round: it is rewound if it was cut, and read. -/
theorem Good.readTurn (h : Good cfg U s) {x : TailedFile}
    (hc : s.src.control = .reading (p :: todo)) (hp : s.src.file? p = some x)
    (hx : rewind (s.env.data x.inode).length x = tf) :
    ∃ s' tf', Gets cfg s s' ∧ s'.env = s.env ∧
      s'.src.control = .closing p (fill (s.env.data tf.inode) tf).length todo ∧
      s'.src.file? p = some tf' ∧
      ReadTo s.env.now (tf.part ++ fill (s.env.data tf.inode) tf) tf tf' := by
  have hstep1 : sourceStep cfg.source s.env s.pos [] s.src =
      some ({ s.src with files := s.src.put tf, control := .filling p todo }, .quiet) := by
    simp [sourceStep, hc, hp, hx]
  obtain ⟨t, hr, hsrc, henv⟩ := h.act hstep1
  have ht := h.gets hr
  have htc : t.src.control = .filling p todo := by rw [hsrc]
  have htp : t.src.file? p = some tf := by
    rw [hsrc]
    exact findFile_put_self hp (hx ▸ (rewind_same _ x).1)
  obtain ⟨lines, rest, hsplit⟩ : ∃ lines rest,
      splitLines (tf.part ++ fill (t.env.data tf.inode) tf) = (lines, rest) := ⟨_, _, rfl⟩
  have hstep2 : sourceStep cfg.source t.env t.pos [] t.src =
      some ({ t.src with
        files := t.src.put { tf with part := [] }
        control := .emitting p lines rest (fill (t.env.data tf.inode) tf).length todo },
        .quiet) := by
    simp [sourceStep, htc, htp, hsplit]
  obtain ⟨u, hr', husrc, huenv⟩ := ht.act hstep2
  have huc : u.src.control = .emitting p lines rest (fill (t.env.data tf.inode) tf).length todo := by
    rw [husrc]
  have hup : u.src.file? p = some { tf with part := [] } := by
    rw [husrc]
    exact findFile_put_self htp rfl
  obtain ⟨s', tf', hr'', henv'', hc', hp', hread⟩ := Good.emitAll lines (ht.gets hr') huc hup
  have hjoin := joinLines_splitLines (tf.part ++ fill (t.env.data tf.inode) tf)
  rw [hsplit] at hjoin
  rw [hjoin, huenv, henv] at hread
  rw [henv] at hc'
  exact ⟨s', tf', (hr.trans hr').trans hr'', henv''.trans (huenv.trans henv), hc', hp', hread.path,
    hread.inode, hread.total, hread.forth, hread.flushed⟩

theorem ReadTo.bounded {data : Bytes} (hread : ReadTo now (tf.part ++ fill data tf) tf tf')
    (hle : tf.offset + tf.part.length ≤ data.length) :
    tf'.offset + tf'.part.length ≤ data.length := by
  have htotal := hread.total
  have hfill : (fill data tf).length ≤ data.length - (tf.offset + tf.part.length) := by
    unfold fill
    rw [length_take, length_drop]
    omega
  rw [length_append] at htotal
  omega

/-! ## A round -/

/-- What a file still has in front of it, up to the byte `hi`; an unfinished line counts
less than one that is not read at all. -/
def TailedFile.left (hi : Nat) (tf : TailedFile) : Nat :=
  2 * (hi - tf.offset) + if tf.part = [] then 1 else 0

/-- A `read` that finds something, or hands out an overdue line, leaves less. -/
theorem ReadTo.left_lt {data : Bytes} (hread : ReadTo now (tf.part ++ fill data tf) tf tf')
    (hoff : tf.offset < hi) (hhi : hi ≤ data.length) (hover : tf.part ≠ [] → overdue now tf = true) :
    tf'.left hi < tf.left hi := by
  have htotal := hread.total
  have hforth := hread.forth
  rw [length_append] at htotal
  unfold TailedFile.left
  by_cases hpart : tf.part = []
  · -- something is read
    have hfill : 1 ≤ (fill data tf).length := by
      unfold fill
      rw [hpart, length_nil, length_take, length_drop]
      have : 0 < readChunk := by decide
      omega
    rw [hpart, length_nil] at htotal
    by_cases hpart' : tf'.part = []
    · rw [hpart', length_nil] at htotal
      simp only [hpart, hpart', if_true]
      omega
    · simp only [hpart, hpart', if_true, if_false]
      omega
  · -- the line that has waited goes out
    have hnil := hread.flushed (hover hpart)
    have hlen : 0 < tf.part.length := length_pos_iff.mpr hpart
    rw [hnil, length_nil] at htotal
    simp only [hpart, hnil, if_true, if_false]
    omega

/-- Long enough after an unfinished line was kept it is overdue. -/
theorem overdue_wait (tf : TailedFile) (now : Int) : ∃ d : Nat, tf.partAt.isSome = true →
    overdue (now + d) tf = true := by
  cases hat : tf.partAt with
  | none => exact ⟨0, nofun⟩
  | some t =>
    refine ⟨(t + partialFlush + 1 - now).toNat, fun _ => ?_⟩
    have hle := Int.self_le_toNat (t + partialFlush + 1 - now)
    simp only [overdue, hat, decide_eq_true_eq]
    omega

/-- From the start of a round to the turn of a followed file in it. If its path leads
elsewhere by then it is marked gone. -/
theorem Good.toTurn (h : Good cfg U s) (hidle : s.src.control = .idle)
    (hp : s.src.file? p = some tf) : ∃ s' todo tf', Gets cfg s s' ∧ s'.env = s.env ∧
      s'.src.control = .reading (p :: todo) ∧ s'.src.file? p = some tf' ∧ tf.Same tf' ∧
      (¬ Leads cfg.source.fs s.env.world p tf.inode → tf'.gone = true) := by
  have hstep : sourceStep cfg.source s.env s.pos [] s.src =
      some (scan cfg.source s.env s.src, .quiet) := by
    simp [sourceStep, hidle]
  obtain ⟨t, hr, hsrc, henv⟩ := h.act hstep
  have ht := h.gets hr
  let Away : Prop := ¬ Leads cfg.source.fs s.env.world p tf.inode
  let Q (src : Source) : Prop := ToRead p src.control ∧ (∀ todo, src.control ≠ .reading (p :: todo)) ∧
    ∃ tf', src.file? p = some tf' ∧ tf.Same tf' ∧
      (Away → Checked p src.control → tf'.gone = true)
  let P (src : Source) : Prop := ∃ todo tf', src.control = .reading (p :: todo) ∧
    src.file? p = some tf' ∧ tf.Same tf' ∧ (Away → tf'.gone = true)
  have hpaths : p ∈ s.src.paths := mem_paths.mpr (by rw [hp]; rfl)
  have hstart : Q t.src := by
    rw [hsrc]
    unfold scan
    split
    · exact ⟨trivial, by simp, tf, hp, ⟨rfl, rfl, rfl, rfl⟩, fun _ hc => hc.elim⟩
    · exact ⟨trivial, by simp, tf, hp, ⟨rfl, rfl, rfl, rfl⟩, fun _ hc => absurd hpaths hc⟩
  have hbusy : ∀ src, Q src → src.control ≠ .idle := by
    rintro src ⟨hto, -⟩ hno
    rw [hno] at hto
    exact hto
  suffices hgo : ∃ s', Gets cfg t s' ∧ s'.env = t.env ∧ P s'.src by
    obtain ⟨s', hr', henv', todo, tf', hc, hp', hsame, hgone⟩ := hgo
    exact ⟨s', todo, tf', hr.trans hr', henv'.trans henv, hc, hp', hsame, hgone⟩
  refine ht.follow hstart hbusy ?_
  rintro u src effect hu huenv - ⟨hto, hnot, x, hx, hsame, hgone⟩ hm
  obtain ⟨hto', x', hx', hsame'⟩ := toRead_move hu.inv hu.live hto hnot hx hm
  have hboth : tf.Same x' := ⟨hsame'.1.trans hsame.1, hsame'.2.1.trans hsame.2.1,
    hsame'.2.2.1.trans hsame.2.2.1, hsame'.2.2.2.trans hsame.2.2.2⟩
  have hmark : Away → Checked p src.control → x'.gone = true := by
    intro haway hchecked
    refine checked_move hu.inv hx ?_ (hgone haway) (huenv ▸ hm) hx' hchecked
    rw [huenv, henv, hsame.1]
    exact haway
  by_cases hturn : ∃ todo, src.control = .reading (p :: todo)
  · obtain ⟨todo, hc⟩ := hturn
    exact .inl ⟨todo, x', hc, hx', hboth, fun haway => hmark haway (by rw [hc]; trivial)⟩
  · exact .inr ⟨hto', fun todo hc => hturn ⟨todo, hc⟩, x', hx', hboth, hmark⟩

/-- From after the turn of a file to the end of the round, which leaves the file alone. -/
theorem Good.finishRound (h : Good cfg U s) (hdone : HasRead p s.src.control) :
    ∃ s', Gets cfg s s' ∧ s'.env = s.env ∧ s'.src.control = .idle ∧
      ∀ tf, s'.src.file? p = some tf → s.src.file? p = some tf := by
  let Q (src : Source) : Prop := HasRead p src.control ∧ src.control ≠ .idle ∧
    ∀ tf, src.file? p = some tf → s.src.file? p = some tf
  let P (src : Source) : Prop := src.control = .idle ∧
    ∀ tf, src.file? p = some tf → s.src.file? p = some tf
  by_cases hidle : s.src.control = .idle
  · exact ⟨s, .refl, rfl, hidle, fun _ htf => htf⟩
  have hstart : Q s.src := ⟨hdone, hidle, fun _ htf => htf⟩
  refine h.follow (P := P) hstart (fun src hq => hq.2.1) ?_
  rintro t src effect ht - - ⟨hdone, hbusy, hsame⟩ hm
  obtain ⟨hdone', hsame'⟩ := hasRead_move hdone hbusy hm
  have hboth : ∀ tf, src.file? p = some tf → s.src.file? p = some tf :=
    fun tf htf => hsame tf (hsame' tf htf)
  by_cases hidle : src.control = .idle
  · exact .inl ⟨hidle, hboth⟩
  · exact .inr ⟨hdone', hidle, hboth⟩

theorem Good.toEnd (h : Good cfg U s) (hc : s.src.control = .closing p n todo) :
    ∃ s', Gets cfg s s' ∧ s'.env = s.env ∧
      s'.src.control = .idle ∧ ∀ tf, s'.src.file? p = some tf → s.src.file? p = some tf := by
  have hlive : LiveControl cfg.source U s.src (.closing p n todo) := hc ▸ h.live.source.control
  refine h.finishRound ?_
  rw [hc]
  exact (nodup_cons.mp hlive.1).1

section
variable (h : Good cfg U s) (hidle : s.src.control = .idle)
include h hidle

/-- A round brings a file closer to its end, or closes it. -/
theorem Good.readRound (hp : s.src.file? p = some tf)
    (hle : tf.offset + tf.part.length ≤ (s.env.data tf.inode).length) (hoff : tf.offset < hi)
    (hhi : hi ≤ (s.env.data tf.inode).length) :
    ∃ s', Gets cfg s s' ∧ s'.env.data = s.env.data ∧ s'.env.world = s.env.world ∧
      s'.src.control = .idle ∧ ∀ x, s'.src.file? p = some x → x.inode = tf.inode ∧
        x.left hi < tf.left hi ∧ x.offset + x.part.length ≤ (s.env.data tf.inode).length := by
  -- first an unfinished line becomes overdue
  obtain ⟨d, hover⟩ := overdue_wait tf s.env.now
  obtain ⟨s1, hr1, hsrc1, henv1, -⟩ := gets_wait cfg s d
  have h1 := h.gets hr1
  obtain ⟨s2, todo, tf2, hr2, henv2, hc2, hp2, hsame, -⟩ :=
    h1.toTurn (hsrc1 ▸ hidle) (hsrc1 ▸ hp)
  have h2 := h1.gets hr2
  obtain ⟨hinode, hoffset, hpart, hpartAt⟩ := hsame
  have hdata : s2.env.data = s.env.data := by rw [henv2, henv1]
  have hworld : s2.env.world = s.env.world := by rw [henv2, henv1]
  have hnow : s2.env.now = s.env.now + d := by rw [henv2, henv1]
  have hle2 : tf2.offset + tf2.part.length ≤ (s2.env.data tf2.inode).length := by
    rw [hoffset, hpart, hdata, hinode]
    exact hle
  obtain ⟨s3, tf3, hr3, henv3, hc3, hp3, hread⟩ := h2.readTurn hc2 hp2 (rewind_eq hle2)
  have h3 := h2.gets hr3
  obtain ⟨s4, hr4, henv4, hc4, hkeep⟩ := h3.toEnd hc3
  refine ⟨s4, ((hr1.trans hr2).trans hr3).trans hr4, ?_, ?_, hc4, ?_⟩
  · rw [henv4, henv3, hdata]
  · rw [henv4, henv3, hworld]
  · intro x hx
    cases hp3.symm.trans (hkeep x hx)
    have hsame : tf2.left hi = tf.left hi := by
      unfold TailedFile.left
      rw [hoffset, hpart]
    refine ⟨hread.inode.trans hinode, ?_, ?_⟩
    · rw [← hsame]
      refine hread.left_lt (hoffset ▸ hoff) ?_ fun hne => ?_
      · rw [hdata, hinode]
        exact hhi
      · have hsome := h2.live.source.parts p tf2 hp2 hne
        rw [hpartAt] at hsome
        rw [hnow, overdue, hpartAt]
        exact hover hsome
    · have hbound := hread.bounded hle2
      rwa [hdata, hinode] at hbound

/-- After a round the reader of a file is not behind its end. -/
theorem Good.settle (hp : s.src.file? p = some tf) :
    ∃ s', Gets cfg s s' ∧ s'.env = s.env ∧ s'.src.control = .idle ∧
      ∀ x, s'.src.file? p = some x → x.inode = tf.inode ∧
        x.offset + x.part.length ≤ (s.env.data tf.inode).length := by
  obtain ⟨s1, todo, tf1, hr1, henv1, hc1, hp1, ⟨hinode1, -⟩, -⟩ := h.toTurn hidle hp
  have h1 := h.gets hr1
  obtain ⟨tf2, htf2⟩ : ∃ tf2, rewind (s1.env.data tf1.inode).length tf1 = tf2 := ⟨_, rfl⟩
  have hinode2 : tf2.inode = tf1.inode := htf2 ▸ (rewind_same _ tf1).2.1
  have hle : tf2.offset + tf2.part.length ≤ (s1.env.data tf2.inode).length := by
    rw [hinode2, ← htf2]
    unfold rewind
    split
    · exact Nat.zero_le _
    · omega
  obtain ⟨s2, tf3, hr2, henv2, hc2, hp2, hread⟩ := h1.readTurn hc1 hp1 htf2
  obtain ⟨s3, hr3, henv3, hidle3, hkeep⟩ := (h1.gets hr2).toEnd hc2
  refine ⟨s3, (hr1.trans hr2).trans hr3, ?_, hidle3, fun x hx => ?_⟩
  · rw [henv3, henv2, henv1]
  · cases hp2.symm.trans (hkeep x hx)
    have hin : tf2.inode = tf.inode := hinode2.trans hinode1
    have hbound := hread.bounded hle
    rw [hin, henv1] at hbound
    exact ⟨hread.inode.trans hin, hbound⟩

/-- The reader gets past every byte that is there, or closes the file. -/
theorem Good.catchUp (hhi : hi ≤ (s.env.data i).length) (hle : ∀ tf, s.src.file? p = some tf →
      tf.inode = i → tf.offset + tf.part.length ≤ (s.env.data i).length) :
    ∃ s', Gets cfg s s' ∧ s'.env.data = s.env.data ∧ s'.src.control = .idle ∧
      (∀ tf, s'.src.file? p = some tf → tf.inode = i → hi ≤ tf.offset ∧
        tf.offset + tf.part.length ≤ (s.env.data i).length) ∧
      ∀ tf', s'.src.file? p = some tf' → ∃ tf, s.src.file? p = some tf ∧ tf'.inode = tf.inode := by
  let Kept (t : System φ ε) : Prop := t.env.data = s.env.data ∧ t.src.control = .idle ∧
    (∀ tf, t.src.file? p = some tf → tf.inode = i →
      tf.offset + tf.part.length ≤ (s.env.data i).length) ∧
    ∀ tf', t.src.file? p = some tf' → ∃ tf, s.src.file? p = some tf ∧ tf'.inode = tf.inode
  let P (t : System φ ε) : Prop := Kept t ∧
    ∀ tf, t.src.file? p = some tf → tf.inode = i → hi ≤ tf.offset
  let μ (t : System φ ε) : Nat := ((t.src.file? p).map (·.left hi)).getD 0
  suffices hvar : ∀ t, Gets cfg s t ∧ Kept t → P t ∨ ∃ t', Gets cfg t t' ∧
      (P t' ∨ (Gets cfg s t' ∧ Kept t') ∧ μ t' < μ t) by
    have hstart : Kept s := ⟨rfl, hidle, hle, fun tf htf => ⟨tf, htf, rfl⟩⟩
    obtain ⟨s', hr, ⟨hdata, hidle', hle', hsame⟩, hpast⟩ :=
      reaches_of_variant μ hvar ⟨.refl, hstart⟩
    exact ⟨s', hr, hdata, hidle', fun tf htf hin => ⟨hpast tf htf hin, hle' tf htf hin⟩, hsame⟩
  rintro t ⟨hr, hdata, hidle, hle, hsame⟩
  by_cases hdone : ∀ tf, t.src.file? p = some tf → tf.inode = i → hi ≤ tf.offset
  · exact .inl ⟨⟨hdata, hidle, hle, hsame⟩, hdone⟩
  · right
    simp only [not_forall, not_le] at hdone
    obtain ⟨tf, hp, rfl, hoff⟩ := hdone
    obtain ⟨t', hr', hdata', -, hidle', hfile⟩ := (h.gets hr).readRound hidle hp
      (hdata ▸ hle tf hp rfl) hoff (hdata ▸ hhi)
    have hkept : Kept t' := by
      refine ⟨hdata'.trans hdata, hidle', fun x hx _ => ?_, fun x hx => ?_⟩
      · rw [← hdata]
        exact (hfile x hx).2.2
      · obtain ⟨y, hy, hin⟩ := hsame tf hp
        exact ⟨y, hy, (hfile x hx).1.trans hin⟩
    refine ⟨t', hr', .inr ⟨⟨hr.trans hr', hkept⟩, ?_⟩⟩
    show ((t'.src.file? p).map (·.left hi)).getD 0 < ((t.src.file? p).map (·.left hi)).getD 0
    rw [hp]
    cases hx : t'.src.file? p with
    | none =>
      show 0 < tf.left hi
      unfold TailedFile.left
      omega
    | some x => exact (hfile x hx).2.1

end

theorem Good.reader_le (h : Good cfg U s) (hi : i ∉ s.truncated) (tf : TailedFile)
    (hp : s.src.file? p = some tf) (hin : tf.inode = i) :
    tf.offset + tf.part.length ≤ (s.env.data i).length := by
  subst hin
  exact ((h.inv.followed p tf hp).2.2 hi).le

/-! ## A file is let go -/

theorem gets_world (hr : Gets cfg s s') : s'.env.world = s.env.world := by
  refine own_inv (I := fun t => t.env.world = s.env.world) ?_ hr rfl
  rintro t t' ht ⟨a, ha, hs⟩
  rcases step_world hs with heq | ⟨w, rfl, -⟩
  · exact heq.trans ht
  · cases ha

/-- A file that is marked gone and has nothing in front of its reader is closed when its
turn comes. -/
theorem Good.shutRead (h : Good cfg U s) (hc : s.src.control = .reading (p :: todo))
    (hp : s.src.file? p = some tf) (hgone : tf.gone = true)
    (hoff : tf.offset = (s.env.data tf.inode).length) (hpart : tf.part = []) :
    ∃ s', Gets cfg s s' ∧ s'.env = s.env ∧ HasRead p s'.src.control ∧ s'.src.file? p = none := by
  obtain rfl := findFile_path hp
  have hlive : LiveControl cfg.source U s.src (.reading (tf.path :: todo)) := hc ▸ h.live.source.control
  have hnil : fill (s.env.data tf.inode) tf = [] := by
    unfold fill
    rw [hpart, hoff]
    simp
  have hsame : rewind (s.env.data tf.inode).length tf = tf := rewind_eq (by rw [hpart, hoff]; simp)
  have hnone : ({ tf with part := [] } : TailedFile) = tf := by rw [← hpart]
  -- nothing is read
  have hstep1 : sourceStep cfg.source s.env s.pos [] s.src =
      some ({ s.src with files := s.src.put tf, control := .filling tf.path todo }, .quiet) := by
    simp [sourceStep, hc, hp, hsame]
  obtain ⟨s1, hr1, hsrc1, henv1⟩ := h.act hstep1
  have h1 := h.gets hr1
  have hc1 : s1.src.control = .filling tf.path todo := by rw [hsrc1]
  have hp1 : s1.src.file? tf.path = some tf := by
    rw [hsrc1]
    exact findFile_put_self hp rfl
  have hstep2 : sourceStep cfg.source s1.env s1.pos [] s1.src =
      some ({ s1.src with files := s1.src.put tf, control := .emitting tf.path [] [] 0 todo },
        .quiet) := by
    simp [sourceStep, hc1, hp1, henv1, hnil, hpart, splitLines, hnone]
  obtain ⟨s2, hr2, hsrc2, henv2⟩ := h1.act hstep2
  have h2 := h1.gets hr2
  have hc2 : s2.src.control = .emitting tf.path [] [] 0 todo := by rw [hsrc2]
  have hp2 : s2.src.file? tf.path = some tf := by
    rw [hsrc2]
    exact findFile_put_self hp1 rfl
  -- nothing is handed out
  have hstep3 : sourceStep cfg.source s2.env s2.pos [] s2.src =
      some ({ s2.src with
        files := s2.src.put { tf with partAt := none }, control := .closing tf.path 0 todo },
        .quiet) := by
    simp [sourceStep, hc2, hp2, emitNext, readRest, maxLineBytes]
  obtain ⟨s3, hr3, hsrc3, henv3⟩ := h2.act hstep3
  have h3 := h2.gets hr3
  have hc3 : s3.src.control = .closing tf.path 0 todo := by rw [hsrc3]
  have hp3 : s3.src.file? tf.path = some { tf with partAt := none } := by
    rw [hsrc3]
    exact findFile_put_self hp2 rfl
  have hd : drained { tf with partAt := none } 0 = true := by
    simp [drained, hgone, hpart, readChunk]
  have hstep4 : sourceStep cfg.source s3.env s3.pos [] s3.src =
      some ({ s3.src with
        files := s3.src.delete tf.path, lastFound := none
        control := if (cfg.source.fs.stat s3.env.world tf.path).isSome then .reading todo
          else .forgetting tf.path todo }, .quiet) := by
    simp [sourceStep, hc3, hp3, close, hd]
  obtain ⟨s4, hr4, hsrc4, henv4⟩ := h3.act hstep4
  refine ⟨s4, ((hr1.trans hr2).trans hr3).trans hr4, ?_, ?_, ?_⟩
  · rw [henv4, henv3, henv2, henv1]
  · have hnot : tf.path ∉ todo := (nodup_cons.mp hlive.1).1
    rw [hsrc4]
    simp only
    split <;> exact hnot
  · rw [hsrc4, Source.file?, findFile_delete, if_pos rfl]

/-- A followed file that its path does not lead to any more is read to its end and
closed. -/
theorem Good.letGo (h : Good cfg U s) (hidle : s.src.control = .idle) (hp : s.src.file? p = some tf)
    (haway : ¬ Leads cfg.source.fs s.env.world p tf.inode) :
    ∃ s', Gets cfg s s' ∧ s'.env.data = s.env.data ∧ s'.src.control = .idle ∧
      s'.src.file? p = none := by
  obtain ⟨s1, hr1, henv1, hidle1, hset⟩ := h.settle hidle hp
  have h1 := h.gets hr1
  obtain ⟨s2, hr2, hdata2, hidle2, hpast, hsame⟩ := h1.catchUp (p := p) hidle1
    (le_refl (s1.env.data tf.inode).length) fun x hx _ => by
      rw [henv1]
      exact (hset x hx).2
  have h2 := h1.gets hr2
  have hdata : s2.env.data = s.env.data := by rw [hdata2, henv1]
  cases hp2 : s2.src.file? p with
  | none => exact ⟨s2, hr1.trans hr2, hdata, hidle2, hp2⟩
  | some x =>
    have hin : x.inode = tf.inode := by
      obtain ⟨y, hy, hxy⟩ := hsame x hp2
      exact hxy.trans (hset y hy).1
    obtain ⟨hge, hbound⟩ := hpast x hp2 hin
    obtain ⟨s3, todo, x', hr3, henv3, hc3, hp3, ⟨hinode, hoff, hpart, -⟩, hgone⟩ :=
      h2.toTurn hidle2 hp2
    have h3 := h2.gets hr3
    have hgone' : x'.gone = true := by
      apply hgone
      rw [gets_world (hr1.trans hr2), hin]
      exact haway
    have hend : x'.offset = (s3.env.data x'.inode).length := by
      rw [hoff, hinode, hin, henv3, hdata2]
      omega
    have hnil : x'.part = [] := by
      rw [hpart]
      exact length_eq_zero_iff.mp (by omega)
    obtain ⟨s4, hr4, henv4, hdone, hnone⟩ := h3.shutRead hc3 hp3 hgone' hend hnil
    obtain ⟨s5, hr5, henv5, hidle5, hkeep⟩ := (h3.gets hr4).finishRound hdone
    refine ⟨s5, (((hr1.trans hr2).trans hr3).trans hr4).trans hr5, ?_, hidle5, ?_⟩
    · rw [henv5, henv4, henv3, hdata]
    · cases hp5 : s5.src.file? p with
      | none => rfl
      | some z => cases hnone.symm.trans (hkeep z hp5)

/-! ## A path is opened -/

/-- The spec does not exclude the path. -/
def Fine (cfg : SourceConfig φ ε) (p : Str) (spec : FileSpec) : Prop :=
  (spec.exclude.any fun ex => cfg.fs.fileMatch ex p) = false

/-- The discovery will come to the path, under a spec that wants it. -/
def Pending (cfg : SourceConfig φ ε) (w : φ) (p : Str) (d : Discovery) : Prop :=
  p ∉ d.seen ∧ (p ∈ d.found ∧ Fine cfg p d.spec ∨
    ∃ g ∈ d.todo, Fine cfg p g.1 ∧ p ∈ cfg.fs.glob w g.2)

/-- The path is about to be opened, on the inode, in this discovery. -/
def Seeking (cfg : SourceConfig φ ε) (w : φ) (p : Str) (i : Inode) : SourceControl → Prop
  | .discovering d => Pending cfg w p d
  | .opening d q => q = p ∨ Pending cfg w p d
  | .opened d q j _ => q = p ∧ j = i ∨ q ≠ p ∧ Pending cfg w p d
  | .sized d q j _ _ => q = p ∧ j = i ∨ q ≠ p ∧ Pending cfg w p d
  | .registering d tf _ => tf.path = p ∧ tf.inode = i ∨ tf.path ≠ p ∧ Pending cfg w p d
  | _ => False

theorem stands_iff {fs : FileSystem φ} :
    stands fs w p i = true ↔ fs.stat w p = some (i, true) ∧ fs.readable w p = true := by
  simp [stands]

theorem Good.room (h : Good cfg U s) (hU : U.length ≤ maxFiles) (hp : p ∈ U)
    (hfree : s.src.file? p = none) : s.src.files.length < maxFiles := by
  have hsub : p :: s.src.paths ⊆ U := by
    intro q hq
    rcases mem_cons.mp hq with rfl | hq
    · exact hp
    · obtain ⟨tf, htf⟩ := Option.isSome_iff_exists.mp (mem_paths.mp hq)
      obtain ⟨-, -, spec, ⟨hmem, -⟩, -⟩ :=
        h.live.admitted _ (h.inv.mine _ (h.inv.followed q tf htf).1)
      exact hmem
  have hnew : p ∉ s.src.paths := by
    intro hmem
    have hsome := mem_paths.mp hmem
    rw [hfree] at hsome
    cases hsome
  have hle := (subperm_of_subset (nodup_cons.mpr ⟨hnew, h.live.source.paths⟩) hsub).length_le
  have hlen : s.src.paths.length = s.src.files.length := length_map _
  rw [length_cons] at hle
  omega

/-- Another path was the next match: this one is still to come. -/
theorem Pending.other {seen : List Str} (h : Pending c w p d) (hfound : d.found = q :: found)
    (hq : q ≠ p) (hseen : p ∉ seen) : Pending c w p { d with found, seen } := by
  refine ⟨hseen, ?_⟩
  rcases h.2 with ⟨hmem, hfine⟩ | htodo
  · rw [hfound] at hmem
    exact .inl ⟨(mem_cons.mp hmem).resolve_left (Ne.symm hq), hfine⟩
  · exact .inr htodo

theorem Pending.pass {env : Env φ} {seen : List Str} (h : Pending c env.world p d)
    (hfound : d.found = q :: found) (hp : Passed c env src d q seen) (hfree : src.file? p = none)
    (hroom : src.files.length < maxFiles) (hrot : isRotatedName p = false)
    (hallow : allowed p c.allow = true) (hstat : c.fs.stat env.world p = some (i, true)) :
    Pending c env.world p { d with found, seen } := by
  have hpend := h
  obtain ⟨hseen, hahead⟩ := h
  by_cases hq : q = p
  · subst hq
    cases hp with
    | seen hmem => exact absurd hmem hseen
    | followed hsome =>
      rw [hfree] at hsome
      cases hsome
    | full => omega
    | unwanted _ hw =>
      refine ⟨hseen, .inr ?_⟩
      rcases hahead with ⟨-, hfine⟩ | htodo
      · exact absurd (wanted_eq_read.mpr ⟨hrot, hfine, ⟨i, hstat⟩, hallow⟩) hw
      · exact htodo
  · refine hpend.other hfound hq ?_
    have hcons : p ∉ q :: d.seen := not_mem_cons_of_ne_of_not_mem (Ne.symm hq) hseen
    cases hp with
    | seen => exact hseen
    | unwanted => exact hseen
    | followed => exact hcons
    | full => exact hcons

theorem Pending.nextGlob {spec : FileSpec} {g : Str} {todo : List (FileSpec × Str)}
    (h : Pending c w p d) (hfound : d.found = []) (htodo : d.todo = (spec, g) :: todo) :
    Pending c w p { d with spec, found := c.fs.glob w g, todo } := by
  obtain ⟨hseen, hahead⟩ := h
  refine ⟨hseen, ?_⟩
  rcases hahead with ⟨hmem, -⟩ | ⟨g', hg', hfine, hglob⟩
  · rw [hfound] at hmem
    cases hmem
  · rw [htodo] at hg'
    rcases mem_cons.mp hg' with rfl | hg'
    · exact .inl ⟨hglob, hfine⟩
    · exact .inr ⟨g', hg', hfine, hglob⟩

/-- A step of the search: it has opened the path, or will. -/
theorem seeking_move {effect : Effect ε} (h : Good cfg U s) (hU : U.length ≤ maxFiles)
    (hadm : Admitted cfg.source U p) (hstands : stands cfg.source.fs s.env.world p i = true)
    (hseek : Seeking cfg.source s.env.world p i s.src.control) (hfree : s.src.file? p = none)
    (hm : SourceMove cfg.source s.env s.pos s.src src effect) :
    (∃ tf, src.file? p = some tf ∧ tf.inode = i) ∨
      Seeking cfg.source s.env.world p i src.control ∧ src.file? p = none := by
  obtain ⟨hrot, hallow, spec, ⟨hmem, -⟩, -⟩ := hadm
  obtain ⟨hstat, hread⟩ := stands_iff.mp hstands
  cases hm with
  | pass d q found seen hc hfound hp =>
    rw [hc] at hseek
    exact .inr ⟨Pending.pass hseek hfound hp hfree (h.room hU hmem hfree) hrot hallow hstat, hfree⟩
  | candidate d q found hc hfound =>
    rw [hc] at hseek
    refine .inr ⟨?_, hfree⟩
    by_cases hq : q = p
    · exact .inl hq
    · exact .inr (Pending.other hseek hfound hq
        (not_mem_cons_of_ne_of_not_mem (Ne.symm hq) hseek.1))
  | nextGlob d spec g todo hc hfound htodo =>
    rw [hc] at hseek
    exact .inr ⟨Pending.nextGlob hseek hfound htodo, hfree⟩
  | endSearch d hc hfound htodo =>
    rw [hc] at hseek
    obtain ⟨-, ⟨hin, -⟩ | ⟨g, hg, -⟩⟩ := hseek
    · rw [hfound] at hin
      cases hin
    · rw [htodo] at hg
      cases hg
  | notOpened d q hc hfail =>
    rw [hc] at hseek
    rcases hseek with rfl | hpend
    · rcases hfail with hno | hno
      · rw [hno] at hstat
        cases hstat
      · rw [hno] at hread
        cases hread
    · exact .inr ⟨hpend, hfree⟩
  | opened d q j hc hj =>
    rw [hc] at hseek
    refine .inr ⟨?_, hfree⟩
    by_cases hq : q = p
    · subst hq
      rw [hstat] at hj
      exact .inl ⟨rfl, (Option.some.inj hj).symm⟩
    · exact .inr ⟨hq, hseek.resolve_left hq⟩
  | sized _ _ _ _ hc | choose _ _ _ _ _ hc =>
    rw [hc] at hseek
    exact .inr ⟨hseek, hfree⟩
  | register d tf resumed hc =>
    rw [hc] at hseek
    have hctl := h.inv.controlOk hc
    have hfind : findFile (s.src.files ++ [tf]) p = if p = tf.path then some tf else s.src.file? p :=
      findFile_snoc hctl.1.new
    rcases hseek with ⟨rfl, hi⟩ | ⟨hne, hpend⟩
    · rw [if_pos rfl] at hfind
      exact .inl ⟨tf, hfind, hi⟩
    · rw [if_neg (Ne.symm hne)] at hfind
      exact .inr ⟨hpend, hfind.trans hfree⟩
  | search hc | noSearch hc | check _ _ hc | endCheck hc | endRound hc | rewind _ _ _ hc
  | fill _ _ _ _ _ hc | line _ _ _ _ _ _ _ hc | rest _ _ _ _ _ _ hc | keep _ _ _ _ _ _ _ hc
  | shut _ _ _ _ hc | leave _ _ _ hc | forget _ _ hc =>
    rw [hc] at hseek
    exact hseek.elim

/-- After some time the next round starts with a discovery. -/
theorem search_due (last : Option Int) (now : Int) : ∃ d : Nat,
    (last.all fun t => now + d - t ≥ discoverEvery) = true := by
  cases last with
  | none => exact ⟨0, rfl⟩
  | some t =>
    refine ⟨(discoverEvery + t - now).toNat, ?_⟩
    have hle := Int.self_le_toNat (discoverEvery + t - now)
    simp only [Option.all_some, ge_iff_le, decide_eq_true_eq]
    omega

/-- A wanted path that is in place and not followed is opened by the agent on its own. -/
theorem Good.reopen (h : Good cfg U s) (hidle : s.src.control = .idle) (hU : U.length ≤ maxFiles)
    (hadm : Admitted cfg.source U p) (hstands : stands cfg.source.fs s.env.world p i = true)
    (hfree : s.src.file? p = none) : ∃ s' tf, Gets cfg s s' ∧ s'.env.data = s.env.data ∧
      s'.env.world = s.env.world ∧ s'.src.file? p = some tf ∧ tf.inode = i := by
  obtain ⟨d, hdue⟩ := search_due s.src.lastFound s.env.now
  obtain ⟨s1, hr1, hsrc1, henv1, -⟩ := gets_wait cfg s d
  have h1 := h.gets hr1
  have hworld : s1.env.world = s.env.world := by rw [henv1]
  have hstep : sourceStep cfg.source s1.env s1.pos [] s1.src =
      some (scan cfg.source s1.env s1.src, .quiet) := by
    simp [sourceStep, hsrc1, hidle]
  obtain ⟨s2, hr2, hsrc2, henv2⟩ := h1.act hstep
  have hscan : s2.src = { s.src with
      lastFound := some s1.env.now
      control := .discovering ⟨[], ⟨[], [], [], [], []⟩, [], cfg.source.globs⟩ } := by
    rw [hsrc2, hsrc1]
    unfold scan
    rw [if_pos]
    rw [henv1]
    exact hdue
  let Q (src : Source) : Prop :=
    Seeking cfg.source s.env.world p i src.control ∧ src.file? p = none
  let P (src : Source) : Prop := ∃ tf, src.file? p = some tf ∧ tf.inode = i
  have hstart : Q s2.src := by
    rw [hscan]
    refine ⟨⟨not_mem_nil, .inr ?_⟩, hfree⟩
    obtain ⟨-, -, spec, ⟨-, g, hg, w, hglob⟩, hfine⟩ := hadm
    have hthere : cfg.source.fs.stat s.env.world p ≠ none := by
      rw [(stands_iff.mp hstands).1]
      simp
    exact ⟨(spec, g), hg, hfine, cfg.source.fs.glob_stable w _ g p hglob hthere⟩
  suffices hgo : ∃ s', Gets cfg s2 s' ∧ s'.env = s2.env ∧ P s'.src by
    obtain ⟨s', hr, henv, tf, htf, hi⟩ := hgo
    refine ⟨s', tf, hr1.trans (hr2.trans hr), ?_, ?_, htf, hi⟩ <;> rw [henv, henv2, henv1]
  have hbusy : ∀ src, Q src → src.control ≠ .idle := by
    rintro src ⟨hseek, -⟩ hno
    rw [hno] at hseek
    exact hseek
  refine (h1.gets hr2).follow hstart hbusy ?_
  rintro t src effect ht henv - ⟨hseek, hnone⟩ hm
  have hw : t.env.world = s.env.world := by rw [henv, henv2, hworld]
  rw [← henv] at hm
  rw [← hw] at hstands hseek
  have hnext := seeking_move ht hU hadm hstands hseek hnone hm
  rw [hw] at hnext
  exact hnext

end YominsAgent.Logs
