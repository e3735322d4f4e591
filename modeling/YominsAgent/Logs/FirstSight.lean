import YominsAgent.Logs.FileTree
import YominsAgent.Logs.Follow
import YominsAgent.Logs.Read

/- What the files held when the source started.

   `open` cannot tell a file that was created since then from one that it sees for the first time: a
   file without a position is read from its start once the source has run for two intervals, and so
   is one whose path has the position of another file. As long as such a file held nothing at the
   start (`readsNew`), no byte of what the files held then is sent: `history_not_sent`. A file that
   was there under another name is sent as a whole: `renamed_history_sent`. -/
namespace YominsAgent.Logs
open Go Lib List

variable {φ ε : Type}

/-- The first process has just been started: there are no saved positions. -/
def System.begun (env : Env φ) : System φ ε :=
  { (System.init env).boots with up := true, boot := 1 }

def Env.size (env : Env φ) (i : Inode) : Nat := (env.data i).length

/-- Where `open` begins a file at its start, the file held nothing when the source
started; one that was truncated since has nothing left of it. -/
def readsNew (held : Inode → Nat) (s : System φ ε) : Label φ ε → Bool
  | .source _ =>
    match s.src.control with
    | .sized _ p i _ size =>
      held i == 0 || s.truncated.contains i || match s.pos.files p with
        | some (j, o) => j == i && decide (o ≤ size)
        | none => decide (s.env.now - s.src.started ≤ 2 * interval)
    | _ => true
  | _ => true

/-! ## Behind what was held -/

section Bounds
variable (held : Inode → Nat) (s : System φ ε)

/-- Nothing from the offset on is what the file held at the start. -/
def Behind (i : Inode) (o : Nat) : Prop := i ∉ s.truncated → held i ≤ o

def Inside (i : Inode) (o : Nat) : Prop := i ∉ s.truncated → o ≤ s.env.size i

/-- What holds where the source stands. -/
def ReadsBehind : SourceControl → Prop
  | .sized _ _ i _ size => Behind held s i size ∧ Inside s i size
  | .registering _ tf _ =>
    tf.part = [] ∧ Behind held s tf.inode tf.offset ∧ Inside s tf.inode tf.offset
  | .emitting p lines rest _ _ => ∀ tf, s.src.file? p = some tf →
      tf.part = [] ∧ Inside s tf.inode (tf.offset + ((joinLines lines).length + rest.length))
  | _ => True

/-- A followed file is read behind what it held. -/
def FollowedBehind (tf : TailedFile) : Prop :=
  Behind held s tf.inode tf.offset ∧ Inside s tf.inode (tf.offset + tf.part.length)

/-- What a step of the source hands out is behind what the file held. -/
def HandsBehind : Effect ε → Prop
  | .setFile _ (i, o) _ => Behind held s i o
  | .send e => ∀ sp, e.ack = .file sp → Behind held s sp.file sp.lo ∧ sp.lo ≤ sp.hi
  | _ => True

/-- Nothing that a file held at the start was sent, or can be taken for sent. -/
structure NoHistory : Prop where
  data : ∀ i, Behind held s i (s.env.size i)
  files : ∀ tf ∈ s.src.files, FollowedBehind held s tf
  control : ReadsBehind held s s.src.control
  known : ∀ p i o, s.pos.files p = some (i, o) → Behind held s i o
  carried : ∀ e ∈ s.chan ++ s.ship.entries, ∀ sp, e.ack = .file sp → Behind held s sp.file sp.hi
  sent : ∀ x ∈ s.sent, Behind held s x.2.file x.2.lo

end Bounds

variable {cfg : SourceConfig φ ε} {held : Inode → Nat} {s s' : System φ ε} {src : Source}
  {env : Env φ} {truncated : List Inode} {pcfg : PipelineConfig φ ε} {a : Label φ ε}

theorem noHistory_begun (env : Env φ) : NoHistory env.size (System.begun env : System φ ε) where
  data _ _ := Nat.le_refl _
  files _ htf := nomatch htf
  control := trivial
  known _ _ _ h := nomatch h
  carried _ he := nomatch he
  sent _ hx := nomatch hx

/-! ## The steps of the source -/

namespace NoHistory

theorem turn (h : NoHistory held s) {lastFound : Option Int} {control : SourceControl}
    (hc : ReadsBehind held { s with src := { s.src with lastFound, control } } control) :
    NoHistory held { s with src := { s.src with lastFound, control } } :=
  { h with files := h.files, control := hc }

theorem refile (h : NoHistory held s) (hfiles : ∀ tf ∈ src.files, FollowedBehind held s tf)
    (hc : ReadsBehind held { s with src } src.control) : NoHistory held { s with src } :=
  { h with files := hfiles, control := hc }

theorem markGone (h : NoHistory held s) (f : TailedFile → Bool) :
    ∀ tf ∈ s.src.markGone f, FollowedBehind held s tf := by
  intro x hx
  obtain ⟨tf, htf, rfl⟩ := mem_map.mp hx
  split <;> exact h.files tf htf

theorem put (h : NoHistory held s) {tf : TailedFile} (htf : FollowedBehind held s tf) :
    ∀ x ∈ s.src.put tf, FollowedBehind held s x := by
  intro x hx
  obtain ⟨y, hy, rfl⟩ := mem_map.mp hx
  split
  · exact htf
  · exact h.files y hy

variable {pick : Str}

theorem choose (h : NoHistory held s) {d : Discovery} {p real : Str} {i : Inode} {size : Nat}
    (hg : readsNew held s (.source pick) = true) (hc : s.src.control = .sized d p i real size) :
    Behind held s i (firstOffset (s.pos.files p) i size s.src.started s.env.now).1 ∧
      Inside s i (firstOffset (s.pos.files p) i size s.src.started s.env.now).1 := by
  have hctl : ReadsBehind held s (.sized d p i real size) := hc ▸ h.control
  obtain ⟨hlo, hhi⟩ := hctl
  rw [readsNew, hc] at hg
  -- at its start a file is read that held nothing
  have hzero : held i = 0 ∨ i ∈ s.truncated → Behind held s i 0 ∧ Inside s i 0 := by
    rintro (hheld | htr)
    · exact ⟨fun _ => Nat.le_of_eq hheld, fun _ => Nat.zero_le _⟩
    · exact ⟨fun hi => absurd htr hi, fun _ => Nat.zero_le _⟩
  unfold firstOffset
  split
  · next j o hpos =>
    split
    · next hsame =>
      obtain ⟨rfl, ho⟩ := hsame
      exact ⟨h.known p j o hpos, fun hi => ho.trans (hhi hi)⟩
    · next hother => exact hzero (by simpa [hpos, hother] using hg)
  · next hpos =>
    split
    · next hlate => exact hzero (by simpa [hpos, Int.not_le.mpr hlate] using hg)
    · exact ⟨hlo, hhi⟩

theorem move (h : NoHistory held s) {effect : Effect ε} (hg : readsNew held s (.source pick) = true)
    (hm : SourceMove cfg s.env s.pos s.src src effect) :
    NoHistory held { s with src } ∧ HandsBehind held s effect := by
  have hcontrol : ∀ c, s.src.control = c → ReadsBehind held s c := fun c hc => hc ▸ h.control
  -- a piece of a file goes to `emit`
  have hpiece : ∀ (tf : TailedFile) (line : Bytes) (n : Nat), tf ∈ s.src.files →
      HandsBehind held s (emit cfg tf line n).2 := by
    intro tf line n htf
    rcases emit_cases cfg tf line n with ⟨-, heff⟩ | ⟨e, he, heff⟩
    · rw [heff]
      trivial
    · rw [heff]
      intro sp hsp
      cases he.symm.trans hsp
      exact ⟨(h.files tf htf).1, Nat.le_add_right _ _⟩
  cases hm with
  | sized d p i => exact ⟨h.turn ⟨h.data i, fun _ => Nat.le_refl _⟩, trivial⟩
  | choose d p i real size hc => exact ⟨h.turn ⟨rfl, h.choose hg hc⟩, trivial⟩
  | register d tf resumed hc =>
    obtain ⟨hpart, hlo, hhi⟩ := hcontrol _ hc
    exact ⟨h.refile (forall_mem_snoc.mpr ⟨h.files, hlo, by rwa [hpart]⟩) trivial, hlo⟩
  | endSearch | check => exact ⟨h.refile (h.markGone _) trivial, trivial⟩
  | rewind p todo tf hc hp =>
    -- only a file that was truncated is read again from its start
    have htf := h.files tf (findFile_mem hp)
    have hinode := (rewind_same (s.env.data tf.inode).length tf).2.1
    have hnew : FollowedBehind held s (rewind (s.env.data tf.inode).length tf) := by
      by_cases hi : tf.inode ∈ s.truncated
      · rw [← hinode] at hi
        exact ⟨fun hno => absurd hi hno, fun hno => absurd hi hno⟩
      · have hsame : rewind (s.env.data tf.inode).length tf = tf := rewind_eq (htf.2 hi)
        rwa [hsame]
    exact ⟨h.refile (h.put hnew) trivial, trivial⟩
  | fill p todo tf lines rest hc hp hsplit =>
    have htf := h.files tf (findFile_mem hp)
    have hput : ∀ x ∈ s.src.put { tf with part := [] }, FollowedBehind held s x :=
      h.put ⟨htf.1, fun hi => (Nat.le_add_right _ _).trans (htf.2 hi)⟩
    refine ⟨h.refile hput ?_, trivial⟩
    intro x hx
    cases hx.symm.trans (findFile_put_self hp rfl)
    refine ⟨rfl, fun hi => ?_⟩
    have hlen := length_splitLines hsplit
    have hle : tf.offset + tf.part.length ≤ (s.env.data tf.inode).length := htf.2 hi
    simp only [length_append, fill, length_take, length_drop] at hlen
    show tf.offset + ((joinLines lines).length + rest.length) ≤ (s.env.data tf.inode).length
    omega
  | line p l lines rest n todo tf hc hp =>
    have htf := findFile_mem hp
    obtain ⟨hpart, hin⟩ := hcontrol _ hc tf hp
    have hlen : (joinLines (l :: lines)).length = l.length + 1 + (joinLines lines).length := by
      simp [joinLines]
      omega
    have hin' : Inside s tf.inode
        (tf.offset + (l.length + 1) + ((joinLines lines).length + rest.length)) := by
      intro hi
      have := hin hi
      omega
    refine ⟨h.refile (h.put ⟨?_, ?_⟩) ?_, hpiece tf l _ htf⟩
    · exact fun hi => ((h.files tf htf).1 hi).trans (Nat.le_add_right _ _)
    · intro hi
      have := hin' hi
      show tf.offset + (l.length + 1) + tf.part.length ≤ s.env.size tf.inode
      rw [hpart, length_nil]
      omega
    · intro x hx
      cases hx.symm.trans (findFile_put_self hp rfl)
      exact ⟨hpart, hin'⟩
  | rest p rest n todo tf partAt hc hp =>
    have htf := findFile_mem hp
    obtain ⟨hpart, hin⟩ := hcontrol _ hc tf hp
    refine ⟨h.refile (h.put ⟨?_, ?_⟩) trivial, hpiece tf rest _ htf⟩
    · exact fun hi => ((h.files tf htf).1 hi).trans (Nat.le_add_right _ _)
    · intro hi
      show tf.offset + rest.length + tf.part.length ≤ _
      rw [hpart]
      simpa [joinLines] using hin hi
  | keep p rest part n todo tf partAt hc hp hkept =>
    have htf := findFile_mem hp
    obtain ⟨hpart, hin⟩ := hcontrol _ hc tf hp
    refine ⟨h.refile (h.put ⟨(h.files tf htf).1, ?_⟩) trivial, trivial⟩
    rcases hkept with ⟨rfl, -⟩ | ⟨-, rfl⟩
    · simpa [joinLines] using hin
    · exact (h.files tf htf).2
  | shut =>
    refine ⟨h.refile (fun x hx => h.files x (mem_filter.mp hx).1) ?_, trivial⟩
    show ReadsBehind held _ (if _ then _ else _)
    split <;> trivial
  | _ => exact ⟨h.turn trivial, trivial⟩

theorem effect (h : NoHistory held { s with src }) {effect : Effect ε}
    (he : HandsBehind held s effect) (ha : s.apply src effect = some s') : NoHistory held s' := by
  cases effect with
  | quiet => cases ha; exact h
  | setFile p pos =>
    obtain ⟨i, o⟩ := pos
    cases ha
    refine { h with known := ?_ }
    intro q j o' hq
    rcases Positions.setFile_eq_some hq with hold | ⟨rfl, heq⟩
    · exact h.known q j o' hold
    · cases heq
      exact he
  | forget p =>
    cases ha
    refine { h with known := ?_ }
    intro q j o hq
    have hold : Cursors.set s.pos.files p none q = some (j, o) := Positions.forget_files s.pos p ▸ hq
    exact h.known q j o (Cursors.set_none_eq_some hold)
  | skip => cases ha; exact { h with }
  | send e =>
    obtain ⟨-, ⟨⟩⟩ := Option.ite_none_right_eq_some.mp ha
    refine { h with carried := ?_, sent := ?_ }
    · intro x hx sp hsp
      simp only [mem_append, mem_singleton] at hx
      rcases hx with (hx | rfl) | hx
      · exact h.carried x (mem_append_left _ hx) sp hsp
      · exact fun hi => ((he sp hsp).1 hi).trans (he sp hsp).2
      · exact h.carried x (mem_append_right _ hx) sp hsp
    · intro x hx
      rcases mem_append.mp hx with hx | hx
      · exact h.sent x hx
      · cases hack : e.ack with
        | journal => simp [hack] at hx
        | file sp =>
          rw [hack] at hx
          rw [mem_singleton.mp hx]
          exact (he sp hack).1

/-! ## The other steps -/

/-- The files are appended to, or one of them is truncated. -/
theorem around (h : NoHistory held s) (htr : ∀ i, i ∉ truncated → i ∉ s.truncated)
    (hdata : ∀ i, i ∉ truncated → s.env.size i ≤ env.size i) :
    NoHistory held { s with env, truncated } := by
  have hbehind : ∀ {i : Inode} {o : Nat}, Behind held s i o →
      Behind held { s with env, truncated } i o := fun hb hi => hb (htr _ hi)
  have hinside : ∀ {i : Inode} {o : Nat}, Inside s i o →
      Inside { s with env, truncated } i o := fun hb hi => (hb (htr _ hi)).trans (hdata _ hi)
  refine ⟨?_, ?_, ?_, ?_, ?_, ?_⟩
  · exact fun i hi => (h.data i (htr i hi)).trans (hdata i hi)
  · exact fun tf htf => ⟨hbehind (h.files tf htf).1, hinside (h.files tf htf).2⟩
  · have hc := h.control
    show ReadsBehind held _ s.src.control
    cases hctl : s.src.control with
    | sized =>
      rw [hctl] at hc
      exact ⟨hbehind hc.1, hinside hc.2⟩
    | registering =>
      rw [hctl] at hc
      exact ⟨hc.1, hbehind hc.2.1, hinside hc.2.2⟩
    | emitting =>
      rw [hctl] at hc
      exact fun tf hp => ⟨(hc tf hp).1, hinside (hc tf hp).2⟩
    | _ => trivial
  · exact fun p i o hp => hbehind (h.known p i o hp)
  · exact fun e he sp hsp => hbehind (h.carried e he sp hsp)
  · exact fun x hx => hbehind (h.sent x hx)

theorem ship (h : NoHistory held s) {l : ShipLabel (Entry ε)}
    (hl : ∀ e now, l = .recv e now → ∀ sp, e.ack = .file sp → Behind held s sp.file sp.hi)
    (hs : shipperStep pcfg s l = some s') : NoHistory held s' := by
  obtain ⟨-, ship, hstep, rfl⟩ := shipperStep_eq_some hs
  refine { h with carried := ?_ }
  intro e he
  rcases mem_append.mp he with he | he
  · exact h.carried e (mem_append_left _ he)
  · rcases shipStep_entries hstep e he with hold | ⟨now, hrecv⟩
    · exact h.carried e (mem_append_right _ hold)
    · exact hl e now hrecv

variable {e : Entry ε}

theorem pop (h : NoHistory held s) {chan : List (Entry ε)} (hchan : s.chan = e :: chan) :
    NoHistory held { s with chan } := by
  refine { h with carried := fun x hx => h.carried x ?_ }
  rw [hchan, cons_append]
  exact mem_cons_of_mem e hx

/-- `SetFile` with the end of what an entry was read from. -/
theorem ack (h : NoHistory held s) {rest : List (Entry ε)} (hdue : s.due = e :: rest) :
    NoHistory held (s.runAck e) := by
  have hmem : e ∈ s.chan ++ s.ship.entries := by
    have hacked : e ∈ s.ship.acked := mem_of_mem_drop (hdue ▸ mem_cons_self : e ∈ s.due)
    exact mem_append_right _ (mem_append_left _ hacked)
  unfold System.runAck
  cases hack : e.ack with
  | file sp =>
    refine { h with known := ?_ }
    intro q i o hq
    rcases Positions.setFile_eq_some hq with hold | ⟨rfl, heq⟩
    · exact h.known q i o hold
    · cases heq
      exact h.carried e hmem sp hack
  | journal c =>
    refine { h with known := fun q i o hq => h.known q i o ?_ }
    exact Positions.setJournalCursor_files s.pos c ▸ hq

theorem agent (h : NoHistory held s) (hg : readsNew held s a = true) (ha : a ≠ .crash)
    (hs : agentStep pcfg s a = some s') : NoHistory held s' := by
  cases agentStep_move hs with
  | source pick src effect s' hsrc happly =>
    obtain ⟨hnext, heffect⟩ := h.move hg (sourceStep_move hsrc)
    exact hnext.effect heffect happly
  | abort => exact h.turn trivial
  | journal =>
    refine { h with carried := ?_ }
    intro e he sp hsp
    simp only [mem_append, mem_singleton] at he
    rcases he with (he | rfl) | he
    · exact h.carried e (mem_append_left _ he) sp hsp
    · cases hsp
    · exact h.carried e (mem_append_right _ he) sp hsp
  | recv e chan s' hchan hship =>
    refine (h.pop hchan).ship ?_ hship
    intro x now hx
    cases hx
    exact h.carried e (mem_append_left _ (hchan ▸ mem_cons_self))
  | ship l s' hown hship =>
    refine h.ship ?_ hship
    rintro e now rfl
    cases hown
  | ack e rest hdue => exact h.ack hdue
  | save =>
    refine { h with known := fun q i o hq => h.known q i o ?_ }
    exact Positions.beginSave_files pcfg.stateDir s.pos ▸ hq
  | saveEnd | cancel => exact { h with }
  | crash => exact absurd rfl ha

end NoHistory

/-! ## Runs of one process -/

/-- What holds while the process runs, and of what was sent also afterwards. -/
def Unsent (held : Inode → Nat) (s : System φ ε) : Prop :=
  (s.up = true → NoHistory held s) ∧ ∀ x ∈ s.sent, Behind held s x.2.file x.2.lo

theorem unsent_around (h : Unsent held s) (htr : ∀ i, i ∉ truncated → i ∉ s.truncated)
    (hdata : ∀ i, i ∉ truncated → s.env.size i ≤ env.size i) :
    Unsent held { s with env, truncated } :=
  ⟨fun hup => (h.1 hup).around htr hdata, fun x hx hi => h.2 x hx (htr _ hi)⟩

theorem unsent_step (h : Unsent held s) (hg : readsNew held s a = true) (hone : a ≠ .restart)
    (hs : step pcfg s a = some s') : Unsent held s' := by
  have hagent : a ≠ .crash → (if s.up then agentStep pcfg s a else none) = some s' →
      Unsent held s' := by
    intro ha hs
    split at hs
    · next hup =>
      have hnext := (h.1 hup).agent hg ha hs
      exact ⟨fun _ => hnext, hnext.sent⟩
    · cases hs
  cases a with
  | tick | world =>
    cases hs
    exact unsent_around h (fun _ hi => hi) fun _ _ => Nat.le_refl _
  | append i =>
    cases hs
    refine unsent_around h (fun _ hi => hi) fun j _ => ?_
    by_cases hj : j = i <;> simp [Env.size, Cursors.set, hj]
  | truncate i =>
    cases hs
    refine unsent_around h (fun j hj hm => hj (mem_cons_of_mem i hm)) fun j hj => ?_
    have hne : j ≠ i := fun he => hj (he ▸ mem_cons_self)
    simp [Env.size, Cursors.set, hne]
  | restart => exact absurd rfl hone
  | crash =>
    obtain ⟨-, ⟨⟩⟩ := Option.ite_none_right_eq_some.mp hs
    exact ⟨fun hup => absurd hup Bool.false_ne_true, h.2⟩
  | _ => exact hagent (by simp) hs

/-- In every run of one process, started without saved positions, in which `open`
begins only such files at their start that held nothing when the source started, no
byte of what a file held then is sent: the offsets of what was sent lie behind it, in
every file that has not been truncated. Paths come and go as they like. -/
theorem history_not_sent (cfg : PipelineConfig φ ε) (env : Env φ) (as : List (Label φ ε))
    (hone : ∀ a ∈ as, a ≠ .restart) (s : System φ ε)
    (hrun : run (guarded (readsNew env.size) (step cfg)) (System.begun env) as = some s)
    (x : Nat × Span Str Inode) (hx : x ∈ s.sent) (hi : x.2.file ∉ s.truncated) :
    env.size x.2.file ≤ x.2.lo := by
  have hinv := run_inv_of_labels (I := Unsent env.size) ?_ as _ s hone
    ⟨fun _ => noHistory_begun env, fun _ hx => nomatch hx⟩ hrun
  · exact hinv.2 x hx hi
  · intro s a s' ha h hstep
    obtain ⟨hg, hstep⟩ := guarded_eq_some.mp hstep
    exact unsent_step h hg ha hstep

def lineUnder (path : Str) : Env Tree :=
  ⟨0, [(path, .file 7)], fun i => if i = 7 then [120, 10] else []⟩

def appendsLine : List (Label Tree Bytes) :=
  List.replicate 11 (.source aLog) ++ [.append 7 [121, 10], .source [], .source []]

/-- A file that is there at the start: what is appended is sent. -/
theorem appended_line_sent : ∃ s : System Tree Bytes,
    run (guarded (readsNew (lineUnder aLog).size) (step aPipeline)) (System.begun (lineUnder aLog))
      appendsLine = some s ∧
    s.sent = [(1, ⟨aLog, 7, 2, 4⟩)] ∧ (lineUnder aLog).size 7 ≤ 2 := by
  refine ⟨_, rfl, rfl, ?_⟩
  exact history_not_sent aPipeline _ appendsLine (by simp [appendsLine]) _ rfl (1, ⟨aLog, 7, 2, 4⟩)
    (mem_singleton_self _) not_mem_nil

/-- The file is there at the start under a name that no glob finds, and gets its name
eleven seconds later: all of it is sent. -/
theorem renamed_history_sent : ∃ s : System Tree Bytes,
    run (step aPipeline) (System.begun (lineUnder "/var/log/old.log".toList))
      (List.replicate 5 (.source []) ++
        [.tick 11000000000, .world [(aLog, .file 7)]] ++
        List.replicate 13 (.source aLog)) = some s ∧
    s.sent = [(1, ⟨aLog, 7, 0, 2⟩)] ∧ s.truncated = [] ∧
    (lineUnder "/var/log/old.log".toList).size 7 = 2 := ⟨_, rfl, rfl, rfl, rfl⟩

end YominsAgent.Logs
