import Mathlib.Data.Prod.Lex
import YominsAgent.Logs.Live

/- What the agent does on its own, the server answering and time passing: the shipper
   empties the channel, so every step of the source can be taken (`Good.act`), and
   the source comes to the end of each round (`Good.toIdle`). -/
namespace YominsAgent.Logs
open Go Lib Relation List Option

variable {φ ε : Type}

/-- The steps of an agent whose posts are accepted, and the passing of time. -/
def ownLabel : Label φ ε → Bool
  | .tick _ => true
  | .source _ => true
  | .recv => true
  | .ship .timer => true
  | .ship (.posted .ok) => true
  | .ship .woken => true
  | .ack => true
  | _ => false

/-- The agent runs, and is not about to stop. -/
structure Good (cfg : PipelineConfig φ ε) (U : List Str) (s : System φ ε) : Prop where
  inv : Inv cfg.source s
  live : Live cfg.source U s
  up : s.up = true
  going : s.ship.cancelled = false

/-- The agent gets from one state to the other on its own. -/
abbrev Gets (cfg : PipelineConfig φ ε) : System φ ε → System φ ε → Prop :=
  ReflTransGen (Own ownLabel (step cfg))

variable {cfg : PipelineConfig φ ε} {U : List Str} {p : Str} {s s' : System φ ε} {src : Source}
  {a : Label φ ε} {c : SourceConfig φ ε} {env : Env φ} {pick q : Str} {src' : Source}
  {tf : TailedFile}

theorem own_assumed (ha : ownLabel a = true) (hgo : s.ship.cancelled = false) :
    assumed cfg s a = true := by
  cases a with
  | ship l =>
    cases l with
    | posted => simp [assumed, honest, hgo]
    | _ => rfl
  | world => cases ha
  | _ => rfl

theorem Good.own (h : Good cfg U s) (hs : Own ownLabel (step cfg) s s') : Good cfg U s' := by
  obtain ⟨a, ha, hstep⟩ := hs
  have hassumed : assumed cfg s a = true := own_assumed ha h.going
  have hchange := step_change h.inv.ran hassumed hstep
  have hfew : fewFiles cfg U s a = true := by
    cases a with
    | world => cases ha
    | _ => rfl
  have hgo : s'.up = true ∧ s'.ship.cancelled = false := by
    cases hchange with
    | source pick src effect s' hup hm happly =>
      have hf := apply_frame happly
      exact ⟨hf.up.trans hup, hf.ship ▸ h.going⟩
    | agent a pos snap saved control chan ship ran acked hup hc hran hcan =>
      rcases hcan with heq | ⟨rfl, -⟩
      · exact ⟨hup, heq.trans h.going⟩
      · cases ha
    | around => exact ⟨h.up, h.going⟩
    | crash => cases ha
    | restart => cases ha
  exact ⟨(keeps_step h.inv hassumed hstep).1, live_step h.inv h.live hfew hchange, hgo.1, hgo.2⟩

theorem Good.gets (h : Good cfg U s) (hr : Gets cfg s s') : Good cfg U s' :=
  own_inv (fun _ _ hg hs => hg.own hs) hr h

theorem Good.keeps (h : Good cfg U s) (hr : Gets cfg s s') {I : System φ ε → Prop} (hI : I s)
    (hstep : ∀ t t' a, Good cfg U t → ownLabel a = true → step cfg t a = some t' →
      Change cfg t a t' → I t → I t') : I s' := by
  refine (own_inv (I := fun t => Good cfg U t ∧ I t) ?_ hr ⟨h, hI⟩).2
  rintro t t' ⟨hg, ht⟩ hown
  obtain ⟨a, ha, hs⟩ := hown
  exact ⟨hg.own ⟨a, ha, hs⟩,
    hstep t t' a hg ha hs (step_change hg.inv.ran (own_assumed ha hg.going) hs) ht⟩

/-- What the steps of the agent leave alone. -/
structure Onward (s s' : System φ ε) : Prop where
  boot : s'.boot = s.boot
  truncated : s'.truncated = s.truncated
  sent : ∀ x ∈ s.sent, x ∈ s'.sent
  mine : ∀ x ∈ s.mine, x ∈ s'.mine
  opens : ∀ x ∈ s.opens, x ∈ s'.opens

theorem Onward.trans {t : System φ ε} (h : Onward s t) (h' : Onward t s') : Onward s s' where
  boot := h'.boot.trans h.boot
  truncated := h'.truncated.trans h.truncated
  sent x hx := h'.sent x (h.sent x hx)
  mine x hx := h'.mine x (h.mine x hx)
  opens x hx := h'.opens x (h.opens x hx)

theorem Change.onward (hI : Inv cfg.source s) (ha : ownLabel a = true) (h : Change cfg s a s') :
    Onward s s' := by
  have hsent := (h.grown hI).sent
  cases h with
  | source pick src effect s' hup hm happly =>
    have hf := apply_frame happly
    exact ⟨hf.boot, hf.truncated, hsent, hf.mine, hf.opens⟩
  | agent => exact ⟨rfl, rfl, hsent, fun _ hx => hx, fun _ hx => hx⟩
  | around a env truncated hback htr =>
    rcases htr with rfl | ⟨i, bs, -, rfl⟩
    · exact ⟨rfl, rfl, hsent, fun _ hx => hx, fun _ hx => hx⟩
    · cases ha
  | crash => cases ha
  | restart => cases ha

theorem Good.onward (h : Good cfg U s) (hr : Gets cfg s s') : Onward s s' := by
  refine h.keeps hr (⟨rfl, rfl, fun _ hx => hx, fun _ hx => hx, fun _ hx => hx⟩ : Onward s s) ?_
  intro t t' a ht ha _ hchange hon
  exact hon.trans (hchange.onward ht.inv ha)

/-! ## The shipper empties the channel -/

/-- How far the shipper is from its `select`. -/
def shipRank : Control ε → Nat
  | .select => 0
  | .posting .toSelect _ => 1
  | .sleeping .toSelect _ => 2
  | .posting (.append _ _) _ => 3
  | .sleeping (.append _ _) _ => 4
  | .stopped => 0

theorem shipRank_flush (s : Shipper ε) : shipRank (flush .toSelect s).control ≤ 1 := by
  unfold flush
  split
  · exact Nat.zero_le 1
  · exact Nat.le_refl 1

theorem shipRank_resume (c : ShipperConfig) (k : Cont ε) (wait : Int) (s : Shipper ε) :
    shipRank (resume c k s).control < shipRank (.posting k wait) := by
  cases k with
  | toSelect => exact Nat.zero_lt_one
  | append e line =>
    show shipRank (append c e line _).control < 3
    simp only [append]
    split
    · exact (shipRank_flush _).trans_lt (by decide)
    · exact Nat.zero_lt_succ 2

theorem Own.of_agent (a : Label φ ε) (ha : ownLabel a = true) (hup : s.up = true)
    (h : agentStep cfg s a = some s') : Own ownLabel (step cfg) s s' := by
  refine ⟨a, ha, ?_⟩
  cases a with
  | tick => cases h
  | source | recv | ship | ack => exact (if_pos hup).trans h
  | _ => cases ha

theorem Own.ship {l : ShipLabel (Entry ε)} {ship : Shipper (Entry ε)}
    (hl : ownLabel (.ship l : Label φ ε) = true) (hown : l.isOwn = true) (hup : s.up = true)
    (hdue : s.due = []) (h : shipStep (fun now e => some (cfg.encode now e))
      (newShipper cfg.shipper) s.ship l = some ship) :
    Own ownLabel (step cfg) s { s with ship } := by
  refine Own.of_agent (.ship l) hl hup ?_
  simp [agentStep, hown, shipperStep, hdue, h]

/-- The shipper gets to its `select`, with nothing left to acknowledge. -/
theorem Good.toSelect (h : Good cfg U s) : ∃ s', Gets cfg s s' ∧ s'.src = s.src ∧
    s'.env = s.env ∧ s'.chan = s.chan ∧ s'.due = [] ∧ s'.ship.control = .select := by
  let Q (t : System φ ε) : Prop :=
    Good cfg U t ∧ t.src = s.src ∧ t.env = s.env ∧ t.chan = s.chan
  let P (t : System φ ε) : Prop := Q t ∧ t.due = [] ∧ t.ship.control = .select
  let μ (t : System φ ε) : ℕ ×ₗ ℕ := toLex (shipRank t.ship.control, t.due.length)
  suffices hstep : ∀ t, Q t → P t ∨ ∃ t', Gets cfg t t' ∧ (P t' ∨ Q t' ∧ μ t' < μ t) by
    obtain ⟨s', hr, ⟨-, hsrc, henv, hchan⟩, hdue, hsel⟩ :=
      reaches_of_variant μ hstep (⟨h, rfl, rfl, rfl⟩ : Q s)
    exact ⟨s', hr, hsrc, henv, hchan, hdue, hsel⟩
  rintro t ⟨hg, hsrc, henv, hchan⟩
  -- a step that leaves the source, the channel and the surroundings alone
  have hgo : ∀ t', Own ownLabel (step cfg) t t' → t'.src = t.src → t'.env = t.env →
      t'.chan = t.chan → μ t' < μ t →
      ∃ t', Gets cfg t t' ∧ (P t' ∨ Q t' ∧ μ t' < μ t) :=
    fun t' hown h1 h2 h3 hlt => ⟨t', .single hown, .inr ⟨⟨hg.own hown, h1.trans hsrc,
      h2.trans henv, h3.trans hchan⟩, hlt⟩⟩
  cases hdue : t.due with
  | cons e =>
    right
    have hown : Own ownLabel (step cfg) t (t.runAck e) :=
      Own.of_agent .ack rfl hg.up (by simp [agentStep, hdue])
    have hlen : (t.runAck e).due.length < t.due.length := by
      have hrest := congrArg length hdue
      unfold System.due System.runAck at *
      cases e.ack <;> simp only [length_drop, length_cons] at hrest ⊢ <;> omega
    have hsame : (t.runAck e).src = t.src ∧ (t.runAck e).env = t.env ∧
        (t.runAck e).chan = t.chan ∧ (t.runAck e).ship = t.ship := by
      unfold System.runAck
      cases e.ack <;> exact ⟨rfl, rfl, rfl, rfl⟩
    refine hgo _ hown hsame.1 hsame.2.1 hsame.2.2.1 ?_
    exact Prod.Lex.toLex_lt_toLex.mpr (.inr ⟨by rw [hsame.2.2.2], hlen⟩)
  | nil =>
    cases hc : t.ship.control with
    | select => exact .inl ⟨⟨hg, hsrc, henv, hchan⟩, hdue, hc⟩
    | stopped =>
      have hdone := hg.live.shipping hc
      rw [hg.going] at hdone
      cases hdone
    | posting k wait =>
      right
      have hstep : shipStep (fun now e => some (cfg.encode now e)) (newShipper cfg.shipper) t.ship
          (.posted .ok) = some (resume (newShipper cfg.shipper) k t.ship.settle) := by
        simp [shipStep, hc, settles]
      refine hgo _ (Own.ship rfl rfl hg.up hdue hstep) rfl rfl rfl ?_
      refine Prod.Lex.toLex_lt_toLex.mpr (.inl ?_)
      rw [hc]
      exact shipRank_resume _ k wait _
    | sleeping k wait =>
      right
      have hstep : shipStep (fun now e => some (cfg.encode now e)) (newShipper cfg.shipper) t.ship
          .woken = some { t.ship with
            control := .posting k (min (wrap64 (wait * 2)) minute) } := by
        simp [shipStep, hc]
      refine hgo _ (Own.ship rfl rfl hg.up hdue hstep) rfl rfl rfl ?_
      refine Prod.Lex.toLex_lt_toLex.mpr (.inl ?_)
      rw [hc]
      cases k with
      | toSelect => exact Nat.lt_succ_self 1
      | append => exact Nat.lt_succ_self 3

theorem Good.drain (h : Good cfg U s) : ∃ s', Gets cfg s s' ∧ s'.src = s.src ∧
    s'.env = s.env ∧ s'.chan.length < chanCap := by
  let Q (t : System φ ε) : Prop := Good cfg U t ∧ t.src = s.src ∧ t.env = s.env
  let P (t : System φ ε) : Prop := t.src = s.src ∧ t.env = s.env ∧ t.chan.length < chanCap
  suffices hstep : ∀ t, Q t → P t ∨ ∃ t', Gets cfg t t' ∧
      (P t' ∨ Q t' ∧ t'.chan.length < t.chan.length) by
    exact reaches_of_variant (fun t => t.chan.length) hstep (⟨h, rfl, rfl⟩ : Q s)
  rintro t ⟨hg, hsrc, henv⟩
  by_cases hroom : t.chan.length < chanCap
  · exact .inl ⟨hsrc, henv, hroom⟩
  · right
    obtain ⟨u, hr, husrc, huenv, huchan, hdue, hsel⟩ := hg.toSelect
    cases hchan : t.chan with
    | nil =>
      rw [hchan] at hroom
      exact absurd (Nat.zero_lt_succ 999) hroom
    | cons e chan =>
      have hu := hg.gets hr
      rw [hchan] at huchan
      -- the shipper takes the first entry
      obtain ⟨ship, hship⟩ : ∃ ship, shipStep (fun now e => some (cfg.encode now e))
          (newShipper cfg.shipper) u.ship (.recv e u.env.now) = some ship := by
        simp only [shipStep, hsel]
        split <;> exact ⟨_, rfl⟩
      have hdue' : ({ u with chan } : System φ ε).due = [] := hdue
      have hown : Own ownLabel (step cfg) u { u with chan, ship } := by
        refine Own.of_agent .recv rfl hu.up ?_
        simp only [agentStep, huchan, shipperStep, hdue', hship]
        rfl
      refine ⟨_, hr.tail hown, .inr ⟨⟨hu.own hown, husrc.trans hsrc, huenv.trans henv⟩, ?_⟩⟩
      exact Nat.lt_succ_self _

/-! ## The source goes on -/

theorem sourceStep_pos {pos pos' : Positions} {e : Entry ε}
    (h : sourceStep c env pos pick s.src = some (src, .send e)) :
    sourceStep c env pos' pick s.src = some (src, .send e) := by
  unfold sourceStep at h ⊢
  split at h <;> first | exact h | cases h

theorem apply_enabled {effect : Effect ε}
    (h : ∀ e, effect = .send e → s.chan.length < chanCap) : ∃ s', s.apply src effect = some s' := by
  cases effect with
  | send e =>
    simp only [System.apply, h e rfl, if_true]
    exact ⟨_, rfl⟩
  | _ => exact ⟨_, rfl⟩

/-- Every step of the source can be taken, once the channel has room. -/
theorem Good.act (h : Good cfg U s) {effect : Effect ε}
    (hstep : sourceStep cfg.source s.env s.pos pick s.src = some (src, effect)) :
    ∃ s', Gets cfg s s' ∧ s'.src = src ∧ s'.env = s.env := by
  -- an effect that can take place does, in the state reached
  have hgo : ∀ t, Gets cfg s t → t.env = s.env →
      sourceStep cfg.source t.env t.pos pick t.src = some (src, effect) →
      (∀ e, effect = .send e → t.chan.length < chanCap) →
      ∃ s', Gets cfg s s' ∧ s'.src = src ∧ s'.env = s.env := by
    intro t hr henv ht hroom
    obtain ⟨s', happly⟩ : ∃ s', t.apply src effect = some s' := apply_enabled hroom
    have hf := apply_frame happly
    refine ⟨s', hr.tail (Own.of_agent (.source pick) rfl (h.gets hr).up ?_), hf.src,
      hf.env.trans henv⟩
    exact bind_eq_some_iff.mpr ⟨_, ht, happly⟩
  cases effect with
  | send =>
    obtain ⟨t, hr, hsrc, henv, hroom⟩ := h.drain
    refine hgo t hr henv ?_ fun _ _ => hroom
    rw [hsrc, henv]
    exact sourceStep_pos hstep
  | _ => exact hgo s .refl rfl hstep nofun

/-! ## A round comes to its end -/

/-- How far the source is from the end of its round: by the part of the round, by what
is left of it, and by where it stands with one match or one file. -/
def rank : SourceControl → ℕ ×ₗ ℕ ×ₗ ℕ ×ₗ ℕ
  | .discovering d => toLex (3, toLex (d.todo.length, toLex (5 * d.found.length, 0)))
  | .opening d _ => toLex (3, toLex (d.todo.length, toLex (5 * d.found.length + 4, 0)))
  | .opened d _ _ _ => toLex (3, toLex (d.todo.length, toLex (5 * d.found.length + 3, 0)))
  | .sized d _ _ _ _ => toLex (3, toLex (d.todo.length, toLex (5 * d.found.length + 2, 0)))
  | .registering d _ _ => toLex (3, toLex (d.todo.length, toLex (5 * d.found.length + 1, 0)))
  | .checking todo => toLex (2, toLex (todo.length, toLex (0, 0)))
  | .filling _ todo => toLex (1, toLex (todo.length, toLex (4, 0)))
  | .emitting _ lines _ _ todo => toLex (1, toLex (todo.length, toLex (3, lines.length)))
  | .closing _ _ todo => toLex (1, toLex (todo.length, toLex (2, 0)))
  | .forgetting _ todo => toLex (1, toLex (todo.length, toLex (1, 0)))
  | .reading todo => toLex (1, toLex (todo.length, toLex (0, 0)))
  | .idle => toLex (0, toLex (0, toLex (0, 0)))
  | .stopped => toLex (0, toLex (0, toLex (0, 0)))

theorem lex_lt {a b c d a' b' c' d' : ℕ}
    (h : a < a' ∨ a = a' ∧ (b < b' ∨ b = b' ∧ (c < c' ∨ c = c' ∧ d < d'))) :
    toLex (a, toLex (b, toLex (c, d))) < toLex (a', toLex (b', toLex (c', d'))) := by
  simpa only [Prod.Lex.toLex_lt_toLex] using h

theorem SourceMove.rank_lt {pos : Positions} {effect : Effect ε}
    (hm : SourceMove c env pos src src' effect) (hbusy : src.control ≠ .idle) :
    rank src'.control < rank src.control := by
  cases hm with
  | search hc => exact absurd hc hbusy
  | noSearch hc => exact absurd hc hbusy
  | pass d p found seen hc hfound =>
    have hlen : d.found.length = found.length + 1 := by rw [hfound, length_cons]
    rw [hc]
    refine lex_lt (.inr ⟨rfl, .inr ⟨rfl, .inl ?_⟩⟩)
    show 5 * found.length < 5 * d.found.length
    omega
  | candidate d p found hc hfound =>
    have hlen : d.found.length = found.length + 1 := by rw [hfound, length_cons]
    rw [hc]
    refine lex_lt (.inr ⟨rfl, .inr ⟨rfl, .inl ?_⟩⟩)
    show 5 * found.length + 4 < 5 * d.found.length
    omega
  | nextGlob d spec g todo hc hfound htodo =>
    have hlen : d.todo.length = todo.length + 1 := by rw [htodo, length_cons]
    rw [hc]
    refine lex_lt (.inr ⟨rfl, .inl ?_⟩)
    show todo.length < d.todo.length
    omega
  | check p todo hc hp =>
    rw [hc]
    refine lex_lt ?_
    have hlen := length_erase_add_one hp
    omega
  | rewind _ _ _ hc | line _ _ _ _ _ _ _ hc =>
    rw [hc]
    refine lex_lt ?_
    rw [length_cons]
    omega
  | shut p n todo tf hc =>
    rw [hc]
    simp only
    split <;> exact lex_lt (by omega)
  | endSearch _ hc | notOpened _ _ hc | opened _ _ _ hc | sized _ _ _ _ hc | choose _ _ _ _ _ hc
  | register _ _ _ hc | endCheck hc | endRound hc | fill _ _ _ _ _ hc | rest _ _ _ _ _ _ hc
  | keep _ _ _ _ _ _ _ hc | leave _ _ _ hc | forget _ _ hc => rw [hc]; exact lex_lt (by omega)

/-- The source is never stuck. -/
theorem Good.enabled (h : Good cfg U s) : ∃ pick x,
    sourceStep cfg.source s.env s.pos pick s.src = some x := by
  have hlive := h.live.source.control
  -- a file that is about to be read is followed
  have hfile : ∀ {q todo}, TodoOk s.src (q :: todo) → ∃ tf, s.src.file? q = some tf :=
    fun ht => isSome_iff_exists.mp (ht.2 _ mem_cons_self)
  cases hc : s.src.control with
  | checking todo =>
    cases todo with
    | nil => exact ⟨[], _, by rw [sourceStep, hc]⟩
    | cons q todo =>
      refine ⟨q, (check cfg.source s.env q (q :: todo) s.src, .quiet), ?_⟩
      simp [sourceStep, hc]
  | reading todo =>
    cases todo with
    | nil => exact ⟨[], _, by rw [sourceStep, hc]⟩
    | cons =>
      rw [hc] at hlive
      obtain ⟨tf, htf⟩ := hfile hlive
      exact ⟨[], _, by rw [sourceStep, hc]; simp only [htf, map_some]; rfl⟩
  | filling | emitting | closing =>
    rw [hc] at hlive
    obtain ⟨tf, htf⟩ := hfile hlive
    exact ⟨[], _, by rw [sourceStep, hc]; simp only [htf, map_some]; rfl⟩
  | stopped =>
    have hdone := h.live.running hc
    rw [h.going] at hdone
    cases hdone
  | _ => exact ⟨[], _, by rw [sourceStep, hc]⟩

theorem Good.advance (h : Good cfg U s) : ∃ s' effect, Gets cfg s s' ∧ s'.env = s.env ∧
    SourceMove cfg.source s.env s.pos s.src s'.src effect := by
  obtain ⟨pick, ⟨src, effect⟩, hstep⟩ := h.enabled
  obtain ⟨s', hr, rfl, henv⟩ := h.act hstep
  exact ⟨s', effect, hr, henv, sourceStep_move hstep⟩

/-- A goal of the source that its steps bring closer: `Q` holds on the way, and no step
of the source leaves it without reaching the goal. -/
theorem Good.follow (h : Good cfg U s) {Q P : Source → Prop} (hQ : Q s.src)
    (hbusy : ∀ src, Q src → src.control ≠ .idle)
    (hstep : ∀ t src effect, Good cfg U t → t.env = s.env → Gets cfg s t → Q t.src →
      SourceMove cfg.source s.env t.pos t.src src effect → P src ∨ Q src) :
    ∃ s', Gets cfg s s' ∧ s'.env = s.env ∧ P s'.src := by
  let R (t : System φ ε) : Prop := Gets cfg s t ∧ t.env = s.env ∧ Q t.src
  let G (t : System φ ε) : Prop := t.env = s.env ∧ P t.src
  suffices hvar : ∀ t, R t → G t ∨ ∃ t', Gets cfg t t' ∧
      (G t' ∨ R t' ∧ rank t'.src.control < rank t.src.control) by
    obtain ⟨s', hr, henv, hP⟩ :=
      reaches_of_variant (fun t : System φ ε => rank t.src.control) hvar (⟨.refl, rfl, hQ⟩ : R s)
    exact ⟨s', hr, henv, hP⟩
  rintro t ⟨hr, henv, hq⟩
  right
  have ht := h.gets hr
  obtain ⟨t', effect, hr', henv', hm⟩ := ht.advance
  refine ⟨t', hr', ?_⟩
  rcases hstep t t'.src effect ht henv hr hq (henv ▸ hm) with hP | hq'
  · exact .inl ⟨henv'.trans henv, hP⟩
  · exact .inr ⟨⟨hr.trans hr', henv'.trans henv, hq'⟩, hm.rank_lt (hbusy _ hq)⟩

/-- The source comes to the end of its round. -/
theorem Good.toIdle (h : Good cfg U s) : ∃ s', Gets cfg s s' ∧ s'.env = s.env ∧
    s'.src.control = .idle := by
  by_cases hidle : s.src.control = .idle
  · exact ⟨s, .refl, rfl, hidle⟩
  · refine h.follow (Q := fun src => src.control ≠ .idle) (P := fun src => src.control = .idle)
      hidle (fun src hq => hq) ?_
    exact fun t src effect _ _ _ _ _ => Classical.em _

/-! ## A followed file is read in every round -/

/-- What a round does not change of a file before it reads it. -/
def TailedFile.Same (tf tf' : TailedFile) : Prop :=
  tf'.inode = tf.inode ∧ tf'.offset = tf.offset ∧ tf'.part = tf.part ∧ tf'.partAt = tf.partAt

/-- The file is still to be read in this round. -/
def ToRead (p : Str) : SourceControl → Prop
  | .idle => False
  | .reading todo => p ∈ todo
  | .filling _ todo => p ∈ todo
  | .emitting _ _ _ _ todo => p ∈ todo
  | .closing _ _ todo => p ∈ todo
  | .forgetting _ todo => p ∈ todo
  | .stopped => False
  | _ => True

/-- The file has been read in this round, or the round is over. -/
def HasRead (p : Str) : SourceControl → Prop
  | .idle => True
  | .reading todo => p ∉ todo
  | .filling q todo => p ∉ q :: todo
  | .emitting q _ _ _ todo => p ∉ q :: todo
  | .closing _ _ todo => p ∉ todo
  | .forgetting _ todo => p ∉ todo
  | _ => False

theorem file?_put_ne {x x' : TailedFile} {control : SourceControl} (hq : src.file? q = some x)
    (hpath : x'.path = x.path) (hne : p ≠ q) :
    ({ src with files := src.put x', control } : Source).file? p = src.file? p := by
  have hfind : findFile src.files x'.path = some x := (hpath.trans (findFile_path hq)).symm ▸ hq
  rw [Source.file?, findFile_put hfind, if_neg]
  · rfl
  · rw [hpath, findFile_path hq]
    exact hne

theorem file?_markGone (hp : src.file? p = some tf) {f : TailedFile → Bool}
    {control : SourceControl} :
    ({ src with files := src.markGone f, control } : Source).file? p =
      some (if f tf then { tf with gone := true } else tf) := by
  rw [Source.file?, findFile_markGone, show findFile src.files p = some tf from hp]
  rfl

theorem same_markGone (hp : src.file? p = some tf) (f : TailedFile → Bool) {control : SourceControl} :
    ∃ tf', ({ src with files := src.markGone f, control } : Source).file? p = some tf' ∧
      tf.Same tf' := by
  refine ⟨if f tf then { tf with gone := true } else tf, file?_markGone hp, ?_⟩
  split <;> exact ⟨rfl, rfl, rfl, rfl⟩

theorem same_delete (hp : src.file? p = some tf) (hne : p ≠ q) {lastFound : Option Int}
    {control : SourceControl} :
    ({ src with files := src.delete q, lastFound, control } : Source).file? p = some tf := by
  rw [Source.file?, findFile_delete, if_neg hne]
  exact hp

theorem toRead_move (hI : Inv cfg.source s) (hL : Live cfg.source U s)
    (hto : ToRead p s.src.control) (hnot : ∀ todo, s.src.control ≠ .reading (p :: todo))
    (hp : s.src.file? p = some tf) {effect : Effect ε}
    (hm : SourceMove cfg.source env s.pos s.src src effect) :
    ToRead p src.control ∧ ∃ tf', src.file? p = some tf' ∧ tf.Same tf' := by
  have hto' : ∀ c, s.src.control = c → ToRead p c := fun c hc => hc ▸ hto
  have hlive : ∀ c, s.src.control = c → LiveControl cfg.source U s.src c :=
    fun c hc => hc ▸ hL.source.control
  have hsame : tf.Same tf := ⟨rfl, rfl, rfl, rfl⟩
  -- the file being read is another one
  have hother : ∀ {q todo}, TodoOk s.src (q :: todo) → p ∈ todo → p ≠ q := by
    rintro q todo ht hmem rfl
    exact (nodup_cons.mp ht.1).1 hmem
  cases hm with
  | search hc => exact (hto' _ hc).elim
  | noSearch hc => exact (hto' _ hc).elim
  | endSearch | check => exact ⟨trivial, same_markGone hp _⟩
  | register d x resumed hc =>
    have hctl := hI.controlOk hc
    refine ⟨trivial, tf, ?_, hsame⟩
    rw [Source.file?, findFile_snoc hctl.1.new, if_neg]
    · exact hp
    · rintro rfl
      cases hp.symm.trans hctl.1.new
  | endCheck =>
    have hperm : s.src.sorted.Perm s.src.paths := perm_insertionSort _ _
    refine ⟨hperm.mem_iff.mpr (mem_paths.mpr ?_), tf, hp, hsame⟩
    rw [hp]
    rfl
  | endRound hc => exact absurd (hto' _ hc) not_mem_nil
  | rewind q todo x hc hq =>
    have hne : p ≠ q := by
      rintro rfl
      exact hnot todo hc
    have hmem : p ∈ todo := (mem_cons.mp (hto' _ hc)).resolve_left hne
    exact ⟨hmem, tf, (file?_put_ne hq (rewind_same _ x).1 hne).trans hp, hsame⟩
  | fill _ todo _ _ _ hc hq | line _ _ _ _ _ todo _ hc hq | rest _ _ _ todo _ _ hc hq
  | keep _ _ _ _ todo _ _ hc hq =>
    have hmem : p ∈ todo := hto' _ hc
    exact ⟨hmem, tf, (file?_put_ne hq (by rfl) (hother (hlive _ hc) hmem)).trans hp, hsame⟩
  | shut q n todo x hc =>
    have hmem : p ∈ todo := hto' _ hc
    refine ⟨?_, tf, same_delete hp (hother (hlive _ hc) hmem), hsame⟩
    simp only
    split <;> exact hmem
  | leave _ _ todo hc | forget _ todo hc =>
    have hmem : p ∈ todo := hto' _ hc
    exact ⟨hmem, tf, hp, hsame⟩
  | _ => exact ⟨trivial, tf, hp, hsame⟩

/-- Only a file that is shut is not followed any more, and what is marked gone stays so. -/
theorem SourceMove.followed {pos : Positions} {effect : Effect ε}
    (hm : SourceMove c env pos src src' effect)
    (hnew : ∀ d x resumed, src.control = .registering d x resumed → src.file? x.path = none)
    (hp : src.file? p = some tf) :
    (∃ tf', src'.file? p = some tf' ∧ tf'.inode = tf.inode ∧ (tf.gone = true → tf'.gone = true)) ∨
      ∃ n todo, src.control = .closing p n todo ∧ drained tf n = true ∧ src'.file? p = none := by
  -- another file, or this one, has changed
  have hput : ∀ {q : Str} {x x' : TailedFile} {control : SourceControl}, src.file? q = some x →
      x'.path = x.path → x'.inode = x.inode → x'.gone = x.gone →
      ∃ tf', ({ src with files := src.put x', control } : Source).file? p = some tf' ∧
        tf'.inode = tf.inode ∧ (tf.gone = true → tf'.gone = true) := by
    intro q x x' control hq hpath hinode hgone
    by_cases hne : p = q
    · subst hne
      cases hp.symm.trans hq
      exact ⟨x', findFile_put_self hq hpath, hinode, fun hg => hgone.trans hg⟩
    · exact ⟨tf, (file?_put_ne hq hpath hne).trans hp, rfl, id⟩
  have hmark : ∀ (f : TailedFile → Bool) (control : SourceControl),
      ∃ tf', ({ src with files := src.markGone f, control } : Source).file? p = some tf' ∧
        tf'.inode = tf.inode ∧ (tf.gone = true → tf'.gone = true) := by
    intro f control
    refine ⟨if f tf then { tf with gone := true } else tf, file?_markGone hp, ?_, ?_⟩
    · split <;> rfl
    · intro hg
      split
      · rfl
      · exact hg
  cases hm with
  | endSearch | check => exact .inl (hmark _ _)
  | register d x resumed hc =>
    refine .inl ⟨tf, ?_, rfl, id⟩
    rw [Source.file?, findFile_snoc (hnew d x resumed hc), if_neg]
    · exact hp
    · rintro rfl
      cases hp.symm.trans (hnew d x resumed hc)
  | rewind q todo x hc hq =>
    obtain ⟨hpath, hinode, hgone⟩ := rewind_same (env.data x.inode).length x
    exact .inl (hput hq hpath hinode hgone)
  | fill _ _ _ _ _ _ hq | line _ _ _ _ _ _ _ _ hq | rest _ _ _ _ _ _ _ hq
  | keep _ _ _ _ _ _ _ _ hq => exact .inl (hput hq rfl rfl rfl)
  | shut q n todo x hc hq hd =>
    by_cases hne : p = q
    · subst hne
      cases hp.symm.trans hq
      refine .inr ⟨n, todo, hc, hd, ?_⟩
      rw [Source.file?, findFile_delete, if_pos rfl]
    · exact .inl ⟨tf, same_delete hp hne, rfl, id⟩
  | _ => exact .inl ⟨tf, hp, rfl, id⟩

/-- In this round the path of the file was looked up. -/
def Checked (p : Str) : SourceControl → Prop
  | .checking todo => p ∉ todo
  | .reading _ => True
  | .filling _ _ => True
  | .emitting _ _ _ _ _ => True
  | .closing _ _ _ => True
  | .forgetting _ _ => True
  | _ => False

/-- A file is marked gone when its path is looked up and does not lead to it. -/
theorem checked_move (hI : Inv cfg.source s) {tf' : TailedFile} (hp : s.src.file? p = some tf)
    (haway : ¬ Leads cfg.source.fs s.env.world p tf.inode)
    (hgone : Checked p s.src.control → tf.gone = true) {effect : Effect ε}
    (hm : SourceMove cfg.source s.env s.pos s.src src effect) (hp' : src.file? p = some tf')
    (hchecked : Checked p src.control) : tf'.gone = true := by
  have hnew : ∀ d x resumed, s.src.control = .registering d x resumed →
      s.src.file? x.path = none := by
    intro d x resumed hc
    have hctl := hI.controlOk hc
    exact hctl.1.new
  -- where the path was looked up before, the mark stays
  have hold : Checked p s.src.control → tf'.gone = true := by
    intro hc
    rcases hm.followed hnew hp with ⟨x, hx, -, hkeep⟩ | ⟨n, todo, -, -, hnone⟩
    · cases hp'.symm.trans hx
      exact hkeep (hgone hc)
    · cases hp'.symm.trans hnone
  have hpaths : p ∈ s.src.paths := mem_paths.mpr (by rw [hp]; rfl)
  cases hm with
  | noSearch | endSearch => exact absurd hpaths hchecked
  | check q todo hc =>
    by_cases hmem : p ∈ todo
    · have hqp : q = p := by
        by_contra hne
        exact hchecked ((mem_erase_of_ne (Ne.symm hne)).mpr hmem)
      subst hqp
      have hfind := hp'.symm.trans (file?_markGone hp)
      rw [if_pos] at hfind
      · rw [some.inj hfind]
      · simp only [findFile_path hp, beq_self_eq_true, Bool.true_and, bne_iff_ne]
        exact haway
    · exact hold (by rw [hc]; exact hmem)
  | endCheck hc => exact hold (by rw [hc]; exact not_mem_nil)
  | rewind _ _ _ hc | fill _ _ _ _ _ hc | line _ _ _ _ _ _ _ hc | rest _ _ _ _ _ _ hc
  | keep _ _ _ _ _ _ _ hc | shut _ _ _ _ hc | leave _ _ _ hc | forget _ _ hc =>
    exact hold (by rw [hc]; trivial)
  | _ => exact hchecked.elim

/-- After its turn, a round leaves the file alone or has closed it. -/
theorem hasRead_move (hdone : HasRead p s.src.control) (hbusy : s.src.control ≠ .idle)
    {effect : Effect ε} (hm : SourceMove cfg.source env s.pos s.src src effect) :
    HasRead p src.control ∧ ∀ tf, src.file? p = some tf → s.src.file? p = some tf := by
  have hdone' : ∀ c, s.src.control = c → HasRead p c := fun c hc => hc ▸ hdone
  have hother : ∀ {q todo}, p ∉ q :: todo → p ≠ q := fun hno he => hno (he ▸ mem_cons_self)
  cases hm with
  | search hc => exact absurd hc hbusy
  | noSearch hc => exact absurd hc hbusy
  | endRound => exact ⟨trivial, fun tf h => h⟩
  | rewind q todo x hc hq =>
    have hno : p ∉ q :: todo := hdone' _ hc
    exact ⟨hno, fun tf htf => (file?_put_ne hq (rewind_same _ x).1 (hother hno)).symm.trans htf⟩
  | fill q todo _ _ _ hc hq | line q _ _ _ _ todo _ hc hq =>
    have hno : p ∉ q :: todo := hdone' _ hc
    exact ⟨hno, fun tf htf => (file?_put_ne hq (by rfl) (hother hno)).symm.trans htf⟩
  | rest q _ _ todo _ _ hc hq | keep q _ _ _ todo _ _ hc hq =>
    have hno : p ∉ q :: todo := hdone' _ hc
    exact ⟨fun hm => hno (mem_cons_of_mem q hm),
      fun tf htf => (file?_put_ne hq (by rfl) (hother hno)).symm.trans htf⟩
  | shut q n todo x hc =>
    have hno : p ∉ todo := hdone' _ hc
    refine ⟨?_, fun tf htf => ?_⟩
    · simp only
      split <;> exact hno
    · rw [Source.file?, findFile_delete] at htf
      split at htf
      · cases htf
      · exact htf
  | leave _ _ todo hc | forget _ todo hc =>
    have hno : p ∉ todo := hdone' _ hc
    exact ⟨hno, fun tf h => h⟩
  | pass _ _ _ _ hc | candidate _ _ _ hc | nextGlob _ _ _ _ hc | endSearch _ hc
  | notOpened _ _ hc | opened _ _ _ hc | sized _ _ _ _ hc | choose _ _ _ _ _ hc
  | register _ _ _ hc | check _ _ hc | endCheck hc => exact (hdone' _ hc).elim

end YominsAgent.Logs
