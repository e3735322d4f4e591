import YominsAgent.Transport.Ledger

/- The end of the event pipeline: `Pipeline.Run` (`internal/events/pipeline.go`) and
   `EventHTTPTransport.Run` (`internal/transport/events.go`) when the context they share is
   cancelled.

   The collectors send on the fan-in channel, the fan-in loop receives an event and pushes it into
   the buffer, and the transport flushes the buffer at every tick and once more after the
   cancellation. `startEventPipeline` runs the two in goroutines of their own and neither waits for
   the other, so the last flush may drain the buffer while events of before the cancellation are in
   the channel (`channel_event_not_posted`). With a session that is not paused, a server that
   accepts and room in the buffer, all of them are posted exactly if the fan-in loop has pushed them
   when the last flush begins (`last_flush_takes_all_iff`).

   Correspondence (Go ↔ Lean):
     `p.fanIn`, the `ev` of the fan-in loop ↔ `Shutdown.fanIn`, `hand`
     `wg.Wait`, `close(p.fanIn)`            ↔ `running`, `closed`
     a tick and what its flush does         ↔ `ShutdownLabel.flush`
     the branch of `<-ctx.Done()`           ↔ `ShutdownLabel.lastFlush`
   The flush and its posts are those of `Transport.Ledger`. A send on the closed channel ends the
   program and is not a step. -/
namespace YominsAgent.Transport
open Lib Events List Option

variable {ε : Type} {a : LedgerLabel ε} {now : Int} {e : ε} {x : Arrival ε}

structure Shutdown (ε : Type) where
  ledger : Ledger ε
  fanIn : List ε := []
  /-- received and not yet pushed -/
  hand : Option ε := none
  /-- collectors that have not exited -/
  running : Nat
  closed : Bool := false
  cancelled : Bool := false
  /-- the events in the channel and in the buffer at the cancellation -/
  owed : List (Arrival ε) := []
  /-- the last flush has begun -/
  last : Bool := false

inductive ShutdownLabel (ε : Type) where
  | send (e : ε)
  | exit
  | close
  | receive
  | push
  | cancel
  | flush (a : LedgerLabel ε)
  | lastFlush (now : Int)

/-- Events with the numbers they are pushed under, from `n` on. -/
def numberFrom (n : Nat) (es : List ε) : List (Arrival ε) :=
  (es.zipIdx n).map fun p => ⟨p.2, p.1⟩

/-- No flush begins after the last one; the pushes are the fan-in loop's. -/
def Shutdown.flushes (s : Shutdown ε) : LedgerLabel ε → Bool
  | .push _ => false
  | .flush _ => !s.last
  | _ => true

section
variable [Inhabited ε] (size depth : Nat)

def Shutdown.step (s : Shutdown ε) : ShutdownLabel ε → Option (Shutdown ε)
  | .send e =>
    if !s.closed && s.fanIn.length < depth then some { s with fanIn := s.fanIn ++ [e] } else none
  | .exit => if 0 < s.running then some { s with running := s.running - 1 } else none
  | .close => if s.running = 0 && !s.closed then some { s with closed := true } else none
  | .receive =>
    match s.hand, s.fanIn with
    | none, e :: fanIn => some { s with hand := some e, fanIn }
    | _, _ => none
  | .push =>
    match s.hand with
    | none => none
    | some e => (s.ledger.step size (.push e)).map fun ledger => { s with ledger, hand := none }
  | .cancel =>
    if s.cancelled then none
    else some { s with
      cancelled := true
      owed := s.ledger.flush.buf.contents ++
        numberFrom (s.ledger.flush.arrived + s.hand.toList.length) s.fanIn }
  | .flush a =>
    if s.flushes a then (s.ledger.step size a).map fun ledger => { s with ledger } else none
  | .lastFlush now =>
    if s.cancelled && !s.last then
      (s.ledger.step size (.flush now)).map fun ledger => { s with ledger, last := true }
    else none

end

def Shutdown.init (collectors : Nat) (buf : RingBuffer (Arrival ε)) (session : Session) :
    Shutdown ε :=
  { ledger := Ledger.init buf session, running := collectors }

/-- `EventHTTPTransport.Run` has returned: its last flush is over. -/
def Shutdown.returned (s : Shutdown ε) : Bool :=
  match s.ledger.flush.phase with
  | .idle => s.last
  | _ => false

/-- The step neither overwrites an event nor has a batch refused. -/
def Ledger.spares (s : Ledger ε) : LedgerLabel ε → Bool
  | .push _ | .reenqueue => s.flush.buf.size < s.flush.buf.cap
  | .attempt _ a => !a.refusesBatch
  | _ => true

/-- After the cancellation the buffer has room and the server refuses nothing; the last
flush meets a session that is not paused and a server that accepts. -/
def favourable (s : Shutdown ε) : ShutdownLabel ε → Bool
  | .push => !s.cancelled || s.ledger.flush.buf.size < s.ledger.flush.buf.cap
  | .flush (.attempt _ a) =>
    if s.last then a.accepts else !s.cancelled || !a.refusesBatch
  | .flush a => !s.last && (!s.cancelled || s.ledger.spares a)
  | .lastFlush now => !s.ledger.session.paused now
  | _ => true

/-- When the last flush begins, the fan-in loop has pushed all that was in the channel at
the cancellation. -/
def emptied (s : Shutdown ε) : ShutdownLabel ε → Bool
  | .lastFlush _ => s.owed.all fun x => x.seq < s.ledger.flush.arrived
  | _ => true

theorem attempt_of_favourable {s : Shutdown ε} (hlast : s.last = true)
    (h : favourable s (.flush a) = true) : ∃ now b, a = .attempt now b ∧ b.accepts = true := by
  cases a with
  | attempt now b =>
    simp only [favourable, hlast, if_true] at h
    exact ⟨now, b, rfl, h⟩
  | _ => simp [favourable, hlast] at h

theorem accepts_not_refuses {a : Attempt} (h : a.accepts = true) : a.refusesBatch = false := by
  cases a with
  | noRequest => rfl
  | network => rfl
  | answered resp =>
    simp only [Attempt.accepts, ok2xx, Bool.and_eq_true, decide_eq_true_eq] at h
    simp [Attempt.refusesBatch, show ¬ 400 ≤ resp.status by omega]

theorem spares_of_favourable {s : Shutdown ε} (hc : s.cancelled = true)
    (h : favourable s (.flush a) = true) : s.ledger.spares a = true := by
  cases hlast : s.last with
  | true =>
    obtain ⟨now, b, rfl, hb⟩ := attempt_of_favourable hlast h
    simp [Ledger.spares, accepts_not_refuses hb]
  | false =>
    cases a with
    | attempt => simpa [favourable, hlast, hc, Ledger.spares] using h
    | _ => simpa [favourable, hlast, hc] using h

/-! ## The ledger under one step -/

section
variable [Inhabited ε] {size : Nat} {s s' : Ledger ε}

theorem Ledger.take_eq {a : FlushLabel ε} (hs : s.take size a = some s') :
    ∃ f, flushStep size s.flush a = some f ∧
      s' = { s with flush := f, overwritten := s.overwritten ++ (loses s.flush a).toList } := by
  obtain ⟨f, hf, rfl⟩ := map_eq_some_iff.mp hs
  exact ⟨f, hf, rfl⟩

theorem loses_of_room {f : FlushState ε} {a : FlushLabel ε} (h : f.buf.size < f.buf.cap) :
    loses f a = none := by
  have hnone : evicted f.buf.cap f.buf.contents = none := by
    rw [evicted, if_neg]
    rw [RingBuffer.contents_length]
    omega
  cases a with
  | push => exact hnone
  | reenqueue =>
    simp only [loses]
    split
    · exact hnone
    · rfl
  | flush => rfl
  | posted => rfl

/-- What one attempt leaves, by what it returns to `RetryNotify`. -/
theorem Ledger.attempt_eq {a : Attempt} (hs : s.step size (.attempt now a) = some s') :
    ∃ p, s.flush.phase.batch size = some p ∧ s'.pushed = s.pushed ∧ s'.overwritten = s.overwritten ∧
      s'.accepted = (s.answer p a).accepted ∧ s'.refused = (s.answer p a).refused ∧
      (a.accepts = true → flushStep size s.flush (.posted none) = some s'.flush) := by
  simp only [Ledger.step] at hs
  split at hs
  · cases hs
  · next p hp =>
    refine ⟨p, hp, ?_⟩
    have hagrees := doPost_agrees s.session now a
    cases hout : (doPost s.session now a).2 with
    | done =>
      rw [hout] at hs
      obtain ⟨f, hf, rfl⟩ := Ledger.take_eq hs
      exact ⟨rfl, append_nil _, rfl, rfl, fun _ => hf⟩
    | permanent =>
      rw [hout] at hs hagrees
      obtain ⟨f, hf, rfl⟩ := Ledger.take_eq hs
      exact ⟨rfl, append_nil _, rfl, rfl, fun ha => absurd (hagrees.1.symm.trans ha) Bool.false_ne_true⟩
    | retry =>
      rw [hout] at hs hagrees
      cases hs
      exact ⟨rfl, rfl, rfl, rfl, fun ha => absurd (hagrees.1.symm.trans ha) Bool.false_ne_true⟩

/-- A batch that could not be posted is neither refused nor overwritten. -/
theorem Ledger.fails_eq (ha : a = .marshalFails ∨ a = .giveUp) (hs : s.step size a = some s') :
    s'.pushed = s.pushed ∧ s'.refused = s.refused ∧ s'.overwritten = s.overwritten := by
  rcases ha with rfl | rfl <;> simp only [Ledger.step] at hs
  · split at hs
    · obtain ⟨f, -, rfl⟩ := Ledger.take_eq hs
      exact ⟨rfl, rfl, append_nil _⟩
    · cases hs
  · split at hs
    · cases hs
    · obtain ⟨f, -, rfl⟩ := Ledger.take_eq hs
      exact ⟨rfl, rfl, append_nil _⟩

theorem Ledger.pushed_step (ha : ∀ e, a ≠ .push e) (hs : s.step size a = some s') :
    s'.pushed = s.pushed := by
  cases a with
  | push e => exact absurd rfl (ha e)
  | attempt =>
    obtain ⟨p, -, hpushed, -⟩ := Ledger.attempt_eq hs
    exact hpushed
  | flush | reenqueue =>
    obtain ⟨f, -, rfl⟩ := Ledger.take_eq hs
    rfl
  | marshalFails | giveUp => exact (Ledger.fails_eq (by simp) hs).1

theorem Ledger.spares_step (ha : s.spares a = true) (hs : s.step size a = some s') :
    s'.refused = s.refused ∧ s'.overwritten = s.overwritten := by
  cases a with
  | push | reenqueue =>
    obtain ⟨f, -, rfl⟩ := Ledger.take_eq hs
    refine ⟨rfl, ?_⟩
    rw [loses_of_room (of_decide_eq_true ha)]
    exact append_nil _
  | attempt now a =>
    obtain ⟨p, -, -, hover, -, hrefused, -⟩ := Ledger.attempt_eq hs
    refine ⟨hrefused.trans ?_, hover⟩
    have hnot : a.refusesBatch = false := by simpa [Ledger.spares] using ha
    simp [Ledger.answer, hnot]
  | flush =>
    obtain ⟨f, -, rfl⟩ := Ledger.take_eq hs
    exact ⟨rfl, append_nil _⟩
  | marshalFails | giveUp => exact (Ledger.fails_eq (by simp) hs).2

/-- The events whose batches have been accepted or are being posted. -/
def Ledger.underway (s : Ledger ε) : Multiset (Arrival ε) :=
  (s.accepted : Multiset (Arrival ε)) + s.flush.phase.unsettled

theorem Ledger.underway_attempt {a : Attempt} (ha : a.accepts = true)
    (hs : s.step size (.attempt now a) = some s') : s'.underway = s.underway := by
  obtain ⟨p, hp, -, -, hacc, -, hflush⟩ := Ledger.attempt_eq hs
  obtain ⟨q, hq, hbuf, -, -, hkept⟩ := flushStep_posted (hflush ha)
  obtain rfl : p = q := some.inj (hp.symm.trans hq)
  have hsplit : (s.flush.phase.unsettled : Multiset (Arrival ε)) =
      s'.flush.phase.unsettled + p.batch := by
    simp only [FlushState.kept, hbuf, all_none, if_true, add_assoc] at hkept
    exact add_left_cancel hkept
  simp only [Ledger.underway, hacc, Ledger.answer, ha, if_true, hsplit, ← Multiset.coe_add]
  abel

theorem Ledger.underway_push (hs : s.step size (.push e) = some s') : s'.underway = s.underway := by
  obtain ⟨f, hf, rfl⟩ := Ledger.take_eq hs
  cases hf
  rfl

theorem Ledger.underway_flush (hgo : s.session.paused now = false)
    (hs : s.step size (.flush now) = some s') :
    s.flush.phase.unsettled = [] ∧ s'.underway = s.accepted + s.flush.buf.contents := by
  obtain ⟨f, hf, rfl⟩ := Ledger.take_eq hs
  simp only [flushStep, hgo] at hf
  split at hf
  · next hp =>
    rw [hp]
    refine ⟨rfl, ?_⟩
    have hfst := s.flush.buf.drain_fst
    simp only [Bool.false_eq_true, if_false] at hf
    split at hf
    · next buf hd =>
      cases hf
      rw [hd] at hfst
      rw [← hfst]
      simp only [Ledger.underway, hp, FlushPhase.unsettled]
    · next all buf hne hd =>
      cases hf
      rw [hd] at hfst
      rw [← hfst]
      rfl
  · cases hf

namespace Conserves
variable (h : Conserves size s)
include h

theorem length_pushed : s.pushed.length = s.flush.arrived := by
  rw [← length_map (·.seq), h.numbered, length_range]

theorem seq_lt (hx : x ∈ s.pushed) : x.seq < s.flush.arrived := by
  have hmem : x.seq ∈ s.pushed.map (·.seq) := mem_map_of_mem hx
  rw [h.numbered] at hmem
  exact mem_range.mp hmem

theorem mem_pushed (x : Arrival ε) : x ∈ s.pushed ↔
    x ∈ s.underway ∨ x ∈ s.refused ∨ x ∈ s.flush.buf.contents ∨ x ∈ s.overwritten := by
  rw [← Multiset.mem_coe, h.total]
  simp only [FlushState.kept, Ledger.underway, Multiset.mem_add, Multiset.mem_coe]
  tauto

/-- What is buffered has been neither refused nor overwritten. -/
theorem spared_of_mem_contents (hx : x ∈ s.flush.buf.contents) :
    x ∉ s.refused ∧ x ∉ s.overwritten := by
  have hnodup : (s.pushed : Multiset (Arrival ε)).Nodup := by
    refine Multiset.coe_nodup.mpr (List.Nodup.of_map (·.seq) ?_)
    rw [h.numbered]
    exact nodup_range
  rw [h.total, Multiset.nodup_add, Multiset.nodup_add] at hnodup
  obtain ⟨⟨-, -, hrefused⟩, -, hover⟩ := hnodup
  have hkept : x ∈ s.flush.kept := Multiset.mem_add.mpr (.inl (Multiset.mem_coe.mpr hx))
  constructor
  · intro hr
    exact Multiset.disjoint_left.mp hrefused
      (Multiset.mem_add.mpr (.inr (Multiset.mem_coe.mpr hr))) hkept
  · intro ho
    exact Multiset.disjoint_left.mp hover (Multiset.mem_add.mpr (.inr hkept))
      (Multiset.mem_coe.mpr ho)

end Conserves

end

/-! ## The events sent, in their order -/

theorem numberFrom_append (n : Nat) (es fs : List ε) :
    numberFrom n (es ++ fs) = numberFrom n es ++ numberFrom (n + es.length) fs := by
  simp [numberFrom, zipIdx_append]

theorem le_of_mem_numberFrom {n : Nat} {es : List ε} (h : x ∈ numberFrom n es) : n ≤ x.seq := by
  obtain ⟨p, hp, rfl⟩ := mem_map.mp h
  exact (mem_zipIdx hp).1

/-- All events sent so far, under their numbers: those pushed, the one in the hand of the
fan-in loop and those in the channel. -/
def Shutdown.sent (s : Shutdown ε) : List (Arrival ε) :=
  s.ledger.pushed ++ numberFrom s.ledger.flush.arrived (s.hand.toList ++ s.fanIn)

/-- What holds of the owed events along every favourable run. -/
structure Tracks [Inhabited ε] (size : Nat) (s : Shutdown ε) : Prop where
  conserves : Conserves size s.ledger
  sent : ∀ x ∈ s.owed, x ∈ s.sent
  spared : ∀ x ∈ s.owed, x ∉ s.ledger.refused ∧ x ∉ s.ledger.overwritten
  early : s.cancelled = false → s.owed = []
  late : s.last = true → s.cancelled = true

section
variable [Inhabited ε] {size depth : Nat} {s s' : Shutdown ε} {ledger : Ledger ε}

theorem Tracks.init (collectors : Nat) {capacity : Int} {buf : RingBuffer (Arrival ε)}
    (hbuf : newRingBuffer capacity = some buf) (session : Session) :
    Tracks size (Shutdown.init collectors buf session) :=
  ⟨conserves_init hbuf session, nofun, nofun, fun _ => rfl, nofun⟩

/-- A number that has been passed belongs to an event that was pushed. -/
theorem Tracks.pushed_of_lt (h : Tracks size s) (hx : x ∈ s.owed)
    (hlt : x.seq < s.ledger.flush.arrived) : x ∈ s.ledger.pushed := by
  apply (mem_append.mp (h.sent x hx)).resolve_right
  intro hwaiting
  have := le_of_mem_numberFrom hwaiting
  omega

/-- The ledger takes a step that spares the owed events, and nothing else changes but what
the fan-in loop holds. -/
theorem Tracks.of_ledger (h : Tracks size s) (hand : Option ε) (last : Bool)
    (hok : Conserves size ledger) (hsent : Shutdown.sent { s with ledger, hand, last } = s.sent)
    (hspared : s.cancelled = true →
      ledger.refused = s.ledger.refused ∧ ledger.overwritten = s.ledger.overwritten)
    (hlast : last = true → s.cancelled = true) : Tracks size { s with ledger, hand, last } := by
  refine ⟨hok, ?_, ?_, h.early, hlast⟩
  · intro x hx
    rw [hsent]
    exact h.sent x hx
  · intro x hx
    cases hc : s.cancelled with
    | false =>
      have hnone : s.owed = [] := h.early hc
      exact absurd (hnone ▸ hx) not_mem_nil
    | true =>
      obtain ⟨hrefused, hover⟩ := hspared hc
      rw [hrefused, hover]
      exact h.spared x hx

/-- A step of the transport leaves the events sent as they are. -/
theorem sent_of_flush (hsize : 0 < size) (h : Conserves size s.ledger) (last : Bool)
    (ha : ∀ e, a ≠ .push e) (hs : s.ledger.step size a = some ledger) :
    Shutdown.sent { s with ledger, last } = s.sent := by
  have hpushed : ledger.pushed = s.ledger.pushed := Ledger.pushed_step ha hs
  have harrived : ledger.flush.arrived = s.ledger.flush.arrived := by
    rw [← (h.step hsize hs).length_pushed, hpushed, h.length_pushed]
  simp only [Shutdown.sent, hpushed, harrived]

/-- The event in the hand of the fan-in loop joins those pushed, under its number. -/
theorem sent_of_push (he : s.hand = some e) (hs : s.ledger.step size (.push e) = some ledger) :
    Shutdown.sent { s with ledger, hand := none } = s.sent := by
  obtain ⟨f, hf, rfl⟩ := Ledger.take_eq hs
  cases hf
  simp [Shutdown.sent, he, numberFrom, zipIdx_cons]

theorem Tracks.step (hsize : 0 < size) (h : Tracks size s) {a : ShutdownLabel ε}
    (hs : guarded favourable (Shutdown.step size depth) s a = some s') : Tracks size s' := by
  obtain ⟨hfav, hs⟩ := guarded_eq_some.mp hs
  cases a with
  | send =>
    obtain ⟨-, ⟨⟩⟩ := ite_none_right_eq_some.mp hs
    refine ⟨h.conserves, ?_, h.spared, h.early, h.late⟩
    intro x hx
    have hmem := h.sent x hx
    simp only [Shutdown.sent, ← append_assoc, numberFrom_append] at hmem ⊢
    exact mem_append_left _ hmem
  | exit | close =>
    obtain ⟨-, ⟨⟩⟩ := ite_none_right_eq_some.mp hs
    exact ⟨h.conserves, h.sent, h.spared, h.early, h.late⟩
  | receive =>
    simp only [Shutdown.step] at hs
    split at hs
    · next e fanIn hhand hfan =>
      cases hs
      refine ⟨h.conserves, ?_, h.spared, h.early, h.late⟩
      intro x hx
      have hmem := h.sent x hx
      simpa only [Shutdown.sent, hhand, hfan, toList_none, toList_some,
        nil_append, singleton_append] using hmem
    · cases hs
  | push =>
    simp only [Shutdown.step] at hs
    split at hs
    · cases hs
    · next e hhand =>
      obtain ⟨ledger, hl, rfl⟩ := map_eq_some_iff.mp hs
      refine h.of_ledger none s.last (h.conserves.step hsize hl) (sent_of_push hhand hl) ?_ h.late
      intro hc
      refine Ledger.spares_step ?_ hl
      simpa [favourable, hc, Ledger.spares] using hfav
  | cancel =>
    obtain ⟨-, ⟨⟩⟩ := ite_none_left_eq_some.mp hs
    refine ⟨h.conserves, ?_, ?_, nofun, fun _ => rfl⟩
    · intro x hx
      simp only [Shutdown.sent, numberFrom_append]
      rcases mem_append.mp hx with hx | hx
      · exact mem_append_left _
          ((h.conserves.mem_pushed x).mpr (.inr (.inr (.inl hx))))
      · exact mem_append_right _ (mem_append_right _ hx)
    · intro x hx
      rcases mem_append.mp hx with hx | hx
      · exact h.conserves.spared_of_mem_contents hx
      · -- not pushed yet
        have hnot : x ∉ s.ledger.pushed := by
          intro hp
          have hlt := h.conserves.seq_lt hp
          have hle := le_of_mem_numberFrom hx
          omega
        rw [h.conserves.mem_pushed] at hnot
        tauto
  | flush a =>
    obtain ⟨hflushes, hs⟩ := ite_none_right_eq_some.mp hs
    obtain ⟨ledger, hl, rfl⟩ := map_eq_some_iff.mp hs
    have hnot : ∀ e, a ≠ .push e := by
      intro e he
      rw [he] at hflushes
      cases hflushes
    refine h.of_ledger s.hand s.last (h.conserves.step hsize hl)
      (sent_of_flush hsize h.conserves s.last hnot hl) ?_ h.late
    intro hc
    refine Ledger.spares_step ?_ hl
    exact spares_of_favourable hc hfav
  | lastFlush now =>
    obtain ⟨hc, hs⟩ := ite_none_right_eq_some.mp hs
    obtain ⟨ledger, hl, rfl⟩ := map_eq_some_iff.mp hs
    have hcancelled : s.cancelled = true := (Bool.and_eq_true_iff.mp hc).1
    have hsent := sent_of_flush (a := .flush now) hsize h.conserves true nofun hl
    exact h.of_ledger s.hand true (h.conserves.step hsize hl) hsent
      (fun _ => Ledger.spares_step rfl hl) (fun _ => hcancelled)

/-! ## From the beginning of the last flush on -/

/-- Once the last flush has begun, every owed event is posted or about to be. -/
def Underway (s : Shutdown ε) : Prop := s.last = true → ∀ x ∈ s.owed, x ∈ s.ledger.underway

/-- After it has begun, nothing joins or leaves what it posts. -/
theorem underway_step (hlast : s.last = true) {a : ShutdownLabel ε} (hc : s.cancelled = true)
    (hs : guarded favourable (Shutdown.step size depth) s a = some s') :
    s'.last = true ∧ s'.owed = s.owed ∧ s'.ledger.underway = s.ledger.underway := by
  obtain ⟨hfav, hs⟩ := guarded_eq_some.mp hs
  cases a with
  | send | exit | close | receive =>
    simp only [Shutdown.step] at hs
    split at hs
    · cases hs
      exact ⟨hlast, rfl, rfl⟩
    · cases hs
  | push =>
    simp only [Shutdown.step] at hs
    split at hs
    · cases hs
    · obtain ⟨ledger, hl, rfl⟩ := map_eq_some_iff.mp hs
      exact ⟨hlast, rfl, Ledger.underway_push hl⟩
  | cancel => exact absurd hc (ite_none_left_eq_some.mp hs).1
  | flush =>
    obtain ⟨-, hs⟩ := ite_none_right_eq_some.mp hs
    obtain ⟨ledger, hl, rfl⟩ := map_eq_some_iff.mp hs
    obtain ⟨now, b, rfl, hb⟩ := attempt_of_favourable hlast hfav
    exact ⟨hlast, rfl, Ledger.underway_attempt hb hl⟩
  | lastFlush => simp [Shutdown.step, hlast] at hs

theorem lastFlush_step
    (hs : guarded favourable (Shutdown.step size depth) s (.lastFlush now) = some s') :
    s'.last = true ∧ s'.owed = s.owed ∧ s.ledger.flush.phase.unsettled = [] ∧
      s'.ledger.underway = s.ledger.accepted + s.ledger.flush.buf.contents := by
  obtain ⟨hfav, hs⟩ := guarded_eq_some.mp hs
  obtain ⟨-, hs⟩ := ite_none_right_eq_some.mp hs
  obtain ⟨ledger, hl, rfl⟩ := map_eq_some_iff.mp hs
  have hgo : s.ledger.session.paused now = false := by simpa [favourable] using hfav
  exact ⟨rfl, rfl, Ledger.underway_flush hgo hl⟩

theorem last_of_step {a : ShutdownLabel ε} (ha : ∀ now, a ≠ .lastFlush now)
    (hs : s.step size depth a = some s') : s'.last = s.last := by
  cases a with
  | lastFlush now => exact absurd rfl (ha now)
  | push =>
    simp only [Shutdown.step] at hs
    split at hs
    · cases hs
    · obtain ⟨ledger, -, rfl⟩ := map_eq_some_iff.mp hs
      rfl
  | flush =>
    obtain ⟨-, hs⟩ := ite_none_right_eq_some.mp hs
    obtain ⟨ledger, -, rfl⟩ := map_eq_some_iff.mp hs
    rfl
  | _ =>
    simp only [Shutdown.step] at hs
    split at hs <;> cases hs
    rfl

theorem Underway.step (ht : Tracks size s) (h : Underway s) {a : ShutdownLabel ε}
    (hemptied : emptied s a = true)
    (hs : guarded favourable (Shutdown.step size depth) s a = some s') : Underway s' := by
  intro hlast' x hx
  cases hlast : s.last with
  | true =>
    obtain ⟨-, howed, hunder⟩ := underway_step hlast (ht.late hlast) hs
    rw [hunder]
    exact h hlast x (howed ▸ hx)
  | false =>
    by_cases ha : ∃ now, a = .lastFlush now
    · obtain ⟨now, rfl⟩ := ha
      obtain ⟨-, howed, hidle, hunder⟩ := lastFlush_step hs
      rw [howed] at hx
      have hlt : x.seq < s.ledger.flush.arrived := by
        simpa using all_eq_true.mp hemptied x hx
      have hpushed := (ht.conserves.mem_pushed x).mp (ht.pushed_of_lt hx hlt)
      obtain ⟨hrefused, hover⟩ := ht.spared x hx
      rw [hunder]
      simp only [Ledger.underway, hidle, Multiset.mem_add, Multiset.mem_coe, not_mem_nil,
        or_false] at hpushed ⊢
      tauto
    · have hsame := last_of_step (fun now he => ha ⟨now, he⟩) (guarded_eq_some.mp hs).2
      rw [hlast, hlast'] at hsame
      cases hsame

/-- What the last flush posts had been pushed when it began. -/
theorem emptied_of_underway (ht : Tracks size s) {a : ShutdownLabel ε}
    (hs : guarded favourable (Shutdown.step size depth) s a = some s') (h : Underway s') :
    emptied s a = true := by
  cases a with
  | lastFlush =>
    obtain ⟨hlast, howed, -, hunder⟩ := lastFlush_step hs
    refine all_eq_true.mpr ?_
    intro x hx
    have hmem := h hlast x (howed ▸ hx)
    rw [hunder] at hmem
    have hpushed : x ∈ s.ledger.pushed := by
      rw [ht.conserves.mem_pushed]
      simp only [Ledger.underway, Multiset.mem_add, Multiset.mem_coe] at hmem ⊢
      tauto
    exact decide_eq_true (ht.conserves.seq_lt hpushed)
  | _ => rfl

/-- An owed event the last flush has left behind stays behind. -/
theorem underway_of_later (hsize : 0 < size) {as : List (ShutdownLabel ε)} (ht : Tracks size s)
    (h : run (guarded favourable (Shutdown.step size depth)) s as = some s')
    (hlater : Underway s') : Underway s := by
  intro hlast
  let left (t : Shutdown ε) : Prop := t.last = true ∧ Tracks size t ∧ t.owed = s.owed ∧
    t.ledger.underway = s.ledger.underway
  have hleft : left s' := by
    refine run_inv (I := left) ?_ as s s' ⟨hlast, ht, rfl, rfl⟩ h
    intro t a t' ⟨hl, htt, ho, hu⟩ hs
    obtain ⟨hl', ho', hu'⟩ := underway_step hl (htt.late hl) hs
    exact ⟨hl', htt.step hsize hs, ho'.trans ho, hu'.trans hu⟩
  obtain ⟨hl, -, ho, hu⟩ := hleft
  rw [← ho, ← hu]
  exact hlater hl

omit [Inhabited ε] in
theorem last_of_returned (h : s.returned = true) :
    s.last = true ∧ s.ledger.underway = s.ledger.accepted := by
  unfold Shutdown.returned at h
  split at h
  · next hidle => exact ⟨h, by simp [Ledger.underway, hidle, FlushPhase.unsettled]⟩
  · cases h

end

/-- For every interleaving of the collectors, the fan-in loop and the transport, with room
in the buffer, a session that is not paused and a server that accepts: when
`EventHTTPTransport.Run` has returned, every event that was in the fan-in channel or the
buffer at the cancellation has been posted, exactly if the fan-in loop had pushed them all
when the last flush began. -/
theorem last_flush_takes_all_iff [Inhabited ε] (configured capacity : Int) (depth collectors : Nat)
    {buf : RingBuffer (Arrival ε)} (hbuf : newRingBuffer capacity = some buf) (session : Session)
    (as : List (ShutdownLabel ε)) {s : Shutdown ε}
    (h : run (guarded favourable (Shutdown.step (batchSize configured) depth))
      (Shutdown.init collectors buf session) as = some s)
    (hreturned : s.returned = true) :
    (∀ x ∈ s.owed, x ∈ s.ledger.accepted) ↔
    run (guarded emptied (guarded favourable (Shutdown.step (batchSize configured) depth)))
      (Shutdown.init collectors buf session) as = some s := by
  have hsize := batchSize_pos configured
  have hinit : Tracks (batchSize configured) (Shutdown.init collectors buf session) :=
    Tracks.init collectors hbuf session
  have hposted : Underway s ↔ ∀ x ∈ s.owed, x ∈ s.ledger.accepted := by
    obtain ⟨hlast, hunder⟩ := last_of_returned hreturned
    simp [Underway, hlast, hunder]
  have hruns := run_guarded_iff (I := Tracks (batchSize configured)) (P := Underway)
    (G := emptied) (fun _ _ _ ht hs => ht.step hsize hs)
    (fun _ _ _ ht hP hs => hP.step ht (guarded_eq_some.mp hs).1 (guarded_eq_some.mp hs).2)
    (fun _ _ _ ht hs hP => emptied_of_underway ht hs hP) as _ s hinit nofun h
  rw [← hposted, ← hruns]
  constructor
  · intro hend as1 as2 m has hm
    rw [has, run_append, hm] at h
    have htm : Tracks (batchSize configured) m :=
      run_inv (fun _ _ _ ht hs => ht.step hsize hs) as1 _ m hinit hm
    exact underway_of_later hsize htm h hend
  · intro hall
    exact hall as [] s (append_nil as).symm h

/-- One event is in the buffer and one in the channel at the cancellation, and the fan-in
loop pushes the second one before the last flush. -/
def pushedInTime : List (ShutdownLabel Nat) :=
  [.send 7, .receive, .push, .send 8, .cancel, .exit, .close, .receive, .push, .lastFlush 0,
   .flush (.attempt 0 (.answered ⟨204, [], [], [], []⟩))]

theorem pushed_in_time_posted : ∃ (buf : RingBuffer (Arrival Nat)) (s : Shutdown Nat),
    newRingBuffer 4 = some buf ∧
    run (guarded favourable (Shutdown.step (batchSize 200) 256))
      (Shutdown.init 1 buf newSession) pushedInTime = some s ∧ s.returned = true ∧
    s.owed = [⟨0, 7⟩, ⟨1, 8⟩] ∧ ∀ x ∈ s.owed, x ∈ s.ledger.accepted :=
  ⟨_, _, rfl, rfl, rfl, rfl,
    (last_flush_takes_all_iff 200 4 256 1 rfl newSession pushedInTime rfl rfl).mpr rfl⟩

/-- The transport reacts to the cancellation before the fan-in loop has taken the second
event from the channel: `Run` returns and the event is never posted. -/
theorem channel_event_not_posted : ∃ (buf : RingBuffer (Arrival Nat)) (s : Shutdown Nat),
    newRingBuffer 4 = some buf ∧
    run (guarded favourable (Shutdown.step (batchSize 200) 256))
      (Shutdown.init 1 buf newSession)
      [.send 7, .receive, .push, .send 8, .cancel, .lastFlush 0,
        .flush (.attempt 0 (.answered ⟨204, [], [], [], []⟩)), .exit, .close, .receive, .push] =
      some s ∧
    s.returned = true ∧ s.owed = [⟨0, 7⟩, ⟨1, 8⟩] ∧ s.ledger.accepted = [⟨0, 7⟩] ∧
    s.ledger.flush.buf.contents = [⟨1, 8⟩] :=
  ⟨(newRingBuffer (ε := Arrival Nat) 4).get rfl, _, rfl, rfl, rfl, rfl, rfl, rfl⟩

end YominsAgent.Transport
