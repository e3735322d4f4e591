import Mathlib.Algebra.Order.Group.Multiset
import Mathlib.Tactic.Abel
import YominsAgent.Transport.Flush

/- Where every event goes: `EventHTTPTransport.flush` with the attempts of `postBatch`
   (`events.go`), beside the pipeline that pushes.

   `Ledger` keeps, next to the flush of `Transport.Flush`, the events that were pushed,
   those of the batches the server has answered with a 2xx or refused as bad, and those
   overwritten. At any time the pushed events are these, those in the buffer and those
   a flush has drained and not settled (`event_conservation`).

   Correspondence (Go ↔ Lean):
     `flush`                   ↔ `FlushLabel`, taken by `Ledger.take`
     `all[i:end]`              ↔ `FlushPhase.batch`
     one call of `doPost`      ↔ `LedgerLabel.attempt`
     `backoff.RetryNotify` that stops retrying ↔ `LedgerLabel.giveUp`
     `json.Marshal` that fails ↔ `LedgerLabel.marshalFails`
     `NewEventHTTPTransport`   ↔ `batchSize`, for the size of the batches

   `RetryNotify` returns the error that is wrapped in a permanent one. -/
namespace YominsAgent.Transport
open Lib Events List Option

variable {ε : Type}

/-- The size of a batch: a configured one that is not positive gets the default. -/
def batchSize (configured : Int) : Nat := if configured ≤ 0 then 200 else configured.toNat

theorem batchSize_pos (configured : Int) : 0 < batchSize configured := by
  unfold batchSize
  split <;> omega

def Attempt.accepts : Attempt → Bool
  | .answered resp => ok2xx resp.status
  | _ => false

/-- The answer is a 4xx other than 401, 403 and 429. -/
def Attempt.refusesBatch : Attempt → Bool
  | .answered resp => 400 ≤ resp.status && resp.status < 500 &&
      !(resp.status == 401 || resp.status == 403 || resp.status == 429)
  | _ => false

/-- A posted batch, with the drained events it is from. -/
structure Posted (ε : Type) where
  all : List (Arrival ε)
  batch : List (Arrival ε)

structure Ledger (ε : Type) where
  flush : FlushState ε
  session : Session
  /-- the error `postBatch` is about to retry after -/
  retrying : Option Failure := none
  pushed : List (Arrival ε) := []
  accepted : List (Arrival ε) := []
  refused : List (Arrival ε) := []
  overwritten : List (Arrival ε) := []
  posts : List (Posted ε) := []

inductive LedgerLabel (ε : Type) where
  | push (e : ε)
  | flush (now : Int)
  | marshalFails
  | attempt (now : Int) (a : Attempt)
  | giveUp
  | reenqueue

/-- The batch `postBatch` runs for, and all drained events. -/
def FlushPhase.batch (size : Nat) : FlushPhase ε → Option (Posted ε)
  | .posting all i => some ⟨all, (all.drop i).take size⟩
  | _ => none

section
variable [Inhabited ε] (size : Nat)

/-- A step of the flush or of the pipeline, with what it overwrites. -/
def Ledger.take (s : Ledger ε) (a : FlushLabel ε) : Option (Ledger ε) :=
  (flushStep size s.flush a).map fun flush =>
    { s with flush, overwritten := s.overwritten ++ (loses s.flush a).toList }

def Ledger.answer (s : Ledger ε) (p : Posted ε) (a : Attempt) : Ledger ε :=
  { s with
    posts := s.posts ++ [p]
    accepted := if a.accepts then s.accepted ++ p.batch else s.accepted
    refused := if a.refusesBatch then s.refused ++ p.batch else s.refused }

def Ledger.step (s : Ledger ε) : LedgerLabel ε → Option (Ledger ε)
  | .push e => Ledger.take size { s with pushed := s.pushed ++ [⟨s.flush.arrived, e⟩] } (.push e)
  | .flush now => s.take size (.flush (s.session.paused now))
  | .marshalFails =>
    match s.retrying with
    | none => s.take size (.posted (some .marshal))
    | some _ => none
  | .attempt now a =>
    match s.flush.phase.batch size with
    | none => none
    | some p =>
      let (session, outcome) := doPost s.session now a
      let s := { s.answer p a with session }
      match outcome with
      | .done => Ledger.take size { s with retrying := none } (.posted none)
      | .permanent e => Ledger.take size { s with retrying := none } (.posted (some e))
      | .retry e => some { s with retrying := some e }
  | .giveUp =>
    match s.retrying with
    | none => none
    | some e => Ledger.take size { s with retrying := none } (.posted (some e))
  | .reenqueue => s.take size .reenqueue

end

def Ledger.init (buf : RingBuffer (Arrival ε)) (session : Session) : Ledger ε :=
  { flush := flushInit buf, session }

/-- Drained by a flush in progress and not yet settled. -/
def FlushPhase.unsettled : FlushPhase ε → List (Arrival ε)
  | .idle => []
  | .posting all i => all.drop i
  | .putBack rest => rest

/-! ## What the flush keeps -/

@[simp] theorem unsettled_nextBatchOf (size : Nat) (all : List (Arrival ε)) (i : Nat) :
    (nextBatchOf size all i).unsettled = all.drop (i + size) := by
  unfold nextBatchOf
  split
  · rfl
  · next h => rw [drop_eq_nil_of_le (by omega)]; rfl

@[simp] theorem unsettled_putBackOf (rest : List (Arrival ε)) :
    (putBackOf rest).unsettled = rest := by
  cases rest <;> rfl

variable [Inhabited ε]

/-- The events in the buffer and in a flush. -/
def FlushState.kept (s : FlushState ε) : Multiset (Arrival ε) :=
  (s.buf.contents : Multiset (Arrival ε)) + s.phase.unsettled

theorem contents_push_add (r : RingBuffer (Arrival ε)) (x : Arrival ε) :
    ((r.push x).contents : Multiset (Arrival ε)) + (evicted r.cap r.contents).toList =
      r.contents + {x} := by
  have h := evicted_append_pushBounded r.cap_pos r.contents x
  rw [← RingBuffer.contents_push] at h
  rw [add_comm, Multiset.coe_add, h, ← Multiset.coe_add, Multiset.coe_singleton]

theorem dropped_push (r : RingBuffer (Arrival ε)) (x : Arrival ε) :
    (r.push x).dropped = r.dropped + UInt64.ofNat (evicted r.cap r.contents).toList.length := by
  rw [length_evicted r.cap_pos, RingBuffer.contents_length]
  unfold RingBuffer.push
  split
  · rfl
  · exact (UInt64.add_zero _).symm

/-- What `doPost` returns says what the server's answer says. -/
def Attempt.Agrees (a : Attempt) : Outcome → Prop
  | .done => a.accepts = true ∧ a.refusesBatch = false
  | .permanent e => a.accepts = false ∧ a.refusesBatch = isBadBatch e
  | .retry e => a.accepts = false ∧ a.refusesBatch = false ∧ isBadBatch e = false

theorem doPost_agrees (s : Session) (now : Int) (a : Attempt) : a.Agrees (doPost s now a).2 := by
  cases a with
  | noRequest => exact ⟨rfl, rfl⟩
  | network => exact ⟨rfl, rfl, rfl⟩
  | answered resp =>
    simp only [doPost, attempt]
    by_cases hok : ok2xx resp.status = true
    · rw [if_pos hok]
      refine ⟨hok, ?_⟩
      rw [ok2xx_iff] at hok
      simp [Attempt.refusesBatch, show ¬ 400 ≤ resp.status by omega]
    · rw [if_neg hok]
      have hno : Attempt.accepts (.answered resp) = false := by simpa [Attempt.accepts] using hok
      by_cases hagent : refusesAgent resp.status = true
      · rw [if_pos hagent]
        refine ⟨hno, ?_⟩
        rcases refusesAgent_iff.mp hagent with hr | hr <;> simp [Attempt.refusesBatch, hr, isBadBatch]
      · rw [if_neg hagent]
        rw [refusesAgent_iff, not_or] at hagent
        split
        · next hb =>
          simp only [Bool.and_eq_true, bne_iff_ne] at hb
          exact ⟨hno, by simp [Attempt.refusesBatch, isBadBatch, hb, hagent]⟩
        · next hb =>
          simp only [Bool.and_eq_true, decide_eq_true_eq, bne_iff_ne] at hb
          refine ⟨hno, ?_, rfl⟩
          simp only [Attempt.refusesBatch, Bool.and_eq_false_iff, decide_eq_false_iff_not,
            Bool.not_eq_false', Bool.or_eq_true, beq_iff_eq]
          omega

theorem flushStep_posted {size : Nat} {f f' : FlushState ε} {err : Option Failure}
    (h : flushStep size f (.posted err) = some f') :
    ∃ p, f.phase.batch size = some p ∧ f'.buf = f.buf ∧ f'.arrived = f.arrived ∧ f'.phase.Live ∧
      f.kept = f'.kept + if err.all isBadBatch then (p.batch : Multiset (Arrival ε)) else 0 := by
  simp only [flushStep] at h
  split at h
  · next all i hp =>
    have hbatch : f.phase.batch size = some ⟨all, (all.drop i).take size⟩ := by rw [hp]; rfl
    have hnext : f.kept = FlushState.kept { f with phase := nextBatchOf size all i } +
        ((all.drop i).take size : Multiset (Arrival ε)) := by
      have hsplit : (all.drop i : Multiset (Arrival ε)) =
          (all.drop i).take size + all.drop (i + size) := by
        rw [Multiset.coe_add, ← drop_drop, take_append_drop]
      simp only [FlushState.kept, hp, unsettled_nextBatchOf]
      rw [show FlushPhase.unsettled (.posting all i) = all.drop i from rfl, hsplit]
      abel
    have hlive : (nextBatchOf size all i).Live := by
      rcases nextBatchOf_cases size all i with ⟨hn, hlt⟩ | hn <;> rw [hn]
      · exact hlt
      · trivial
    refine ⟨_, hbatch, ?_⟩
    cases err with
    | none =>
      cases h
      exact ⟨rfl, rfl, hlive, hnext⟩
    | some =>
      simp only at h
      split at h
      · next hb =>
        cases h
        exact ⟨rfl, rfl, hlive, by rw [all_some, if_pos hb]; exact hnext⟩
      · next hb =>
        cases h
        refine ⟨rfl, rfl, live_putBackOf _, ?_⟩
        rw [all_some, if_neg hb, add_zero]
        simp only [FlushState.kept, hp, unsettled_putBackOf]
        rfl
  · cases h

/-! ## Conservation -/

/-- A batch is a piece of what was drained, of at most `size` events. -/
structure Posted.Ok (size : Nat) (p : Posted ε) : Prop where
  nonempty : p.batch ≠ []
  length : p.batch.length ≤ size
  slice : p.batch <:+: p.all

omit [Inhabited ε] in
theorem posted_ok {size : Nat} (hsize : 0 < size) {phase : FlushPhase ε} {p : Posted ε}
    (hlive : phase.Live) (hp : phase.batch size = some p) : p.Ok size := by
  cases phase with
  | idle => cases hp
  | putBack => cases hp
  | posting all i =>
    cases hp
    have hlt : i < all.length := hlive
    refine ⟨?_, length_take_le _ _, ?_⟩
    · apply ne_nil_of_length_pos
      rw [length_take, length_drop]
      omega
    · exact (List.take_prefix _ _).isInfix.trans (drop_suffix i all).isInfix

structure Conserves (size : Nat) (s : Ledger ε) : Prop where
  total : (s.pushed : Multiset (Arrival ε)) =
    s.accepted + s.refused + s.flush.kept + s.overwritten
  dropped : s.flush.buf.dropped = UInt64.ofNat s.overwritten.length
  numbered : s.pushed.map (·.seq) = List.range s.flush.arrived
  posts : ∀ p ∈ s.posts, p.Ok size
  live : s.flush.phase.Live
  retry : ∀ e, s.retrying = some e → isBadBatch e = false

variable {size : Nat} {s s' : Ledger ε}

theorem conserves_init {capacity : Int} {buf : RingBuffer (Arrival ε)}
    (hbuf : newRingBuffer capacity = some buf) (session : Session) :
    Conserves size (Ledger.init buf session) := by
  have hnone : buf.contents = [] := (newRingBuffer_contents hbuf).1
  have hdropped : buf.dropped = 0 := by
    unfold newRingBuffer at hbuf
    split at hbuf
    · cases hbuf
    · cases hbuf
      rfl
  refine ⟨?_, hdropped, rfl, by simp [Ledger.init], trivial, by simp [Ledger.init]⟩
  simp [Ledger.init, flushInit, FlushState.kept, hnone, FlushPhase.unsettled]

theorem Conserves.push (h : Conserves size s) {e : ε} (hs : s.step size (.push e) = some s') :
    Conserves size s' := by
  cases hs
  refine ⟨?_, ?_, ?_, h.posts, h.live, h.retry⟩
  · have hbuf := contents_push_add s.flush.buf ⟨s.flush.arrived, e⟩
    simp only [loses, FlushState.kept, ← Multiset.coe_add, h.total]
    calc (s.accepted : Multiset (Arrival ε)) + s.refused +
          (s.flush.buf.contents + s.flush.phase.unsettled) + s.overwritten +
          {⟨s.flush.arrived, e⟩}
        = (s.flush.buf.contents + {⟨s.flush.arrived, e⟩}) + (s.accepted + s.refused +
            s.flush.phase.unsettled + s.overwritten) := by abel
      _ = _ := by rw [← hbuf]; abel
  · simp only [loses, dropped_push, length_append, h.dropped, UInt64.ofNat_add]
  · simp only [map_append, h.numbered]
    exact range_succ.symm

theorem Conserves.reenqueue (h : Conserves size s) (hs : s.step size .reenqueue = some s') :
    Conserves size s' := by
  obtain ⟨f, hf, rfl⟩ := map_eq_some_iff.mp hs
  simp only [flushStep] at hf
  split at hf
  · next e rest hp =>
    cases hf
    have hloses : loses s.flush .reenqueue =
        evicted s.flush.buf.cap s.flush.buf.contents := by rw [loses, hp]
    refine ⟨?_, ?_, h.numbered, h.posts, live_putBackOf rest, h.retry⟩
    · have hbuf := contents_push_add s.flush.buf e
      simp only [hloses, FlushState.kept, hp, unsettled_putBackOf, ← Multiset.coe_add, h.total]
      calc (s.accepted : Multiset (Arrival ε)) + s.refused +
            (s.flush.buf.contents + ({e} + (rest : Multiset (Arrival ε)))) + s.overwritten
          = (s.flush.buf.contents + {e}) + (s.accepted + s.refused + rest + s.overwritten) := by
            abel
        _ = _ := by rw [← hbuf]; abel
    · simp only [hloses, dropped_push, length_append, h.dropped, UInt64.ofNat_add]
  · cases hf

theorem drain_dropped (r : RingBuffer (Arrival ε)) : r.drain.2.dropped = r.dropped := by
  unfold RingBuffer.drain
  split <;> rfl

theorem Conserves.drain (h : Conserves size s) {now : Int}
    (hs : s.step size (.flush now) = some s') : Conserves size s' := by
  obtain ⟨f, hf, rfl⟩ := map_eq_some_iff.mp hs
  have hover : s.overwritten ++ (loses s.flush (.flush (s.session.paused now))).toList =
      s.overwritten := append_nil _
  rw [hover]
  suffices hkept : f.kept = s.flush.kept ∧ f.buf.dropped = s.flush.buf.dropped ∧
      f.arrived = s.flush.arrived ∧ f.phase.Live by
    obtain ⟨hkept, hdropped, harrived, hlive⟩ := hkept
    exact ⟨by rw [hkept]; exact h.total, hdropped.trans h.dropped,
      by rw [harrived]; exact h.numbered, h.posts, hlive, h.retry⟩
  have hfst := s.flush.buf.drain_fst
  have hsnd := s.flush.buf.drain_contents
  have hdropped := drain_dropped s.flush.buf
  simp only [flushStep] at hf
  split at hf
  · next hp =>
    split at hf
    · cases hf
      exact ⟨rfl, rfl, rfl, h.live⟩
    · split at hf
      · next buf hd =>
        cases hf
        rw [hd] at hfst hsnd hdropped
        exact ⟨by simp [FlushState.kept, hsnd, ← hfst], hdropped, rfl, h.live⟩
      · next all buf hne hd =>
        cases hf
        rw [hd] at hfst hsnd hdropped
        refine ⟨?_, hdropped, rfl, length_pos_iff.mpr hne⟩
        simp [FlushState.kept, hsnd, ← hfst, hp, FlushPhase.unsettled]
  · cases hf

/-- `postBatch` returns. What it returns settles the batch exactly if the server's answer
does. -/
theorem Conserves.posted (h : Conserves size s) {t : Ledger ε} {err : Option Failure}
    (hflush : t.flush = s.flush) (hpushed : t.pushed = s.pushed)
    (hover : t.overwritten = s.overwritten) (hretry : t.retrying = none)
    (hposts : ∀ p ∈ t.posts, p.Ok size)
    (hsettled : ∀ p, s.flush.phase.batch size = some p →
      (t.accepted : Multiset (Arrival ε)) + t.refused = s.accepted + s.refused +
        if err.all isBadBatch then (p.batch : Multiset (Arrival ε)) else 0)
    (hs : Ledger.take size t (.posted err) = some s') : Conserves size s' := by
  obtain ⟨f, hf, rfl⟩ := map_eq_some_iff.mp hs
  rw [hflush] at hf
  obtain ⟨p, hp, hbuf, harrived, hlive, hkept⟩ := flushStep_posted hf
  have hsame : t.overwritten ++ (loses t.flush (.posted err)).toList = s.overwritten := by
    rw [hover]
    exact append_nil _
  refine ⟨?_, ?_, ?_, hposts, hlive, fun e he => absurd (hretry.symm.trans he) nofun⟩
  · simp only [hsame, hpushed, h.total, hkept, hsettled p hp]
    abel
  · simp only [hsame, hbuf]
    exact h.dropped
  · simp only [hpushed, harrived]
    exact h.numbered

/-- One attempt: it settles the batch, puts the rest back, or is made again. -/
theorem Conserves.attempt (hsize : 0 < size) (h : Conserves size s) {now : Int} {a : Attempt}
    (hs : s.step size (.attempt now a) = some s') : Conserves size s' := by
  simp only [Ledger.step] at hs
  split at hs
  · cases hs
  · next p hp =>
    have hposts : ∀ q ∈ s.posts ++ [p], q.Ok size :=
      forall_mem_snoc.mpr ⟨h.posts, posted_ok hsize h.live hp⟩
    have hagrees := doPost_agrees s.session now a
    let t : Ledger ε := { s.answer p a with retrying := none, session := (doPost s.session now a).1 }
    cases hout : (doPost s.session now a).2 with
    | done =>
      rw [hout] at hs hagrees
      refine h.posted (t := t) rfl rfl rfl rfl hposts (fun q hq => ?_) hs
      obtain rfl := some.inj (hp.symm.trans hq)
      simp only [t, Ledger.answer, hagrees.1, hagrees.2, ← Multiset.coe_add, all_none, if_true]
      abel
    | permanent =>
      rw [hout] at hs hagrees
      refine h.posted (t := t) rfl rfl rfl rfl hposts (fun q hq => ?_) hs
      obtain rfl := some.inj (hp.symm.trans hq)
      simp only [t, Ledger.answer, hagrees.1, hagrees.2, all_some, Bool.false_eq_true, if_false]
      split
      · rw [← Multiset.coe_add]
        abel
      · abel
    | retry =>
      rw [hout] at hs hagrees
      obtain ⟨hacc, href, hbad⟩ := hagrees
      cases hs
      refine ⟨?_, h.dropped, h.numbered, hposts, h.live, fun e' he => ?_⟩
      · simpa [Ledger.answer, hacc, href] using h.total
      · rw [← some.inj he]
        exact hbad

theorem Conserves.step (hsize : 0 < size) (h : Conserves size s) {a : LedgerLabel ε}
    (hs : s.step size a = some s') : Conserves size s' := by
  cases a with
  | push => exact h.push hs
  | flush => exact h.drain hs
  | marshalFails =>
    simp only [Ledger.step] at hs
    split at hs
    · next hr =>
      refine h.posted rfl rfl rfl hr h.posts (fun p _ => ?_) hs
      simp [isBadBatch]
    · cases hs
  | attempt => exact h.attempt hsize hs
  | giveUp =>
    simp only [Ledger.step] at hs
    split at hs
    · cases hs
    · next e hr =>
      refine h.posted (t := { s with retrying := none }) rfl rfl rfl rfl h.posts (fun p _ => ?_) hs
      simp [h.retry e hr]
  | reenqueue => exact h.reenqueue hs

/-- For every interleaving of pushes with flushes, and any answers of the server: the events
pushed, each with the number of its arrival, are those in batches answered with a 2xx,
those in batches refused as bad, those in the buffer, those a flush has drained and not
settled, and those overwritten, whose number the buffer counts. Every batch posted is a
piece of the drained events, of at most the batch size. A flush that starts while the
session is paused changes nothing. -/
theorem event_conservation (configured capacity : Int) {buf : RingBuffer (Arrival ε)}
    (hbuf : newRingBuffer capacity = some buf) (session : Session) (as : List (LedgerLabel ε))
    (h : run (Ledger.step (batchSize configured)) (Ledger.init buf session) as = some s) :
    (s.pushed : Multiset (Arrival ε)) = s.accepted + s.refused +
      (s.flush.buf.contents + s.flush.phase.unsettled) + s.overwritten ∧
    s.pushed.Nodup ∧
    s.flush.buf.dropped = UInt64.ofNat s.overwritten.length ∧
    (∀ p ∈ s.posts, p.batch ≠ [] ∧ p.batch.length ≤ batchSize configured ∧ p.batch <:+: p.all) ∧
    ∀ now s', s.session.paused now = true →
      s.step (batchSize configured) (.flush now) = some s' → s' = s := by
  have hok : Conserves (batchSize configured) s :=
    run_inv (I := Conserves (batchSize configured))
      (fun _ _ _ ht hstep => ht.step (batchSize_pos configured) hstep) as _ s
      (conserves_init hbuf session) h
  refine ⟨hok.total, ?_, hok.dropped, fun p hp => ?_, fun now s' hpaused hs => ?_⟩
  · apply List.Nodup.of_map (·.seq)
    rw [hok.numbered]
    exact nodup_range
  · obtain ⟨hne, hlen, hslice⟩ := hok.posts p hp
    exact ⟨hne, hlen, hslice⟩
  · obtain ⟨f, hf, rfl⟩ := map_eq_some_iff.mp hs
    simp only [flushStep, hpaused, if_true] at hf
    split at hf
    · cases hf
      simp [loses]
    · cases hf

/-- A buffer of two takes three events, a flush of batches of one has its first batch
accepted and its second one fail, and puts that back. -/
def failedFlush : List (LedgerLabel Nat) :=
  [.push 7, .push 8, .push 9, .flush 0, .attempt 0 (.answered ⟨204, [], [], [], []⟩),
   .attempt 0 .network, .giveUp, .reenqueue]

theorem failed_flush_conserves : ∃ (buf : RingBuffer (Arrival Nat)) (s : Ledger Nat),
    newRingBuffer 2 = some buf ∧
    run (Ledger.step (batchSize 1)) (Ledger.init buf newSession) failedFlush = some s ∧
    s.overwritten = [⟨0, 7⟩] ∧ s.accepted = [⟨1, 8⟩] ∧ s.flush.buf.contents = [⟨2, 9⟩] ∧
    (s.pushed : Multiset (Arrival Nat)) = s.accepted + s.refused +
      (s.flush.buf.contents + s.flush.phase.unsettled) + s.overwritten :=
  ⟨_, _, rfl, rfl, rfl, rfl, rfl, (event_conservation 1 2 rfl newSession failedFlush rfl).1⟩

end YominsAgent.Transport
