import Mathlib.Data.List.Basic
import YominsAgent.Go.Utf8
import YominsAgent.Lib.Run
import YominsAgent.Transport.Http

/- `Shipper.Run` and `deliver` (`ship.go`). The shipper collects encoded entries in a batch and a
   buffer, and hands both to `deliver` when the next line would overflow the buffer, when the batch
   is full, and when the timer fires. A delivery posts until the batch is accepted or refused for
   good and then acknowledges its entries; once the context is done it may give up, and the loop may
   still take entries until it sees that.

   `batching` states what holds in every state of every run in which no post succeeds after the
   cancellation: the batches are consecutive stretches of what was received, within the limits, and
   exactly the entries of the settled batches are acknowledged, which are the first ones received.

   Correspondence (Go ↔ Lean):
     the `select` of `Run` ↔ the labels `recv`, `timer`, `done`
     `flush`               ↔ `flush`, and `resume` once `deliver` returns
     the loop of `deliver` ↔ the labels `posted`, `woken`, `giveUp`
     `s.encode`            ↔ the parameter `encode`
   The entries are of any type. `encode` may read the clock. -/
namespace YominsAgent.Logs
open Go Lib Transport List

structure ShipperConfig where
  maxBatchLines : Int
  maxBatchBytes : Int
  flushEvery : Int
  hostname : Str
  agentID : Str

/-- `NewShipper`: limits that are not positive get their defaults. -/
def newShipper (cfg : ShipperConfig) : ShipperConfig :=
  { cfg with
    maxBatchLines := if cfg.maxBatchLines ≤ 0 then 1000 else cfg.maxBatchLines
    maxBatchBytes := if cfg.maxBatchBytes ≤ 0 then 1048576 else cfg.maxBatchBytes
    flushEvery := if cfg.flushEvery ≤ 0 then 2 * second else cfg.flushEvery }

variable {ε : Type}

/-- What `Run` does after a flush: it returns to the `select`, or appends the
entry whose line did not fit. -/
inductive Cont (ε : Type) where
  | toSelect
  | append (e : ε) (line : Bytes)

inductive Control (ε : Type) where
  | select
  /-- `deliver` posts, and would wait for `wait` before it posts again. -/
  | posting (k : Cont ε) (wait : Int)
  | sleeping (k : Cont ε) (wait : Int)
  | stopped

structure Shipper (ε : Type) where
  batch : List ε
  buf : Bytes
  /-- The timer was set for the entries of this batch. -/
  pending : Bool
  control : Control ε
  cancelled : Bool
  /-- The entries received, each with its line. -/
  received : List (ε × Bytes)
  /-- The batches and payloads given to `deliver`. -/
  handed : List (List ε × Bytes)
  /-- Those whose post returned nil or a `RefusedError`. -/
  settled : List (List ε × Bytes)
  acked : List ε

inductive ShipLabel (ε : Type) where
  | recv (e : ε) (now : Int)
  | timer
  /-- The `select` sees that the context is done. -/
  | done
  | cancel
  /-- `Poster.Post` returns. -/
  | posted (r : PostResult)
  /-- `sleep` returns true: the time is over. -/
  | woken
  /-- `sleep` returns false: the context is done. -/
  | giveUp

/-- The batch is done with: accepted, or refused for good. -/
def settles : PostResult → Bool
  | .ok => true
  | .refused _ => true
  | _ => false

/-- How long `deliver` waits before it posts again. -/
def retryWait (wait : Int) : PostResult → Int
  | .paused => 10 * second
  | .rejected _ => 10 * second
  | .busy _ retryAfter => if retryAfter > 0 then retryAfter else wait
  | _ => wait

variable (encode : Int → ε → Option Bytes) (cfg : ShipperConfig)

/-- `flush` up to its call of `deliver`; without entries there is no call. -/
def flush (k : Cont ε) (s : Shipper ε) : Shipper ε :=
  if s.batch.isEmpty then { s with buf := [], pending := false, control := .select }
  else { s with handed := s.handed ++ [(s.batch, s.buf)], control := .posting k second }

def append (e : ε) (line : Bytes) (s : Shipper ε) : Shipper ε :=
  let s := { s with
    buf := s.buf ++ line, batch := s.batch ++ [e], pending := true, control := .select }
  if (s.batch.length : Int) ≥ cfg.maxBatchLines then flush .toSelect s else s

/-- The batch is settled, and its entries are acknowledged. -/
def Shipper.settle (s : Shipper ε) : Shipper ε :=
  { s with settled := s.settled ++ [(s.batch, s.buf)], acked := s.acked ++ s.batch }

/-- `deliver` has returned: the batch is emptied, and `Run` goes on. -/
def resume (k : Cont ε) (s : Shipper ε) : Shipper ε :=
  let s := { s with batch := [], buf := [], pending := false }
  match k with
  | .toSelect => { s with control := .select }
  | .append e line => append cfg e line s

def shipStep (s : Shipper ε) : ShipLabel ε → Option (Shipper ε)
  | .recv e now =>
    match s.control with
    | .select =>
      match encode now e with
      | none => some { s with acked := s.acked ++ [e] }
      | some line =>
        let s := { s with received := s.received ++ [(e, line)] }
        if s.batch.length > 0 ∧ ((s.buf.length + line.length : Nat) : Int) > cfg.maxBatchBytes then
          some (flush (.append e line) s)
        else some (append cfg e line s)
    | _ => none
  | .timer =>
    match s.control with
    | .select => some (flush .toSelect s)
    | _ => none
  | .done =>
    match s.control with
    | .select => if s.cancelled then some { s with control := .stopped } else none
    | _ => none
  | .cancel => some { s with cancelled := true }
  | .posted r =>
    match s.control with
    | .posting k wait =>
      if settles r then some (resume cfg k s.settle)
      else some { s with control := .sleeping k (retryWait wait r) }
    | _ => none
  | .woken =>
    match s.control with
    | .sleeping k wait => some { s with control := .posting k (min (wrap64 (wait * 2)) minute) }
    | _ => none
  | .giveUp =>
    match s.control with
    | .sleeping k _ => if s.cancelled then some (resume cfg k s) else none
    | _ => none

/-- What one step of the shipper is. -/
inductive ShipMove (s : Shipper ε) : ShipLabel ε → Shipper ε → Prop where
  | unencoded {e now} (hc : s.control = .select) (he : encode now e = none) :
    ShipMove s (.recv e now) { s with acked := s.acked ++ [e] }
  | overflow {e now line} (hc : s.control = .select) (he : encode now e = some line)
    (hb : s.batch.length > 0)
    (hfull : ((s.buf.length + line.length : Nat) : Int) > cfg.maxBatchBytes) :
    ShipMove s (.recv e now)
      (flush (.append e line) { s with received := s.received ++ [(e, line)] })
  | fits {e now line} (hc : s.control = .select) (he : encode now e = some line)
    (hfit : s.batch.length > 0 → ((s.buf.length + line.length : Nat) : Int) ≤ cfg.maxBatchBytes) :
    ShipMove s (.recv e now)
      (append cfg e line { s with received := s.received ++ [(e, line)] })
  | timer (hc : s.control = .select) : ShipMove s .timer (flush .toSelect s)
  | done (hc : s.control = .select) (hcan : s.cancelled = true) :
    ShipMove s .done { s with control := .stopped }
  | cancel : ShipMove s .cancel { s with cancelled := true }
  | settled {k wait r} (hc : s.control = .posting k wait) (hset : settles r = true) :
    ShipMove s (.posted r) (resume cfg k s.settle)
  | failed {k wait r} (hc : s.control = .posting k wait) (hset : settles r = false) :
    ShipMove s (.posted r) { s with control := .sleeping k (retryWait wait r) }
  | woken {k wait} (hc : s.control = .sleeping k wait) :
    ShipMove s .woken { s with control := .posting k (min (wrap64 (wait * 2)) minute) }
  | giveUp {k wait} (hc : s.control = .sleeping k wait) (hcan : s.cancelled = true) :
    ShipMove s .giveUp (resume cfg k s)

def newRun : Shipper ε :=
  { batch := [], buf := [], pending := false, control := .select, cancelled := false,
    received := [], handed := [], settled := [], acked := [] }

/-- After the cancellation no post succeeds. -/
def honest (s : Shipper ε) : ShipLabel ε → Bool
  | .posted r => !(s.cancelled && settles r)
  | _ => true

/-! ## Stretches of the received entries -/

/-- The batch and the payload a stretch of received entries makes. -/
def pack (seg : List (ε × Bytes)) : List ε × Bytes :=
  (seg.map Prod.fst, (seg.map Prod.snd).flatten)

/-- The stretch keeps to the limits: a single line may be longer. -/
def Within (seg : List (ε × Bytes)) : Prop :=
  (seg.length : Int) ≤ cfg.maxBatchLines ∧
    (seg.length = 1 ∨ ((pack seg).2.length : Int) ≤ cfg.maxBatchBytes)

/-- The entry that waits for the flush. -/
def Cont.items : Cont ε → List (ε × Bytes)
  | .toSelect => []
  | .append e line => [(e, line)]

/-- The received entries are the stretches `segs`, the present batch `cur` and
`rest`; `cur` is handed over already when `delivering`. -/
structure Track (s : Shipper ε) (segs : List (List (ε × Bytes))) (cur : List (ε × Bytes))
    (delivering : Bool) (rest : List (ε × Bytes)) : Prop where
  batch : (s.batch, s.buf) = pack cur
  received : s.received = segs.flatten ++ (cur ++ rest)
  handed : s.handed = segs.map pack ++ if delivering then [pack cur] else []
  within : ∀ seg ∈ segs, Within cfg seg
  withinCur : Within cfg cur
  settled : s.settled <+: s.handed
  live : s.cancelled = false → s.settled = segs.map pack
  acked : s.acked = (s.settled.map Prod.fst).flatten

def ShipInv (s : Shipper ε) : Prop :=
  ∃ segs cur, match s.control with
    | .select | .stopped => Track cfg s segs cur false [] ∧ (cur.length : Int) < cfg.maxBatchLines
    | .posting k _ | .sleeping k _ => Track cfg s segs cur true k.items

structure Positive : Prop where
  lines : 1 ≤ cfg.maxBatchLines
  bytes : 1 ≤ cfg.maxBatchBytes

theorem positive_newShipper (cfg : ShipperConfig) : Positive (newShipper cfg) := by
  constructor
  · simp only [newShipper]; split <;> omega
  · simp only [newShipper]; split <;> omega

variable {cfg} {s : Shipper ε} {segs : List (List (ε × Bytes))} {cur rest : List (ε × Bytes)}
  {d : Bool} {k : Cont ε} {e : ε} {s' : Shipper ε} {enc : Int → ε → Bytes} {l : ShipLabel ε}

theorem within_nil (hp : Positive cfg) : Within cfg ([] : List (ε × Bytes)) := by
  have hl := hp.lines
  have hb := hp.bytes
  constructor
  · simp only [length_nil]; omega
  · right
    simp only [pack, map_nil, flatten_nil, length_nil]; omega

theorem Track.batch_eq (ht : Track cfg s segs cur d rest) : s.batch = cur.map Prod.fst :=
  congrArg Prod.fst ht.batch

theorem Track.buf_eq (ht : Track cfg s segs cur d rest) : s.buf = (cur.map Prod.snd).flatten :=
  congrArg Prod.snd ht.batch

theorem Track.flush (ht : Track cfg s segs cur false k.items) (hcur : cur ≠ []) :
    ShipInv cfg (flush k s) := by
  have hb : s.batch.isEmpty = false := by
    rw [ht.batch_eq, isEmpty_eq_false_iff]
    simpa using hcur
  have hh : s.handed = segs.map pack := by simpa using ht.handed
  refine ⟨segs, cur, ?_⟩
  simp only [Logs.flush, hb]
  refine { ht with handed := ?_, settled := ?_ }
  · rw [hh, ht.batch]
    rfl
  · exact ht.settled.trans (prefix_append _ _)

theorem Track.timer (ht : Track cfg s segs cur false []) (hlt : (cur.length : Int) < cfg.maxBatchLines) :
    ShipInv cfg (Logs.flush .toSelect s) := by
  cases cur with
  | cons x cur => exact Track.flush (k := .toSelect) ht (cons_ne_nil x cur)
  | nil =>
    have hb : s.batch.isEmpty = true := by rw [ht.batch_eq]; rfl
    refine ⟨segs, [], ?_⟩
    simp only [Logs.flush, hb]
    exact ⟨{ ht with batch := by rw [ht.batch_eq]; rfl }, hlt⟩

theorem Track.append {line : Bytes} (ht : Track cfg s segs cur false [(e, line)])
    (hlt : (cur.length : Int) < cfg.maxBatchLines)
    (hfit : cur = [] ∨ ((s.buf.length + line.length : Nat) : Int) ≤ cfg.maxBatchBytes) :
    ShipInv cfg (append cfg e line s) := by
  have ht' : Track cfg { s with
      buf := s.buf ++ line, batch := s.batch ++ [e], pending := true, control := .select }
      segs (cur ++ [(e, line)]) false [] := by
    refine { ht with batch := ?_, received := ?_, handed := ?_, withinCur := ⟨?_, ?_⟩ }
    · simp [pack, ht.batch_eq, ht.buf_eq]
    · simpa using ht.received
    · simpa using ht.handed
    · simp only [length_append, length_singleton]
      omega
    · rcases hfit with rfl | hfit
      · exact .inl rfl
      · rw [ht.buf_eq] at hfit
        right
        simpa [pack] using hfit
  simp only [Logs.append]
  split
  · exact Track.flush (k := .toSelect) ht' (by simp)
  · next hle =>
    refine ⟨segs, cur ++ [(e, line)], ht', ?_⟩
    simpa [ht.batch_eq] using hle

/-- `deliver` has returned, with `settled` and `acked` as it left them: the batch
counts as one of the stretches. -/
theorem Track.resume {settled : List (List ε × Bytes)} {acked : List ε} (hp : Positive cfg)
    (ht : Track cfg s segs cur true k.items) (hset : settled <+: s.handed)
    (hlive : s.cancelled = false → settled = s.handed)
    (hack : acked = (settled.map Prod.fst).flatten) :
    ShipInv cfg (resume cfg k { s with settled, acked }) := by
  have hh : s.handed = (segs ++ [cur]).map pack := by simpa using ht.handed
  have ht' : Track cfg { s with settled, acked, batch := [], buf := [], pending := false }
      (segs ++ [cur]) [] false k.items := by
    refine ⟨rfl, ?_, by simpa using hh, forall_mem_snoc.mpr ⟨ht.within, ht.withinCur⟩, within_nil hp,
      hset, fun hc => (hlive hc).trans hh, hack⟩
    simpa using ht.received
  have hl := hp.lines
  cases k with
  | toSelect => exact ⟨segs ++ [cur], [], { ht' with }, by simp only [length_nil]; omega⟩
  | append => exact ht'.append (by simp only [length_nil]; omega) (.inl rfl)

variable {encode}

theorem shipStep_move (h : shipStep encode cfg s l = some s') : ShipMove encode cfg s l s' := by
  cases l with
  | cancel =>
    cases h
    exact .cancel
  | recv e now =>
    simp only [shipStep] at h
    split at h
    · next hc =>
      split at h
      · next he =>
        cases h
        exact .unencoded hc he
      · next he =>
        split at h <;> cases h
        · next hfull => exact .overflow hc he hfull.1 hfull.2
        · next hfit => exact .fits hc he fun hb => Int.not_lt.mp fun hgt => hfit ⟨hb, hgt⟩
    · cases h
  | timer =>
    simp only [shipStep] at h
    split at h <;> cases h
    next hc => exact .timer hc
  | done =>
    simp only [shipStep] at h
    split at h
    · next hc =>
      split at h <;> cases h
      next hcan => exact .done hc hcan
    · cases h
  | posted r =>
    simp only [shipStep] at h
    split at h
    · next hc =>
      split at h <;> cases h
      · next hset => exact .settled hc hset
      · next hset => exact .failed hc (Bool.not_eq_true _ ▸ hset)
    · cases h
  | woken =>
    simp only [shipStep] at h
    split at h <;> cases h
    next hc => exact .woken hc
  | giveUp =>
    simp only [shipStep] at h
    split at h
    · next hc =>
      split at h <;> cases h
      next hcan => exact .giveUp hc hcan
    · cases h

theorem shipInv_step (hp : Positive cfg) (henc : ∀ now e, (encode now e).isSome = true)
    (s : Shipper ε) (a : ShipLabel ε) (s' : Shipper ε) (hI : ShipInv cfg s)
    (h : guarded honest (shipStep encode cfg) s a = some s') : ShipInv cfg s' := by
  obtain ⟨hg, h⟩ := guarded_eq_some.mp h
  obtain ⟨segs, cur, hI⟩ := hI
  have htake (ht : Track cfg s segs cur false []) (e : ε) (line : Bytes) :
      Track cfg { s with received := s.received ++ [(e, line)] } segs cur false [(e, line)] :=
    { ht with received := by rw [ht.received]; simp }
  cases shipStep_move h with
  | @unencoded e now _ he => simpa [he] using henc now e
  | @overflow e _ line hc _ hb =>
    rw [hc] at hI
    refine Track.flush (k := .append e line) (htake hI.1 e line) ?_
    rintro rfl
    simp [hI.1.batch_eq] at hb
  | @fits e _ line hc _ hfit =>
    rw [hc] at hI
    refine (htake hI.1 e line).append hI.2 ?_
    cases cur with
    | nil => exact .inl rfl
    | cons => exact .inr (hfit (by simp [hI.1.batch_eq]))
  | timer hc =>
    rw [hc] at hI
    exact hI.1.timer hI.2
  | done hc =>
    rw [hc] at hI
    exact ⟨segs, cur, { hI.1 with }, hI.2⟩
  | cancel =>
    refine ⟨segs, cur, ?_⟩
    cases hc : s.control with
    | select | stopped => rw [hc] at hI; exact ⟨{ hI.1 with live := fun h => nomatch h }, hI.2⟩
    | posting | sleeping => rw [hc] at hI; exact { hI with live := fun h => nomatch h }
  | settled hc hset =>
    rw [hc] at hI
    have hlive : s.cancelled = false := by simpa [honest, hset] using hg
    have hset : s.settled ++ [(s.batch, s.buf)] = s.handed := by
      rw [hI.live hlive, hI.batch, hI.handed]
      rfl
    refine hI.resume hp (hset ▸ prefix_rfl) (fun _ => hset) ?_
    simp [hI.acked]
  | failed hc | woken hc =>
    rw [hc] at hI
    exact ⟨segs, cur, { hI with }⟩
  | giveUp hc hcan =>
    rw [hc] at hI
    exact hI.resume hp hI.settled (fun hno => absurd hcan (by simp [hno])) hI.acked

theorem flush_received (k : Cont ε) (s : Shipper ε) : (flush k s).received = s.received := by
  unfold flush
  split <;> rfl

theorem append_received (e : ε) (line : Bytes) (s : Shipper ε) :
    (append cfg e line s).received = s.received := by
  simp only [append]
  split
  · exact flush_received _ _
  · rfl

theorem resume_received (k : Cont ε) (s : Shipper ε) :
    (resume cfg k s).received = s.received := by
  cases k with
  | toSelect => rfl
  | append e line => exact append_received e line _

/-- Only `recv` adds to the received entries, and what it adds is encoded. -/
theorem shipStep_received {a : ShipLabel ε} (h : shipStep encode cfg s a = some s') :
    s'.received = s.received ∨ ∃ e now line, encode now e = some line ∧
      s'.received = s.received ++ [(e, line)] := by
  cases shipStep_move h with
  | unencoded | done | cancel | failed | woken => exact .inl rfl
  | overflow _ he => exact .inr ⟨_, _, _, he, flush_received _ _⟩
  | fits _ he => exact .inr ⟨_, _, _, he, append_received _ _ _⟩
  | timer => exact .inl (flush_received _ _)
  | settled | giveUp => exact .inl (resume_received _ _)

variable (encode cfg) in
theorem encoded_step (s : Shipper ε) (a : ShipLabel ε) (s' : Shipper ε)
    (hs : ∀ p ∈ s.received, ∃ now, encode now p.1 = some p.2)
    (h : guarded honest (shipStep encode cfg) s a = some s') :
    ∀ p ∈ s'.received, ∃ now, encode now p.1 = some p.2 := by
  rcases shipStep_received (guarded_eq_some.mp h).2 with heq | ⟨e, now, line, he, heq⟩ <;> rw [heq]
  · exact hs
  · exact forall_mem_snoc.mpr ⟨hs, now, he⟩

theorem shipInv_newRun (hp : Positive cfg) : ShipInv cfg (newRun : Shipper ε) := by
  have hl := hp.lines
  refine ⟨[], [], ⟨rfl, rfl, rfl, ?_, within_nil hp, prefix_rfl, fun _ => rfl, rfl⟩, ?_⟩
  · intro seg hseg; cases hseg
  · simp only [length_nil]; omega

theorem ShipInv.track (hI : ShipInv cfg s) : ∃ segs cur d rest, Track cfg s segs cur d rest := by
  obtain ⟨segs, cur, hI⟩ := hI
  split at hI
  · exact ⟨segs, cur, _, _, hI.1⟩
  · exact ⟨segs, cur, _, _, hI.1⟩
  · exact ⟨segs, cur, _, _, hI⟩
  · exact ⟨segs, cur, _, _, hI⟩

/-- The stretches handed over so far, the present one among them or not. -/
theorem Track.segments (ht : Track cfg s segs cur d rest) :
    ∃ segs : List (List (ε × Bytes)), s.handed = segs.map pack ∧ segs.flatten <+: s.received ∧
      ∀ seg ∈ segs, Within cfg seg := by
  cases d with
  | false =>
    exact ⟨segs, by simpa using ht.handed, ht.received ▸ prefix_append _ _, ht.within⟩
  | true =>
    exact ⟨segs ++ [cur], by simpa using ht.handed, ⟨rest, by simpa using ht.received.symm⟩,
      forall_mem_snoc.mpr ⟨ht.within, ht.withinCur⟩⟩

/-- What each batch and each acknowledgement is, in every run in which no post
succeeds after the cancellation. -/
theorem batching (cfg : ShipperConfig) (encode : Int → ε → Option Bytes)
    (henc : ∀ now e, (encode now e).isSome = true) (as : List (ShipLabel ε)) (s : Shipper ε)
    (hrun : run (guarded honest (shipStep encode (newShipper cfg))) newRun as = some s) :
    (∀ p ∈ s.received, ∃ now, encode now p.1 = some p.2) ∧
    (∃ segs : List (List (ε × Bytes)), s.handed = segs.map pack ∧ segs.flatten <+: s.received ∧
      ∀ seg ∈ segs, Within (newShipper cfg) seg) ∧
    s.settled <+: s.handed ∧
    s.acked = (s.settled.map Prod.fst).flatten ∧
    s.acked <+: s.received.map Prod.fst := by
  have hp := positive_newShipper cfg
  have hI := run_inv (shipInv_step hp henc) as _ s (shipInv_newRun hp) hrun
  have henc := run_inv (encoded_step encode (newShipper cfg)) as _ s
    (fun p hp => by cases hp) hrun
  obtain ⟨_, _, _, _, ht⟩ := hI.track
  obtain ⟨segs, hh, hpre, hw⟩ := ht.segments
  refine ⟨henc, ⟨segs, hh, hpre, hw⟩, ht.settled, ht.acked, ?_⟩
  -- the settled batches come first among those handed over, and these among the received
  have hfirst : s.acked <+: (s.handed.map Prod.fst).flatten := by
    obtain ⟨more, hmore⟩ := ht.settled
    rw [ht.acked, ← hmore, map_append, flatten_append]
    exact prefix_append _ _
  have hall : (s.handed.map Prod.fst).flatten = segs.flatten.map Prod.fst := by
    rw [hh, map_map, map_flatten]
    rfl
  exact hfirst.trans (hall ▸ hpre.map _)

def threeEntries : List (ShipLabel Nat) :=
  [.recv 3 0, .recv 4 0, .posted .network, .woken, .posted .ok, .recv 5 0, .timer,
    .posted (.refused 413)]

/-- Batches of two: of three entries the first two are accepted, the third is
sent by the timer and refused. -/
theorem batching_three_entries : ∃ s : Shipper Nat,
    run (guarded honest (shipStep (fun _ n => some (List.replicate n 0)) (newShipper
      ⟨2, 0, 0, [], []⟩))) newRun threeEntries = some s ∧
    s.acked = [3, 4, 5] ∧ s.acked <+: s.received.map Prod.fst :=
  ⟨_, rfl, rfl, (batching ⟨2, 0, 0, [], []⟩ (fun _ n => some (replicate n 0)) (fun _ _ => rfl)
    threeEntries _ rfl).2.2.2.2⟩

/-! ## The entries on their way -/

/-- The entries received that are neither acknowledged nor given up. -/
def waiting (s : Shipper ε) : List ε :=
  s.batch ++ match s.control with
    | .posting k _ | .sleeping k _ => k.items.map Prod.fst
    | .select | .stopped => []

theorem waiting_flush (hb : s.batch ≠ [] ∨ k = .toSelect) :
    waiting (flush k s) = s.batch ++ k.items.map Prod.fst := by
  unfold flush
  split
  · next hempty =>
    have hnil : s.batch = [] := isEmpty_iff.mp hempty
    rcases hb with hb | rfl
    · exact absurd hnil hb
    · rfl
  · rfl

theorem waiting_append (cfg : ShipperConfig) (e : ε) (line : Bytes) (s : Shipper ε) :
    waiting (append cfg e line s) = s.batch ++ [e] := by
  simp only [append]
  split
  · rw [waiting_flush (.inr rfl)]
    simp [Cont.items]
  · simp [waiting]

theorem waiting_resume (cfg : ShipperConfig) (k : Cont ε) (s : Shipper ε) :
    waiting (resume cfg k s) = k.items.map Prod.fst := by
  cases k with
  | toSelect => rfl
  | append =>
    simp only [resume, waiting_append]
    rfl

/-- The flags and the acknowledgements that `flush`, `append` and `resume` leave alone. -/
def Shipper.outcome (s : Shipper ε) : Bool × List ε := (s.cancelled, s.acked)

theorem outcome_flush (k : Cont ε) (s : Shipper ε) : (flush k s).outcome = s.outcome := by
  unfold flush
  split <;> rfl

theorem outcome_append (cfg : ShipperConfig) (e : ε) (line : Bytes) (s : Shipper ε) :
    (append cfg e line s).outcome = s.outcome := by
  simp only [append]
  split
  · exact outcome_flush _ _
  · rfl

theorem outcome_resume (cfg : ShipperConfig) (k : Cont ε) (s : Shipper ε) :
    (resume cfg k s).outcome = s.outcome := by
  cases k with
  | toSelect => rfl
  | append e line => exact outcome_append cfg e line _

theorem shipStep_recv {now : Int}
    (h : shipStep (fun now e => some (enc now e)) cfg s (.recv e now) = some s') :
    s'.outcome = s.outcome ∧ waiting s' = waiting s ++ [e] := by
  cases shipStep_move h with
  | unencoded _ he => cases he
  | overflow hc _ hb =>
    have hw : waiting s = s.batch := by simp [waiting, hc]
    rw [hw]
    exact ⟨outcome_flush _ _, waiting_flush (.inl (ne_nil_of_length_pos hb))⟩
  | fits hc =>
    have hw : waiting s = s.batch := by simp [waiting, hc]
    rw [hw]
    exact ⟨outcome_append _ _ _ _, waiting_append _ _ _ _⟩

/-- On its own the shipper acknowledges the first of the entries on their way and
keeps the others, until it is cancelled; from then on it acknowledges nothing. -/
theorem shipStep_own (hl : ∀ e now, l ≠ .recv e now) (hc : l ≠ .cancel) (hg : honest s l = true)
    (h : shipStep (fun now e => some (enc now e)) cfg s l = some s') :
    s'.cancelled = s.cancelled ∧ ∃ now, s'.acked = s.acked ++ now ∧
      (s.cancelled = false → waiting s = now ++ waiting s') ∧ (s.cancelled = true → now = []) := by
  cases shipStep_move h with
  | unencoded | overflow | fits => exact absurd rfl (hl _ _)
  | cancel => exact absurd rfl hc
  | timer hsel =>
    obtain ⟨h1, h2⟩ := Prod.mk.inj (outcome_flush .toSelect s)
    refine ⟨h1, [], by rw [h2, append_nil], fun _ => ?_, fun _ => rfl⟩
    rw [nil_append, waiting_flush (.inr rfl)]
    simp [waiting, hsel, Cont.items]
  | done hs | failed hs | woken hs =>
    exact ⟨rfl, [], by simp, fun _ => by simp [waiting, hs], fun _ => rfl⟩
  | @settled k _ _ hpost hset =>
    obtain ⟨h1, h2⟩ := Prod.mk.inj (outcome_resume cfg k s.settle)
    refine ⟨h1, s.batch, h2, fun _ => ?_, fun hcan => ?_⟩
    · rw [waiting_resume]
      simp [waiting, hpost]
    · simp [honest, hcan, hset] at hg
  | @giveUp k _ _ hcan =>
    obtain ⟨h1, h2⟩ := Prod.mk.inj (outcome_resume cfg k s)
    refine ⟨h1, [], by rw [h2, append_nil], fun hno => ?_, fun _ => rfl⟩
    rw [hcan] at hno
    cases hno

/-- The entries received that were not given up. -/
def Shipper.entries (s : Shipper ε) : List ε := s.acked ++ waiting s

/-- A step acknowledges some of the entries on their way and keeps others; only the
received one is new. -/
theorem shipStep_moves (h : shipStep (fun now e => some (enc now e)) cfg s l = some s') :
    ∃ now, s'.acked = s.acked ++ now ∧
      ∀ e ∈ now ++ waiting s', e ∈ waiting s ∨ ∃ t, l = .recv e t := by
  have hkept : s'.outcome = s.outcome → waiting s' ⊆ waiting s →
      ∃ now, s'.acked = s.acked ++ now ∧
        ∀ e ∈ now ++ waiting s', e ∈ waiting s ∨ ∃ t, l = .recv e t := by
    intro hout hw
    exact ⟨[], by simpa using (Prod.mk.inj hout).2, fun e he => .inl (hw he)⟩
  cases shipStep_move h with
  | @unencoded _ t | @overflow _ t | @fits _ t =>
    obtain ⟨hout, hw⟩ := shipStep_recv h
    refine ⟨[], by simpa using (Prod.mk.inj hout).2, ?_⟩
    rw [nil_append, hw]
    exact forall_mem_snoc.mpr ⟨fun _ => .inl, .inr ⟨t, rfl⟩⟩
  | timer hsel =>
    refine hkept (outcome_flush _ _) ?_
    rw [waiting_flush (.inr rfl)]
    simp [waiting, hsel, Cont.items]
  | done hs | failed hs | woken hs => exact hkept rfl (by simp [waiting, hs])
  | cancel => exact ⟨[], by simp, fun e he => .inl he⟩
  | @settled k _ _ hpost =>
    obtain ⟨-, hacked⟩ := Prod.mk.inj (outcome_resume cfg k s.settle)
    refine ⟨s.batch, hacked, ?_⟩
    intro e he
    left
    rw [waiting_resume] at he
    simpa [waiting, hpost] using he
  | giveUp hs =>
    refine hkept (outcome_resume _ _ _) ?_
    rw [waiting_resume]
    simp [waiting, hs]

theorem shipStep_entries (h : shipStep (fun now e => some (enc now e)) cfg s l = some s') :
    ∀ e ∈ s'.entries, e ∈ s.entries ∨ ∃ now, l = .recv e now := by
  obtain ⟨now, hacked, hmoves⟩ := shipStep_moves h
  intro e he
  rw [Shipper.entries, hacked, append_assoc] at he
  rcases mem_append.mp he with he | he
  · exact .inl (mem_append_left _ he)
  · exact (hmoves e he).imp_left (mem_append_right _)

/-! ## When the shipper stops -/

theorem flush_running (k : Cont ε) (s : Shipper ε) : (flush k s).control ≠ .stopped := by
  unfold flush
  split <;> exact nofun

theorem append_running (cfg : ShipperConfig) (e : ε) (line : Bytes) (s : Shipper ε) :
    (append cfg e line s).control ≠ .stopped := by
  simp only [append]
  split
  · exact flush_running _ _
  · exact nofun

theorem resume_running (cfg : ShipperConfig) (k : Cont ε) (s : Shipper ε) :
    (resume cfg k s).control ≠ .stopped := by
  cases k with
  | toSelect => exact nofun
  | append e line => exact append_running cfg e line _

theorem shipStep_stopped (h : shipStep encode cfg s l = some s') (hstop : s'.control = .stopped) :
    s.control = .stopped ∨ s.cancelled = true := by
  cases shipStep_move h with
  | unencoded | cancel => exact .inl hstop
  | overflow | timer => exact absurd hstop (flush_running _ _)
  | fits => exact absurd hstop (append_running _ _ _ _)
  | done _ hcan => exact .inr hcan
  | settled | giveUp => exact absurd hstop (resume_running _ _ _)
  | failed | woken => cases hstop

end YominsAgent.Logs
