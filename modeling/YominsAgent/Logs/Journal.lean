import YominsAgent.Logs.Parsers

/- The journal (`journal.go`): `journalctl` is started over and over, each time behind the
   cursor of the last delivered record, and prints the records from there on.

   With an empty cursor it is started with `--lines=0` and prints what is appended from
   then on. When that happens again before the first record is delivered, the records in
   between are passed over for good (`journal_gap`). As long as there are none in between,
   no cursor lies behind a record that was not delivered (`journal_no_gap`), and all that was
   appended can still be delivered (`journal_delivers`).

   A record that does not fit into the buffer of the scanner ends the call of `follow`, and
   the next call begins behind the same cursor: the loop of `Run` gets to every record if
   and only if none is that long, up to the last one to be sent (`journal_passes_iff`).

   Correspondence (Go ↔ Lean):
     a cursor                         ↔ the number of its record, `none` for ""
     `args`, `cmd.Start`              ↔ `JournalLabel.start`
     one turn of the loop of `follow` ↔ `JournalLabel.read`; a whole call: `follow`
     `ack`, `Save`                    ↔ `JournalLabel.ack`, `.save` and `.saveEnd`
     `sc.Buffer`                      ↔ `fitsBuffer`
   The selection by units is made by `journalctl`: the journal here is what it selects. -/
namespace YominsAgent.Logs
open Go Lib List

/-- The line and its newline fit into the buffer of the scanner. -/
def fitsBuffer (line : Bytes) : Bool := line.length < 4 * maxLineBytes

/-- `parseJournalJSON` makes an entry of the line. -/
def hasMessage (line : Bytes) : Bool := (parseJournalJSON line).isSome

/-! ## The records that are read -/

structure JournalState where
  records : List Bytes
  /-- the record that `journalctl` prints next, if it runs -/
  next : Option Nat
  /-- what is in flight -/
  queue : List Nat := []
  cursor : Option Nat := none
  snap : Option (Option Nat) := none
  saved : Option Nat := none
  /-- what was acknowledged -/
  acked : List Nat := []
  deriving DecidableEq

inductive JournalLabel where
  | append (line : Bytes)
  | start
  | read
  | exit
  | ack
  | save
  | saveEnd (ok : Bool)
  | crash

namespace JournalState

/-- The source is started for the first time. -/
def init (history : List Bytes) : JournalState :=
  { records := history, next := some history.length }

/-- Where `journalctl` begins: behind the cursor, or with what comes. -/
def begins (s : JournalState) : Nat :=
  match s.cursor with
  | some c => c + 1
  | none => s.records.length

def step (s : JournalState) : JournalLabel → Option JournalState
  | .append line => some { s with records := s.records ++ [line] }
  | .start => if s.next.isNone then some { s with next := some s.begins } else none
  | .read => do
    let n ← s.next
    let line ← s.records[n]?
    if fitsBuffer line = false then some { s with next := none }
    else if hasMessage line then some { s with queue := s.queue ++ [n], next := some (n + 1) }
    else some { s with next := some (n + 1) }
  | .exit => some { s with next := none }
  | .ack =>
    match s.queue with
    | n :: queue => some { s with queue, cursor := some n, acked := s.acked ++ [n] }
    | [] => none
  | .save => if s.snap.isNone then some { s with snap := some s.cursor } else none
  | .saveEnd ok => s.snap.map fun c => { s with snap := none, saved := if ok then c else s.saved }
  | .crash => some { s with next := none, queue := [], cursor := s.saved, snap := none }

/-- The record is one to be sent. -/
def sends (s : JournalState) (n : Nat) : Bool := s.records[n]?.any hasMessage

/-- Every record from `first` on was acknowledged, is in flight, or is not to be sent. -/
def allSent (first : Nat) (s : JournalState) : Bool :=
  (List.range s.records.length).all fun n =>
    n < first || !s.sends n || s.acked.contains n || s.queue.contains n

/-- `journalctl` is not started without a cursor while a record from `first` on is still to
be sent. -/
def resumes (first : Nat) (s : JournalState) : JournalLabel → Bool
  | .start => s.cursor.isSome || s.allSent first
  | _ => true

/-! ## No gap -/

def span (n : Nat) : Span Unit Unit := ⟨(), (), n, n + 1⟩

/-- What was acknowledged, and what is not sent. -/
def done (s : JournalState) : Set (Span Unit Unit) :=
  {sp | ∃ n, sp = span n ∧ (n ∈ s.acked ∨ n < s.records.length ∧ s.sends n = false)}

/-- A cursor in memory, about to be saved, or saved. -/
def Claims (s : JournalState) (c : Nat) : Prop :=
  s.cursor = some c ∨ s.snap = some (some c) ∨ s.saved = some c

/-- `first` is the number of records there were when the source was first started. -/
structure Gapless (first : Nat) (s : JournalState) : Prop where
  claims : ∀ c, s.Claims c → Covers s.done () () first (c + 1)
  queue : QueueCovers (fun _ _ => first) [] s.done (s.queue.map span)
  reader : ∀ n, s.next = some n →
    Covers (s.done ∪ {sp | sp ∈ s.queue.map span}) () () first n

variable {s s' : JournalState} {a : JournalLabel} {first : Nat}

theorem gapless_init (history : List Bytes) : Gapless history.length (init history) := by
  refine ⟨?_, trivial, ?_⟩
  · rintro c (h | h | h) <;> cases h
  · rintro n h
    cases h
    exact Covers.empty _

theorem done_append (line : Bytes) : s.done ⊆ ({ s with records := s.records ++ [line] } : JournalState).done := by
  rintro sp ⟨n, rfl, hacked | ⟨hlt, hno⟩⟩
  · exact ⟨n, rfl, .inl hacked⟩
  · refine ⟨n, rfl, .inr ⟨?_, ?_⟩⟩
    · rw [length_append]
      exact Nat.lt_add_right _ hlt
    · rwa [sends, getElem?_append_left hlt]

theorem allSent_covers (h : s.allSent first = true) :
    Covers (s.done ∪ {sp | sp ∈ s.queue.map span}) () () first s.records.length := by
  intro b hlo hhi
  refine ⟨span b, ?_, rfl, rfl, Nat.le_refl b, Nat.lt_succ_self b⟩
  have hb := all_eq_true.mp h b (mem_range.mpr hhi)
  simp only [Bool.or_eq_true, decide_eq_true_eq, Bool.not_eq_true', contains_iff_mem] at hb
  rcases hb with ((hlt | hno) | hacked) | hqueue
  · exact absurd hlo (Nat.not_le.mpr hlt)
  · exact .inl ⟨b, rfl, .inr ⟨hhi, hno⟩⟩
  · exact .inl ⟨b, rfl, .inl hacked⟩
  · exact .inr (mem_map_of_mem hqueue)

theorem Gapless.read {n : Nat} {line : Bytes} (h : Gapless first s) (hn : s.next = some n)
    (hline : s.records[n]? = some line) (hs : s.step .read = some s') : Gapless first s' := by
  have hstep : s.step .read = if fitsBuffer line = false then some { s with next := none }
      else if hasMessage line then some { s with queue := s.queue ++ [n], next := some (n + 1) }
      else some { s with next := some (n + 1) } := by
    simp [step, hn, hline]
  have hlt : n < s.records.length := (List.getElem?_eq_some_iff.mp hline).1
  have hread : Covers _ (span n).path (span n).file first (span n).lo := h.reader n hn
  rw [hstep] at hs
  split at hs
  · cases hs
    exact ⟨h.claims, h.queue, fun _ hno => by cases hno⟩
  split at hs
  · cases hs
    refine ⟨h.claims, ?_, ?_⟩
    · rw [map_append]
      exact h.queue.snoc fun _ => hread
    · rintro _ ⟨⟩
      refine hread.extend.mono (Set.insert_subset (.inr ?_) ?_)
      · simp
      · exact Set.union_subset_union_right _ fun sp hsp => by simp_all
  · next hno =>
    cases hs
    refine ⟨h.claims, h.queue, ?_⟩
    rintro _ ⟨⟩
    refine hread.extend.mono (Set.insert_subset (.inl ?_) subset_rfl)
    exact ⟨n, rfl, .inr ⟨hlt, by simpa [sends, hline] using hno⟩⟩

theorem Gapless.ack {n : Nat} {queue : List Nat} (h : Gapless first s) (hq : s.queue = n :: queue) :
    Gapless first { s with queue, cursor := some n, acked := s.acked ++ [n] } := by
  have hins : insert (span n) s.done ⊆
      ({ s with queue, cursor := some n, acked := s.acked ++ [n] } : JournalState).done := by
    refine Set.insert_subset ⟨n, rfl, .inl (mem_append_right _ mem_cons_self)⟩ ?_
    rintro sp ⟨m, rfl, hacked | hno⟩
    · exact ⟨m, rfl, .inl (mem_append_left _ hacked)⟩
    · exact ⟨m, rfl, .inr hno⟩
  have hdone := (Set.subset_insert (span n) s.done).trans hins
  obtain ⟨hhead, hrest⟩ : QueueCovers (fun _ _ => first) [] s.done (span n :: queue.map span) := by
    simpa only [hq, map_cons] using h.queue
  refine ⟨?_, hrest.mono hins, fun m hm => (h.reader m hm).mono ?_⟩
  · rintro c (hc | hc | hc)
    · cases hc
      exact (hhead not_mem_nil).mono hins
    · exact (h.claims c (.inr (.inl hc))).mono hdone
    · exact (h.claims c (.inr (.inr hc))).mono hdone
  · rintro sp (hsp | hsp)
    · exact .inl (hdone hsp)
    · rcases mem_cons.mp (show sp ∈ span n :: queue.map span by simpa [hq] using hsp) with rfl | hsp
      · exact .inl (hins (Set.mem_insert _ _))
      · exact .inr hsp

theorem Gapless.step (h : Gapless first s) (hg : s.resumes first a = true) (hs : s.step a = some s') :
    Gapless first s' := by
  cases a with
  | append line =>
    cases hs
    have hdone := s.done_append line
    exact ⟨fun c hc => (h.claims c hc).mono hdone, h.queue.mono hdone,
      fun n hn => (h.reader n hn).mono (Set.union_subset_union_left _ hdone)⟩
  | start =>
    obtain ⟨-, hs⟩ := Option.ite_none_right_eq_some.mp hs
    cases hs
    refine ⟨h.claims, h.queue, ?_⟩
    rintro n ⟨⟩
    unfold begins
    cases hc : s.cursor with
    | some c => exact (h.claims c (.inl hc)).mono Set.subset_union_left
    | none =>
      rw [resumes, hc] at hg
      exact allSent_covers hg
  | read =>
    obtain ⟨n, hn, hrest⟩ := Option.bind_eq_some_iff.mp hs
    obtain ⟨line, hline, -⟩ := Option.bind_eq_some_iff.mp hrest
    exact h.read hn hline hs
  | exit =>
    cases hs
    exact ⟨h.claims, h.queue, fun n hn => by cases hn⟩
  | ack =>
    simp only [JournalState.step] at hs
    split at hs
    · next hq =>
      cases hs
      exact h.ack hq
    · cases hs
  | save =>
    obtain ⟨-, hs⟩ := Option.ite_none_right_eq_some.mp hs
    cases hs
    refine ⟨?_, h.queue, h.reader⟩
    rintro c (hc | hc | hc)
    · exact h.claims c (.inl hc)
    · exact h.claims c (.inl (Option.some.inj hc))
    · exact h.claims c (.inr (.inr hc))
  | saveEnd ok =>
    obtain ⟨snap, hsnap, rfl⟩ := Option.map_eq_some_iff.mp hs
    refine ⟨?_, h.queue, h.reader⟩
    rintro c (hc | hc | hc)
    · exact h.claims c (.inl hc)
    · cases hc
    · cases ok with
      | true => exact h.claims c (.inr (.inl (hsnap.trans (congrArg some hc))))
      | false => exact h.claims c (.inr (.inr hc))
  | crash =>
    cases hs
    refine ⟨?_, trivial, fun n hn => by cases hn⟩
    rintro c (hc | hc | hc)
    · exact h.claims c (.inr (.inr hc))
    · cases hc
    · exact h.claims c (.inr (.inr hc))

end JournalState

open JournalState

/-- No cursor, in memory or saved, lies behind a record with a message that was appended
after the first start and not acknowledged, as long as `journalctl` is not started
without a cursor while such a record is not in flight. -/
theorem journal_no_gap (history : List Bytes) (as : List JournalLabel) (s : JournalState)
    (h : run (guarded (resumes history.length) step) (init history) as = some s) (c : Nat)
    (hc : s.cursor = some c ∨ s.saved = some c) (n : Nat) (hfirst : history.length ≤ n) (hlt : n < c)
    (hsends : s.sends n = true) : n ∈ s.acked := by
  have hinv : Gapless history.length s :=
    run_guarded_inv (fun _ _ _ hs => hs.step) as _ s (gapless_init history) h
  obtain ⟨sp, ⟨m, rfl, hm⟩, -, -, hlo, hhi⟩ :=
    hinv.claims c (hc.imp_right Or.inr) n hfirst (Nat.lt_succ_of_lt hlt)
  obtain rfl : m = n := Nat.le_antisymm hlo (Nat.le_of_lt_succ hhi)
  rcases hm with hm | ⟨-, hno⟩
  · exact hm
  · rw [hsends] at hno
    cases hno

/-- A record as `journalctl` prints it. -/
def aRecord : Bytes :=
  toBytes (Json.print (.obj [("__CURSOR".toList, .str ['c']), ("MESSAGE".toList, .str ['x'])]))

/-- `journalctl` exits and is started again behind the first record. -/
theorem no_gap_after_restart :
    let s : JournalState :=
      { records := [aRecord, aRecord], next := some 2, cursor := some 1, acked := [0, 1] }
    run (guarded (resumes 0) step) (init [])
      [.append aRecord, .read, .ack, .exit, .append aRecord, .start, .read, .ack] = some s ∧
    0 ∈ s.acked := by
  intro s
  have hrun : run (guarded (resumes 0) step) (init [])
      [.append aRecord, .read, .ack, .exit, .append aRecord, .start, .read, .ack] = some s := by
    decide +kernel
  exact ⟨hrun, journal_no_gap [] _ s hrun 1 (Or.inl rfl) 0 (Nat.zero_le _) Nat.zero_lt_one
    (by decide +kernel)⟩

/-- `journalctl` exits before the first record is delivered and is started again with
`--lines=0`: the record in between is passed over. -/
theorem journal_gap :
    let s : JournalState :=
      { records := [aRecord, aRecord, aRecord], next := some 3, cursor := some 2, acked := [0, 2] }
    run step (init []) [.append aRecord, .read, .exit, .append aRecord, .start, .append aRecord, .read,
      .ack, .ack] = some s ∧ s.sends 1 = true ∧ 1 ∉ s.acked := by
  decide +kernel

/-! ## Getting past every record -/

/-- One call of `follow`: the records it sends, from the `n`th on. -/
def follow (n : Nat) : List Bytes → List Nat
  | [] => []
  | line :: rest =>
    if fitsBuffer line = false then []
    else if hasMessage line then n :: follow (n + 1) rest
    else follow (n + 1) rest

/-- A turn of the loop of `Run`, with the cursor and what was sent: everything that is sent
is delivered before the next turn. -/
def turn (journal : List Bytes) (x : Nat × List Nat) : Nat × List Nat :=
  let sent := follow (x.1 + 1) (journal.drop (x.1 + 1))
  (sent.getLastD x.1, x.2 ++ sent)

/-- A call of `follow` is a run of the steps that read, up to the end of the journal. -/
theorem run_follow {s : JournalState} {n : Nat} (hn : s.next = some n) :
    ∃ k s', run step s (List.replicate k .read) = some s' ∧
      s'.queue = s.queue ++ follow n (s.records.drop n) ∧
      s' = { s with queue := s'.queue, next := s'.next } := by
  generalize hrest : s.records.drop n = rest
  induction rest generalizing s n with
  | nil => exact ⟨0, s, rfl, (append_nil _).symm, rfl⟩
  | cons line rest ih =>
    have hline : s.records[n]? = some line := by
      rw [← head?_drop, hrest]
      rfl
    have hdrop : s.records.drop (n + 1) = rest := by
      rw [← tail_drop, hrest]
      rfl
    by_cases hfit : fitsBuffer line = false
    · refine ⟨1, { s with next := none }, ?_, ?_, rfl⟩
      · simp [run, step, hn, hline, hfit]
      · simp [follow, hfit]
    let queue := if hasMessage line then s.queue ++ [n] else s.queue
    obtain ⟨k, s', hrun, hqueue, hs'⟩ := ih (s := { s with queue, next := some (n + 1) }) rfl hdrop
    refine ⟨k + 1, s', ?_, ?_, hs'⟩
    · by_cases hmsg : hasMessage line = true <;>
        simpa [List.replicate_succ, run, step, hn, hline, hfit, queue, hmsg] using hrun
    · by_cases hmsg : hasMessage line = true <;> simp [hqueue, queue, follow, hfit, hmsg]

/-- What is in flight can be acknowledged. -/
theorem run_acks (s : JournalState) :
    ∃ s', run step s (List.replicate s.queue.length .ack) = some s' ∧
      s'.acked = s.acked ++ s.queue := by
  generalize hqueue : s.queue = queue
  induction queue generalizing s with
  | nil => exact ⟨s, rfl, (append_nil _).symm⟩
  | cons n queue ih =>
    obtain ⟨s', hrun, hacked⟩ :=
      ih { s with queue, cursor := some n, acked := s.acked ++ [n] } rfl
    refine ⟨s', ?_, by simpa using hacked⟩
    simpa [List.replicate_succ, run, step, hqueue] using hrun

section Turns
variable {journal lines : List Bytes} {c m n : Nat}

/-- The record with this number comes behind `n` lines, and all up to it fit. -/
def InReach (lines : List Bytes) (n m : Nat) : Prop :=
  ∃ pre line post, lines = pre ++ line :: post ∧ n + pre.length = m ∧
    ∀ l ∈ pre ++ [line], fitsBuffer l = true

theorem inReach_of_mem_follow (h : m ∈ follow n lines) : InReach lines n m := by
  induction lines generalizing n with
  | nil => cases h
  | cons line rest ih =>
    unfold follow at h
    split at h
    · cases h
    next hfit =>
    rw [Bool.not_eq_false] at hfit
    have hlater : m ∈ follow (n + 1) rest → InReach (line :: rest) n m := by
      intro hmem
      obtain ⟨pre, l, post, rfl, rfl, hall⟩ := ih hmem
      refine ⟨line :: pre, l, post, rfl, by rw [length_cons]; omega, ?_⟩
      exact forall_mem_cons.mpr ⟨hfit, hall⟩
    split at h
    · rcases mem_cons.mp h with rfl | h
      · exact ⟨[], line, rest, rfl, rfl, forall_mem_singleton.mpr hfit⟩
      · exact hlater h
    · exact hlater h

theorem mem_follow_of_fits (hsends : lines[m]?.any hasMessage = true)
    (hfits : ∀ l ∈ lines.take (m + 1), fitsBuffer l = true) : n + m ∈ follow n lines := by
  induction lines generalizing n m with
  | nil => cases hsends
  | cons line lines ih =>
    obtain ⟨hfit, hfits⟩ := forall_mem_cons.mp hfits
    cases m with
    | zero => simp_all [follow]
    | succ m =>
      have hmem : n + 1 + m ∈ follow (n + 1) lines := ih hsends hfits
      rw [show n + (m + 1) = n + 1 + m by omega]
      simp only [follow, hfit, Bool.true_eq_false, if_false]
      split <;> simp [hmem]

theorem mem_follow {pre post : List Bytes} {line : Bytes} (hmsg : hasMessage line = true)
    (hall : ∀ l ∈ pre ++ [line], fitsBuffer l = true) :
    n + pre.length ∈ follow n (pre ++ line :: post) := by
  refine mem_follow_of_fits (by simpa using hmsg) ?_
  rwa [← singleton_append, ← append_assoc, take_left' (by simp)]

/-- However often `journalctl` is started, it comes no further than the first record that
does not fit. -/
theorem inReach_turns (k : Nat) :
    let x := (turn journal)^[k] (c, [])
    (∃ pre post, journal.drop (c + 1) = pre ++ post ∧ x.1 = c + pre.length ∧
      ∀ l ∈ pre, fitsBuffer l = true) ∧ ∀ m ∈ x.2, InReach (journal.drop (c + 1)) (c + 1) m := by
  induction k with
  | zero => exact ⟨⟨[], _, rfl, rfl, forall_mem_nil _⟩, forall_mem_nil _⟩
  | succ k ih =>
    rw [Function.iterate_succ_apply']
    obtain ⟨⟨pre, post, hsplit, hcursor, hfits⟩, hsent⟩ := ih
    generalize (turn journal)^[k] (c, []) = x at hcursor hsent
    have hdrop : journal.drop (x.1 + 1) = post := by
      rw [hcursor, show c + pre.length + 1 = c + 1 + pre.length by omega, ← drop_drop, hsplit,
        drop_left]
    have hnew : ∀ m ∈ follow (x.1 + 1) (journal.drop (x.1 + 1)), ∃ pre' post',
        journal.drop (c + 1) = pre' ++ post' ∧ m = c + pre'.length ∧
          (∀ l ∈ pre', fitsBuffer l = true) ∧ InReach (journal.drop (c + 1)) (c + 1) m := by
      intro m hm
      rw [hdrop] at hm
      obtain ⟨pre2, line, post2, rfl, rfl, hall⟩ := inReach_of_mem_follow hm
      have hall' : ∀ l ∈ pre ++ pre2 ++ [line], fitsBuffer l = true := by
        rw [append_assoc]
        exact forall_mem_append.mpr ⟨hfits, hall⟩
      refine ⟨pre ++ pre2 ++ [line], post2, by simp [hsplit], ?_, hall', pre ++ pre2, line, post2,
        by simp [hsplit], ?_, hall'⟩
      · simp only [length_append, length_singleton]
        omega
      · simp only [length_append]
        omega
    constructor
    · cases hlast : (follow (x.1 + 1) (journal.drop (x.1 + 1))).getLast? with
      | none =>
        refine ⟨pre, post, hsplit, ?_, hfits⟩
        simpa only [turn, getLastD_eq_getLast?, hlast, Option.getD_none] using hcursor
      | some m =>
        obtain ⟨pre', post', hsplit', hm, hfits', -⟩ := hnew m (mem_of_getLast? hlast)
        refine ⟨pre', post', hsplit', ?_, hfits'⟩
        simp only [turn, getLastD_eq_getLast?, hlast, Option.getD_some, hm]
    · intro m hm
      rcases mem_append.mp hm with hm | hm
      · exact hsent m hm
      · obtain ⟨-, -, -, -, -, hreach⟩ := hnew m hm
        exact hreach

end Turns

/-- As long as `journalctl` is not started without a cursor while a record is to be sent: when
it runs and the records from the one it prints next on fit into the buffer, then reading
them and acknowledging what is in flight delivers every record with a message that was
appended after the first start. -/
theorem journal_delivers (history : List Bytes) (as : List JournalLabel) (s : JournalState)
    (h : run (guarded (resumes history.length) step) (init history) as = some s) {n : Nat}
    (hn : s.next = some n) (hfits : ∀ l ∈ s.records.drop n, fitsBuffer l = true) :
    ∃ k m s', run step s (List.replicate k .read ++ List.replicate m .ack) = some s' ∧
      ∀ i, history.length ≤ i → s.sends i = true → i ∈ s'.acked := by
  have hinv : Gapless history.length s :=
    run_guarded_inv (fun _ _ _ hs => hs.step) as _ s (gapless_init history) h
  obtain ⟨k, t, hread, hqueue, ht⟩ := run_follow hn
  obtain ⟨s', hack, hacked⟩ := run_acks t
  refine ⟨k, t.queue.length, s', ?_, fun i hfirst hsends => ?_⟩
  · rw [run_append, hread]
    exact hack
  rw [hacked, hqueue, ht]
  simp only [mem_append]
  rcases Nat.lt_or_ge i n with hlt | hge
  · -- it was sent before
    obtain ⟨sp, hsp, -, -, hlo, hhi⟩ := hinv.reader n hn i hfirst hlt
    rcases hsp with ⟨m, rfl, hm⟩ | hm
    · obtain rfl : m = i := Nat.le_antisymm hlo (Nat.le_of_lt_succ hhi)
      exact .inl (hm.resolve_right fun hno => by simp [hsends] at hno)
    · obtain ⟨m, hmem, rfl⟩ := mem_map.mp hm
      obtain rfl : m = i := Nat.le_antisymm hlo (Nat.le_of_lt_succ hhi)
      exact .inr (.inl hmem)
  · obtain ⟨m, rfl⟩ := Nat.exists_eq_add_of_le hge
    rw [JournalState.sends, ← getElem?_drop] at hsends
    exact .inr (.inr (mem_follow_of_fits hsends fun l hl => hfits l (mem_of_mem_take hl)))

/-- A record is in flight, another was not read yet. -/
theorem two_records_delivered :
    let s : JournalState := { records := [aRecord, aRecord], next := some 1, queue := [0] }
    ∃ k m s', run step s (List.replicate k .read ++ List.replicate m .ack) = some s' ∧
      0 ∈ s'.acked ∧ 1 ∈ s'.acked := by
  intro s
  obtain ⟨k, m, s', hrun, hall⟩ := journal_delivers [] [.append aRecord, .append aRecord, .read] s
    (by decide +kernel) rfl (by decide +kernel)
  exact ⟨k, m, s', hrun, hall 0 (Nat.zero_le 0) (by decide +kernel),
    hall 1 (Nat.zero_le 1) (by decide +kernel)⟩

/-- The loop of `Run` gets to every record with a message behind the cursor `c` if and only
if each of them, and every record on the way to it, fits into the buffer. -/
theorem journal_passes_iff (journal : List Bytes) (c : Nat) :
    (∃ k, ∀ pre line post, journal.drop (c + 1) = pre ++ line :: post → hasMessage line = true →
      c + 1 + pre.length ∈ ((turn journal)^[k] (c, [])).2) ↔
    ∀ pre line post, journal.drop (c + 1) = pre ++ line :: post → hasMessage line = true →
      ∀ l ∈ pre ++ [line], fitsBuffer l = true := by
  constructor
  · rintro ⟨k, hk⟩ pre line post hsplit hmsg
    obtain ⟨pre', line', post', hsplit', hlen, hall⟩ :=
      (inReach_turns k).2 _ (hk pre line post hsplit hmsg)
    obtain ⟨rfl, hcons⟩ := append_inj (hsplit'.symm.trans hsplit) (by omega)
    obtain ⟨rfl, -⟩ := cons.inj hcons
    exact hall
  · intro h
    refine ⟨1, fun pre line post hsplit hmsg => ?_⟩
    show _ ∈ [] ++ follow (c + 1) (journal.drop (c + 1))
    rw [hsplit, nil_append]
    exact mem_follow hmsg (h pre line post hsplit hmsg)

/-- A record that does not fit. -/
def longRecord : Bytes := aRecord ++ List.replicate (4 * maxLineBytes) 0x20

/-- The record behind it is never sent. -/
theorem journal_stuck :
    [aRecord, longRecord, aRecord].drop 1 = [longRecord] ++ aRecord :: [] ∧
    hasMessage aRecord = true ∧
    ∀ k, 0 + 1 + [longRecord].length ∉ ((turn [aRecord, longRecord, aRecord])^[k] (0, [])).2 := by
  refine ⟨rfl, by decide +kernel, fun k hk => ?_⟩
  obtain ⟨pre, line, post, hsplit, hlen, hall⟩ := (inReach_turns k).2 _ hk
  have hsplit : [longRecord] ++ [aRecord] = pre ++ line :: post := hsplit
  have hpre : [longRecord] = pre := (append_inj hsplit (by omega)).1
  have hfit := hall longRecord (hpre ▸ mem_cons_self)
  rw [fitsBuffer, longRecord, length_append, length_replicate, decide_eq_true_eq] at hfit
  omega

end YominsAgent.Logs
