import YominsAgent.Events.WtmpReplay

/- `runWtmp` on one file that grows by chunks of any size, with polls at any time between them.

   `io.ReadFull` takes the bytes of a record that is not complete off the descriptor, and the loop
   forgets them: the cursor stays before that record, the descriptor goes on behind it. The next
   poll that finds enough bytes decodes a record from the middle of one. `wtmp_aligned_iff` says
   that this is the only way in which the reading loses the records: all polls decode exactly the
   complete records, each at the first poll that finds it complete, and save the offset behind the
   last of them, exactly when no poll that finds a complete record behind the cursor comes after one
   that ended inside a record. -/
namespace YominsAgent.Events
open Go Lib List

inductive ChunkLabel where
  | append (chunk : Bytes)
  | poll (readings : Nat → Reading)

/-- The agent has opened the file and stands before its loop. -/
def opened (data : Bytes) (saved : Option Int) (ips : Map Bytes Bytes) : WtmpState :=
  { wtmp := data, cursorFile := saved,
    agent := some (openWtmp { wtmp := data, cursorFile := saved } ips) }

section
variable (cfg : WtmpConfig)

def chunkStep (s : WtmpState) : ChunkLabel → WtmpState
  | .append chunk => { s with wtmp := s.wtmp ++ chunk }
  | .poll readings =>
    match s.agent with
    | some w => pollWtmp cfg s w readings
    | none => s

def afterChunks (s : WtmpState) (labels : List ChunkLabel) : WtmpState :=
  labels.foldl (chunkStep cfg) s

/-- The records decoded are those that are complete from `start` on, in order and each
from its own bytes, and the saved cursor is the offset behind the last of them. -/
structure Aligned (start : Nat) (s : WtmpState) : Prop where
  places : s.out.map (fun x => x.1.2) =
    (List.range (recordsFrom s.wtmp start)).map (start + utmpRecordSize * ·)
  events : ∀ x ∈ s.out, ∃ ips r, x.2 = (recordEvents cfg ips r (readFull s.wtmp x.1.2)).1
  cursor : s.cursorFile = some ((start + utmpRecordSize * s.out.length : Nat) : Int)

/-- The descriptor stands at the cursor, or there is no complete record behind the
cursor. -/
def InStep (s : WtmpState) : Prop :=
  ∃ w, s.agent = some w ∧
    ((w.pos : Int) = w.cursor ∨ (s.wtmp.length : Int) < w.cursor + utmpRecordSize)

/-- What holds as long as every poll has been in step: the descriptor is at most inside
the record behind the cursor. -/
structure Synced (start : Nat) (s : WtmpState) (w : WtmpReader) : Prop where
  agent : s.agent = some w
  rotated : s.rotated = []
  inode : w.inode = 0
  cursor : w.cursor = ((start + utmpRecordSize * s.out.length : Nat) : Int)
  places : s.out.map (fun x => x.1.2) =
    (List.range s.out.length).map (start + utmpRecordSize * ·)
  events : ∀ x ∈ s.out, ∃ ips r, x.2 = (recordEvents cfg ips r (readFull s.wtmp x.1.2)).1
  behind : start + utmpRecordSize * s.out.length ≤ w.pos
  within : w.pos ≤ s.wtmp.length
  inside : w.pos < start + utmpRecordSize * (s.out.length + 1)

end

section
variable {cfg : WtmpConfig} {start : Nat} {s : WtmpState} {w : WtmpReader}

theorem Synced.append (h : Synced cfg start s w) (chunk : Bytes) :
    Synced cfg start (chunkStep cfg s (.append chunk)) w := by
  have hwithin := h.within
  refine { h with
    events := fun x hx => ?_
    within := by simp only [chunkStep, length_append]; omega }
  obtain ⟨ips, r, hev⟩ := h.events x hx
  refine ⟨ips, r, ?_⟩
  have hplace : x.1.2 ∈ s.out.map (fun x => x.1.2) := mem_map_of_mem hx
  rw [h.places, mem_map] at hplace
  obtain ⟨i, hi, hplace⟩ := hplace
  have hbehind := h.behind
  rw [mem_range] at hi
  have hend : x.1.2 + utmpRecordSize ≤ s.wtmp.length := by
    simp only [utmpRecordSize] at hplace hbehind ⊢
    omega
  rw [chunkStep, readFull_append hend, hev]

/-- What a poll does, from a descriptor that is not beyond the end of the file. -/
theorem Synced.poll (h : Synced cfg start s w) (readings : Nat → Reading) :
    ∃ ips read, chunkStep cfg s (.poll readings) =
      { s with
        agent := some { w with
          pos := s.wtmp.length
          cursor := w.cursor + (utmpRecordSize * recordsFrom s.wtmp w.pos : Nat)
          lastIPByUser := ips }
        cursorFile := some (w.cursor + (utmpRecordSize * recordsFrom s.wtmp w.pos : Nat))
        out := s.out ++ read } ∧
      read.length = recordsFrom s.wtmp w.pos ∧
      read.map (fun x => x.1.2) =
        (List.range (recordsFrom s.wtmp w.pos)).map (w.pos + utmpRecordSize * ·) ∧
      ∀ x ∈ read, ∃ ips r, x.2 = (recordEvents cfg ips r (readFull s.wtmp x.1.2)).1 := by
  have hpath : s.path = w.inode := by
    rw [WtmpState.path, h.rotated, h.inode]
    rfl
  have hreopen : reopen s w = w := if_neg (not_not.mpr hpath)
  have hcontent : s.content w.inode = s.wtmp := by
    rw [WtmpState.content, h.rotated, h.inode]
    rfl
  obtain ⟨ips, read, hloop, hplaces, hevents⟩ :=
    readLoop_spec cfg readings s.wtmp (s.wtmp.length / utmpRecordSize + 1) w []
      (Nat.lt_succ_of_le (Nat.div_le_div_right (Nat.sub_le _ _)))
  rw [nil_append, max_eq_right h.within] at hloop
  refine ⟨ips, read.map fun x => ((w.inode, x.1), x.2), ?_, ?_, ?_, ?_⟩
  · simp only [chunkStep, h.agent, pollWtmp, hreopen, hcontent, readAll, hloop]
  · rw [length_map, ← length_map Prod.fst, hplaces, length_map, length_range]
  · rw [map_map]
    exact hplaces
  · rintro x hx
    obtain ⟨y, hy, rfl⟩ := mem_map.mp hx
    exact hevents y hy

/-- The place of the `i`-th record a list of consecutive places has. -/
theorem range_append_eq (start n m : Nat) :
    (List.range n).map (start + utmpRecordSize * ·) ++
        (List.range m).map (start + utmpRecordSize * n + utmpRecordSize * ·) =
      (List.range (n + m)).map (start + utmpRecordSize * ·) := by
  rw [range_add, map_append, map_map]
  refine congrArg (_ ++ ·) (map_congr_left fun i _ => ?_)
  simp only [Function.comp_apply, utmpRecordSize]
  omega

/-- One poll: it decodes exactly the records that have become complete when it is in step,
and then leaves the reading as it was; and it does not when it is out of step. -/
theorem Synced.poll_aligned_iff (h : Synced cfg start s w) (readings : Nat → Reading) :
    (Aligned cfg start (chunkStep cfg s (.poll readings)) ↔ InStep s) ∧
      (InStep s → ∃ w', Synced cfg start (chunkStep cfg s (.poll readings)) w') := by
  obtain ⟨ips, read, hpoll, hlen, hplaces, hevents⟩ := h.poll readings
  have hbehind := h.behind
  have hwithin := h.within
  have hcursor := h.cursor
  have hallEvents : ∀ x ∈ s.out ++ read,
      ∃ ips r, x.2 = (recordEvents cfg ips r (readFull s.wtmp x.1.2)).1 := by
    intro x hx
    rcases mem_append.mp hx with hx | hx
    · exact h.events x hx
    · exact hevents x hx
  have hstep : InStep s ↔ w.pos = start + utmpRecordSize * s.out.length ∨
      s.wtmp.length < start + utmpRecordSize * (s.out.length + 1) := by
    simp only [InStep, h.agent, Option.some.injEq, exists_eq_left', hcursor, utmpRecordSize]
    omega
  -- the places after a poll in step
  have hgood : InStep s → recordsFrom s.wtmp start = s.out.length + recordsFrom s.wtmp w.pos ∧
      (s.out ++ read).map (fun x => x.1.2) =
        (range (s.out.length + recordsFrom s.wtmp w.pos)).map
          (start + utmpRecordSize * ·) := by
    intro hin
    rw [map_append, h.places, hplaces, ← range_append_eq]
    rcases hstep.mp hin with hpos | hshort
    · refine ⟨?_, by rw [hpos]⟩
      simp only [recordsFrom, utmpRecordSize] at hpos ⊢
      omega
    · have hnone : recordsFrom s.wtmp w.pos = 0 := by
        simp only [recordsFrom, utmpRecordSize] at hshort hbehind ⊢
        omega
      rw [hnone]
      refine ⟨?_, rfl⟩
      simp only [recordsFrom, utmpRecordSize] at hshort hbehind ⊢
      omega
  have hsaved : w.cursor + (utmpRecordSize * recordsFrom s.wtmp w.pos : Nat) =
      ((start + utmpRecordSize * (s.out ++ read).length : Nat) : Int) := by
    rw [hcursor, length_append]
    simp only [utmpRecordSize]
    omega
  rw [hpoll]
  refine ⟨⟨fun hal => hstep.mpr ?_, fun hin => ⟨?_, hallEvents, congrArg some hsaved⟩⟩,
    fun hin => ⟨_, ⟨rfl, h.rotated, h.inode, hsaved, ?_, hallEvents, ?_, le_refl _, ?_⟩⟩⟩
  · -- the record behind the cursor is decoded from its place, if it is complete
    have hcount := congrArg length hal.places
    simp only [length_map, length_append, hlen, length_range] at hcount
    have hall := hal.places
    simp only [map_append, hplaces] at hall
    rcases Nat.eq_zero_or_pos (recordsFrom s.wtmp w.pos) with hnone | hsome
    · right
      simp only [recordsFrom, utmpRecordSize] at hcount hnone ⊢
      omega
    · left
      have hget := congrArg (fun l => l[s.out.length]?) hall
      simp only [← hcount] at hget
      simpa [hsome, Nat.lt_add_of_pos_right hsome] using hget
  · rw [(hgood hin).1]
    exact (hgood hin).2
  · rw [length_append, hlen]
    exact (hgood hin).2
  all_goals
    have hcount := (hgood hin).1
    simp only [length_append, hlen, recordsFrom, utmpRecordSize] at hcount hbehind ⊢
    omega

/-- What is asked of all polls of a run: at the first label, and in the rest. -/
theorem forall_polls_cons (F : List ChunkLabel → (Nat → Reading) → Prop) (l : ChunkLabel)
    (ls : List ChunkLabel) :
    (∀ pre r, pre ++ [.poll r] <+: l :: ls → F pre r) ↔
      (∀ r, l = .poll r → F [] r) ∧ ∀ pre r, pre ++ [.poll r] <+: ls → F (l :: pre) r := by
  constructor
  · intro h
    refine ⟨fun r hl => h [] r ?_, fun pre r hpre => h (l :: pre) r ?_⟩
    · rw [hl]
      exact prefix_append [ChunkLabel.poll r] ls
    · exact (prefix_cons_inj l).mpr hpre
  · rintro ⟨hfirst, hrest⟩ pre r hpre
    cases pre with
    | nil => exact hfirst r (cons_prefix_cons.mp hpre).1.symm
    | cons x pre =>
      obtain ⟨rfl, htail⟩ := cons_prefix_cons.mp hpre
      exact hrest pre r htail

theorem Synced.run_aligned_iff (h : Synced cfg start s w) (labels : List ChunkLabel) :
    (∀ pre r, pre ++ [.poll r] <+: labels →
        Aligned cfg start (afterChunks cfg s (pre ++ [.poll r]))) ↔
      ∀ pre r, pre ++ [.poll r] <+: labels → InStep (afterChunks cfg s pre) := by
  induction labels generalizing s w with
  | nil => simp
  | cons l labels ih =>
    rw [forall_polls_cons, forall_polls_cons]
    cases l with
    | append chunk => exact and_congr (by simp) (ih (h.append chunk))
    | poll readings =>
      obtain ⟨hal, hnext⟩ := h.poll_aligned_iff readings
      have hone : (∀ r, ChunkLabel.poll readings = .poll r →
          Aligned cfg start (afterChunks cfg s ([] ++ [.poll r]))) ↔ InStep s := by
        refine Iff.trans ⟨fun hr => hr readings rfl, fun hr r hl => ?_⟩ hal
        cases hl
        exact hr
      have hzero : (∀ r, ChunkLabel.poll readings = .poll r → InStep (afterChunks cfg s [])) ↔
          InStep s := ⟨fun hr => hr readings rfl, fun hr _ _ => hr⟩
      rw [hone, hzero]
      refine and_congr_right fun hin => ?_
      obtain ⟨w', hw'⟩ := hnext hin
      exact ih hw'

theorem synced_opened (cfg : WtmpConfig) {data : Bytes} {saved : Option Int}
    {ips : Map Bytes Bytes} {start : Nat}
    (hstart : (openWtmp { wtmp := data, cursorFile := saved } ips).cursor = start)
    (hle : start ≤ data.length) :
    Synced cfg start (opened data saved ips)
      (openWtmp { wtmp := data, cursorFile := saved } ips) := by
  have hpos : (openWtmp { wtmp := data, cursorFile := saved } ips).pos = start := by
    simp only [openWtmp] at hstart ⊢
    rw [hstart]
    simp
  refine ⟨rfl, rfl, rfl, hstart, rfl, forall_mem_nil _, ?_, by rw [hpos]; exact hle, ?_⟩
  · rw [hpos]
    exact le_refl start
  · rw [hpos]
    exact Nat.lt_add_of_pos_right utmpRecordSize_pos

/-- For every file and saved cursor, every sequence of chunks and every placement of polls:
all polls are aligned exactly when all of them are in step. -/
theorem wtmp_aligned_iff (cfg : WtmpConfig) (data : Bytes) (saved : Option Int)
    (ips : Map Bytes Bytes) (start : Nat)
    (hstart : (openWtmp { wtmp := data, cursorFile := saved } ips).cursor = start)
    (hle : start ≤ data.length) (labels : List ChunkLabel) :
    (∀ pre r, pre ++ [.poll r] <+: labels →
        Aligned cfg start (afterChunks cfg (opened data saved ips) (pre ++ [.poll r]))) ↔
      ∀ pre r, pre ++ [.poll r] <+: labels →
        InStep (afterChunks cfg (opened data saved ips) pre) :=
  (synced_opened cfg hstart hle).run_aligned_iff labels

end

set_option maxRecDepth 8000 in
/-- A record that is complete when it is first polled. -/
theorem whole_record_aligned :
    (openWtmp { wtmp := [], cursorFile := none } ∅).cursor = 0 ∧
    Aligned wtmpConfig 0 (afterChunks wtmpConfig (opened [] none ∅)
      ([.append logoutRecord] ++ [.poll noReadings])) := by
  have hpolls := (wtmp_aligned_iff wtmpConfig [] none ∅ 0 rfl (le_refl 0)
    [.append logoutRecord, .poll noReadings]).mpr ?_
  · exact ⟨rfl, hpolls [.append logoutRecord] noReadings (prefix_refl _)⟩
  rw [forall_polls_cons, forall_polls_cons]
  refine ⟨nofun, fun _ _ => ⟨_, rfl, .inl rfl⟩, fun pre r hpre => ?_⟩
  cases pre <;> simp at hpre

set_option maxRecDepth 8000 in
/-- A poll between the two halves of a record: the poll after the second half decodes
nothing, and no later one can. -/
theorem half_record_lost :
    (afterChunks wtmpConfig (opened [] none ∅) [.append (logoutRecord.take 192),
      .poll noReadings, .append (logoutRecord.drop 192), .poll noReadings]).out = [] ∧
    ¬ Aligned wtmpConfig 0 (afterChunks wtmpConfig (opened [] none ∅)
      [.append (logoutRecord.take 192), .poll noReadings, .append (logoutRecord.drop 192),
        .poll noReadings]) :=
  ⟨rfl, fun h => nomatch h.places⟩

end YominsAgent.Events
