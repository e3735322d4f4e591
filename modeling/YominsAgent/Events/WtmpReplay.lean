import YominsAgent.Events.Wtmp

/- What the agent makes of `wtmp` over stops, starts and rotations.

   No record is read twice, in any run (`Once`). Every record appended since the first
   start is read at the next poll, as long as the agent is stopped only when the cursor it
   has saved is that of the file at the path and not 0, and `wtmp` is rotated only while
   the agent runs and has read it all (`wtmp_replay`). A record may be lost that is appended
   while the agent is down and its cursor is 0 (`appended_while_down_lost`), or between the
   last poll and a rotation, or to a file that took the path while the agent was down. -/
namespace YominsAgent.Events
open Go Lib List Option

variable {cfg : WtmpConfig} {s s' : WtmpState} {w : WtmpReader}

/-- The place up to which the file at the path has been read, or will not be read. -/
def WtmpState.at (s : WtmpState) (w : WtmpReader) : Nat := if w.inode = s.path then w.pos else 0

/-- The reader is at the start of a record of the file at the path or of an earlier one. -/
structure WtmpReader.Ok (s : WtmpState) (w : WtmpReader) : Prop where
  inode : w.inode ≤ s.path
  aligned : utmpRecordSize ∣ w.pos
  cursor : w.cursor = w.pos

theorem content_path (s : WtmpState) : s.content s.path = s.wtmp := by
  simp [WtmpState.content, WtmpState.path]

/-- A poll reads, once, every record of the file at the path from where it stands. -/
theorem pollWtmp_spec (cfg : WtmpConfig) (readings : Nat → Reading)
    (hwhole : utmpRecordSize ∣ s.wtmp.length) (hw : w.Ok s) :
    ∃ (w' : WtmpReader) (read : List (Nat × List Event)), pollWtmp cfg s w readings = { s with
        agent := some w', cursorFile := some (w'.pos : Int)
        out := s.out ++ read.map fun x => ((s.path, x.1), x.2) } ∧
      w'.inode = s.path ∧ w'.pos = max (s.at w) s.wtmp.length ∧ w'.cursor = w'.pos ∧
      (read.map Prod.fst).Nodup ∧ (∀ o, o ∈ read.map Prod.fst ↔ Unread s.wtmp (s.at w) o) ∧
      ∀ x ∈ read, ∃ ips r, x.2 = (recordEvents cfg ips r (readFull s.wtmp x.1)).1 := by
  have hre : (reopen s w).inode = s.path ∧ (reopen s w).pos = s.at w ∧
      utmpRecordSize ∣ (reopen s w).pos ∧ (reopen s w).cursor = (reopen s w).pos := by
    unfold reopen WtmpState.at
    split
    · next h => exact ⟨rfl, (if_neg (Ne.symm h)).symm, Nat.dvd_zero _, rfl⟩
    · next h =>
      have heq : w.inode = s.path := (not_not.mp h).symm
      exact ⟨heq, (if_pos heq).symm, hw.aligned, hw.cursor⟩
  obtain ⟨hinode, hpos, haligned, hcursor⟩ := hre
  obtain ⟨ips, read, hread, hnodup, hplaces, hevents⟩ :=
    readAll_spec cfg readings hwhole haligned hcursor
  rw [hpos] at hread hplaces
  refine ⟨{ reopen s w with
      pos := max (s.at w) s.wtmp.length, cursor := (max (s.at w) s.wtmp.length : Nat)
      lastIPByUser := ips }, read, ?_, hinode, rfl, rfl, hnodup, hplaces, hevents⟩
  simp only [pollWtmp, hinode, content_path, hread]

theorem stepWtmp_append {record : Bytes} (hs : stepWtmp cfg s (.append record) = some s') :
    isSession record = true ∧ s' = { s with
      wtmp := s.wtmp ++ record
      owed := if s.began then s.owed ++ [(s.path, s.wtmp.length)] else s.owed } := by
  obtain ⟨hr, hs⟩ := ite_none_right_eq_some.mp hs
  exact ⟨hr, (some.inj hs).symm⟩

theorem stepWtmp_start {ips : Map Bytes Bytes} (hs : stepWtmp cfg s (.start ips) = some s') :
    s.agent = none ∧ s' = { s with agent := some (openWtmp s ips), began := true } := by
  simp only [stepWtmp] at hs
  split at hs
  · cases hs
  · next hagent => exact ⟨hagent, (some.inj hs).symm⟩

theorem stepWtmp_stop (hs : stepWtmp cfg s .stop = some s') :
    ∃ w, s.agent = some w ∧ s' = { s with agent := none } := by
  simp only [stepWtmp] at hs
  split at hs
  · next w hw => exact ⟨w, hw, (some.inj hs).symm⟩
  · cases hs

theorem path_rotate (s : WtmpState) :
    WtmpState.path { s with rotated := s.rotated ++ [s.wtmp], wtmp := [] } = s.path + 1 :=
  length_append

/-! ## No record twice -/

/-- What holds in every run. -/
structure Once (s : WtmpState) : Prop where
  whole : utmpRecordSize ∣ s.wtmp.length
  nodup : (s.out.map Prod.fst).Nodup
  /-- a record that was read is in the file at the path, or in an earlier one -/
  read : ∀ x ∈ s.out, x.1.1 < s.path ∨ (x.1.1 = s.path ∧ x.1.2 < s.wtmp.length)
  saved : ∀ c, s.cursorFile = some c → ∃ n : Nat, c = n ∧ utmpRecordSize ∣ n ∧
    (n ≠ 0 → ∀ x ∈ s.out, x.1.1 = s.path → x.1.2 < n)
  agent : ∀ w, s.agent = some w → w.Ok s ∧
    ∀ x ∈ s.out, x.1.1 = s.path → w.inode = s.path ∧ x.1.2 < w.pos

theorem once_init {data : Bytes} (h : utmpRecordSize ∣ data.length) : Once { wtmp := data } :=
  ⟨h, nodup_nil, nofun, nofun, nofun⟩

/-- The agent starts at the end of the file, or where its last poll has ended. -/
theorem openWtmp_spec (h : Once s) (ips : Map Bytes Bytes) :
    (openWtmp s ips).Ok s ∧ (openWtmp s ips).inode = s.path ∧
    ((openWtmp s ips).pos = s.wtmp.length ∧ s.cursorFile.getD 0 = 0 ∨
      s.cursorFile = some ((openWtmp s ips).pos : Int) ∧ (openWtmp s ips).pos ≠ 0) := by
  by_cases hc : s.cursorFile.getD 0 = 0
  · have hpos : (openWtmp s ips).pos = s.wtmp.length := by
      simp [openWtmp, hc]
    have hcursor : (openWtmp s ips).cursor = (openWtmp s ips).pos := by
      simp [openWtmp, hc]
    exact ⟨⟨Nat.le_refl _, hpos ▸ h.whole, hcursor⟩, rfl, .inl ⟨hpos, hc⟩⟩
  · obtain ⟨c, hsaved⟩ : ∃ c, s.cursorFile = some c := by
      cases hs : s.cursorFile with
      | none => simp [hs] at hc
      | some c => exact ⟨c, rfl⟩
    obtain ⟨n, rfl, hn, -⟩ := h.saved c hsaved
    rw [hsaved, getD_some] at hc
    have hpos : (openWtmp s ips).pos = n := by
      simp [openWtmp, hsaved, Int.natCast_ne_zero.mp hc]
    have hcursor : (openWtmp s ips).cursor = n := by
      simp [openWtmp, hsaved, Int.natCast_ne_zero.mp hc]
    refine ⟨⟨Nat.le_refl _, hpos ▸ hn, by rw [hcursor, hpos]⟩, rfl, .inr ⟨by rw [hsaved, hpos], ?_⟩⟩
    rw [hpos]
    exact Int.natCast_ne_zero.mp hc

section
variable (h : Once s)
include h

theorem Once.append {record : Bytes} {owed : List Place} (hr : isSession record = true) :
    Once { s with wtmp := s.wtmp ++ record, owed } := by
  refine ⟨?_, h.nodup, fun x hx => ?_, h.saved, fun w hw => ?_⟩
  · rw [length_append, length_of_isSession hr]
    exact Nat.dvd_add h.whole (Nat.dvd_refl _)
  · rcases h.read x hx with hlt | ⟨heq, hlt⟩
    · exact .inl hlt
    · refine .inr ⟨heq, ?_⟩
      rw [length_append]
      omega
  · obtain ⟨hok, hread⟩ := h.agent w hw
    exact ⟨⟨hok.inode, hok.aligned, hok.cursor⟩, hread⟩

theorem Once.rotate : Once { s with rotated := s.rotated ++ [s.wtmp], wtmp := [] } := by
  have hold : ∀ x ∈ s.out, x.1.1 < s.path + 1 := by
    intro x hx
    rcases h.read x hx with hlt | ⟨heq, -⟩ <;> omega
  -- no record that was read is in the new file
  have hnone : ∀ x ∈ s.out, x.1.1 ≠ WtmpState.path { s with rotated := s.rotated ++ [s.wtmp], wtmp := [] } :=
    fun x hx => path_rotate s ▸ Nat.ne_of_lt (hold x hx)
  refine ⟨Nat.dvd_zero _, h.nodup, fun x hx => .inl (path_rotate s ▸ hold x hx),
    fun c hc => ?_, fun w hw => ?_⟩
  · obtain ⟨n, hn, hdvd, -⟩ := h.saved c hc
    exact ⟨n, hn, hdvd, fun _ x hx heq => absurd heq (hnone x hx)⟩
  · obtain ⟨hok, -⟩ := h.agent w hw
    exact ⟨⟨path_rotate s ▸ Nat.le_succ_of_le hok.inode, hok.aligned, hok.cursor⟩,
      fun x hx heq => absurd heq (hnone x hx)⟩

theorem Once.start (ips : Map Bytes Bytes) :
    Once { s with agent := some (openWtmp s ips), began := true } := by
  refine ⟨h.whole, h.nodup, h.read, h.saved, fun w hw => ?_⟩
  obtain rfl := Option.some.inj hw
  obtain ⟨hok, hinode, hpos⟩ := openWtmp_spec h ips
  refine ⟨⟨hok.inode, hok.aligned, hok.cursor⟩, fun x hx heq => ⟨hinode, ?_⟩⟩
  rcases hpos with ⟨hpos, -⟩ | ⟨hsaved, hne⟩
  · rw [hpos]
    rcases h.read x hx with hlt | ⟨-, hlt⟩
    · exact absurd heq (Nat.ne_of_lt hlt)
    · exact hlt
  · obtain ⟨n, hn, -, hbound⟩ := h.saved _ hsaved
    have hn' : (openWtmp s ips).pos = n := Int.ofNat_inj.mp hn
    rw [hn']
    exact hbound (hn' ▸ hne) x hx heq

theorem Once.poll (hw : s.agent = some w) (readings : Nat → Reading) :
    Once (pollWtmp cfg s w readings) := by
  obtain ⟨hok, hread⟩ := h.agent w hw
  obtain ⟨w', read, hpoll, hinode, hpos, hcursor, hnodup, hplaces, -⟩ :=
    pollWtmp_spec cfg readings h.whole hok
  rw [hpoll]
  have haligned : utmpRecordSize ∣ w'.pos := by
    rw [hpos, WtmpState.at]
    rcases max_choice (if w.inode = s.path then w.pos else 0) s.wtmp.length with hm | hm <;> rw [hm]
    · split
      · exact hok.aligned
      · exact Nat.dvd_zero _
    · exact h.whole
  -- what was read before lies in front of the reader, what is read now behind it
  have hbefore : ∀ x ∈ s.out, x.1.1 = s.path → x.1.2 < s.at w := by
    intro x hx heq
    obtain ⟨hwp, hlt⟩ := hread x hx heq
    rw [WtmpState.at, if_pos hwp]
    exact hlt
  have hnow : ∀ x ∈ read.map (fun x => ((s.path, x.1), x.2)),
      x.1.1 = s.path ∧ s.at w ≤ x.1.2 ∧ x.1.2 < s.wtmp.length := by
    intro x hx
    obtain ⟨y, hy, rfl⟩ := mem_map.mp hx
    obtain ⟨-, hle, hlt⟩ := (hplaces y.1).mp (mem_map_of_mem hy)
    exact ⟨rfl, hle, hlt⟩
  have hall : ∀ x ∈ s.out ++ read.map (fun x => ((s.path, x.1), x.2)),
      x.1.1 = s.path → x.1.2 < w'.pos := by
    intro x hx heq
    rw [hpos]
    rcases mem_append.mp hx with hx | hx
    · exact lt_max_of_lt_left (hbefore x hx heq)
    · exact lt_max_of_lt_right (hnow x hx).2.2
  refine ⟨h.whole, ?_, fun x hx => ?_, fun c hc => ?_, fun v hv => ?_⟩
  · rw [map_append, nodup_append]
    refine ⟨h.nodup, ?_, fun a ha b hb hab => ?_⟩
    · have hcomp : (Prod.fst ∘ fun x : Nat × List Event => ((s.path, x.1), x.2)) =
          (Prod.mk s.path) ∘ Prod.fst := rfl
      rw [List.map_map, hcomp, ← List.map_map]
      exact hnodup.map (Prod.mk_right_injective s.path)
    · obtain ⟨x, hx, rfl⟩ := mem_map.mp ha
      obtain ⟨y, hy, rfl⟩ := mem_map.mp hb
      obtain ⟨hy1, hy2, -⟩ := hnow y hy
      have hlt := hbefore x hx ((congrArg Prod.fst hab).trans hy1)
      rw [hab] at hlt
      omega
  · rcases mem_append.mp hx with hx | hx
    · exact h.read x hx
    · exact .inr ⟨(hnow x hx).1, (hnow x hx).2.2⟩
  · obtain rfl := Option.some.inj hc
    exact ⟨w'.pos, rfl, haligned, fun _ => hall⟩
  · obtain rfl := Option.some.inj hv
    exact ⟨⟨Nat.le_of_eq hinode, haligned, hcursor⟩, fun x hx heq => ⟨hinode, hall x hx heq⟩⟩

theorem Once.step {a : WtmpLabel} (hs : stepWtmp cfg s a = some s') : Once s' := by
  cases a with
  | append =>
    obtain ⟨hr, rfl⟩ := stepWtmp_append hs
    exact h.append hr
  | rotate => cases hs; exact h.rotate
  | start ips =>
    obtain ⟨-, rfl⟩ := stepWtmp_start hs
    exact h.start ips
  | poll readings =>
    obtain ⟨w, hw, rfl⟩ := map_eq_some_iff.mp hs
    exact h.poll hw readings
  | stop =>
    obtain ⟨w, -, rfl⟩ := stepWtmp_stop hs
    exact ⟨h.whole, h.nodup, h.read, h.saved, nofun⟩

end

/-! ## Every record, if stops and rotations wait for the agent -/

/-- The agent is stopped only when it has saved its cursor in the file at the path and the
cursor is not 0, and the file is rotated only while the agent runs and has read it all. -/
def careful (s : WtmpState) : WtmpLabel → Bool
  | .stop => s.agent.any fun w => w.inode = s.path && s.cursorFile = some w.cursor && w.cursor ≠ 0
  | .rotate => !s.began || s.agent.any fun w => s.at w = s.wtmp.length
  | _ => true

/-- The record has been turned into events. -/
def Handled (s : WtmpState) (x : Place) : Prop := ∃ evs, (x, evs) ∈ s.out ∧ evs ≠ []

/-- Where the agent reads on, now or after its next start. -/
def Resumes (s : WtmpState) (pos : Nat) : Prop :=
  match s.agent with
  | some w => s.at w = pos
  | none => s.cursorFile = some (pos : Int) ∧ pos ≠ 0

structure CaughtUp (s : WtmpState) : Prop where
  once : Once s
  files : ∀ x ∈ s.owed, x.1 ≤ s.path
  owed : ∀ x ∈ s.owed, x.1 = s.path → utmpRecordSize ∣ x.2 ∧
    x.2 + utmpRecordSize ≤ s.wtmp.length ∧ isSession (readFull s.wtmp x.2) = true
  before : s.began = false → s.owed = [] ∧ s.agent = none ∧ s.cursorFile = none
  resumes : s.began = true → ∃ pos, Resumes s pos ∧ pos ≤ s.wtmp.length ∧
    ∀ x ∈ s.owed, Handled s x ∨ (x.1 = s.path ∧ pos ≤ x.2)

theorem caughtUp_init {data : Bytes} (h : utmpRecordSize ∣ data.length) :
    CaughtUp { wtmp := data } :=
  ⟨once_init h, nofun, nofun, fun _ => ⟨rfl, rfl, rfl⟩, nofun⟩

theorem CaughtUp.began (h : CaughtUp s) (hw : s.agent = some w) : s.began = true := by
  cases hb : s.began with
  | true => rfl
  | false => exact absurd (hw.symm.trans (h.before hb).2.1) nofun

theorem readFull_append {data record : Bytes} {o : Nat} (h : o + utmpRecordSize ≤ data.length) :
    readFull (data ++ record) o = readFull data o := by
  have ho : o ≤ data.length := by omega
  have hlen : utmpRecordSize ≤ (data.drop o).length := by
    rw [length_drop]
    omega
  rw [readFull, readFull, field, field, drop_append_of_le_length ho, take_append_of_le_length hlen]

theorem readFull_last {data record : Bytes} (h : record.length = utmpRecordSize) :
    readFull (data ++ record) data.length = record := by
  rw [readFull, field, drop_left, ← h, take_length]

/-- A poll turns every record into events that is still owed. -/
theorem CaughtUp.handled (h : CaughtUp s) (hw : s.agent = some w) (readings : Nat → Reading) :
    ∀ x ∈ s.owed, Handled (pollWtmp cfg s w readings) x := by
  obtain ⟨pos, hpos, -, hdue⟩ := h.resumes (h.began hw)
  have hat : s.at w = pos := by simpa [Resumes, hw] using hpos
  obtain ⟨w', read, hpoll, -, -, -, -, hplaces, hevents⟩ :=
    pollWtmp_spec cfg readings h.once.whole (h.once.agent w hw).1
  intro x hx
  rw [hpoll]
  rcases hdue x hx with ⟨evs, hmem, hne⟩ | ⟨hpath, hle⟩
  · exact ⟨evs, mem_append_left _ hmem, hne⟩
  · obtain ⟨hdvd, hlen, hsession⟩ := h.owed x hx hpath
    have hunread : Unread s.wtmp (s.at w) x.2 :=
      ⟨hdvd, hat ▸ hle, Nat.lt_of_lt_of_le (Nat.lt_add_of_pos_right utmpRecordSize_pos) hlen⟩
    obtain ⟨y, hy, hyx⟩ := mem_map.mp ((hplaces x.2).mpr hunread)
    obtain ⟨ips, r, hev⟩ := hevents y hy
    refine ⟨y.2, mem_append_right _ (mem_map.mpr ⟨y, hy, ?_⟩), ?_⟩
    · rw [hyx, ← hpath]
    · rw [hev, hyx]
      exact recordEvents_ne_nil cfg ips r hsession

section
variable (h : CaughtUp s)
include h

theorem CaughtUp.append {record : Bytes} (hr : isSession record = true) : CaughtUp { s with
    wtmp := s.wtmp ++ record
    owed := if s.began then s.owed ++ [(s.path, s.wtmp.length)] else s.owed } := by
  have hlen := length_of_isSession hr
  have hold : ∀ x ∈ s.owed, x.1 = s.path → utmpRecordSize ∣ x.2 ∧
      x.2 + utmpRecordSize ≤ (s.wtmp ++ record).length ∧
      isSession (readFull (s.wtmp ++ record) x.2) = true := by
    intro x hx hpath
    obtain ⟨hdvd, hle, hsession⟩ := h.owed x hx hpath
    refine ⟨hdvd, ?_, by rw [readFull_append hle]; exact hsession⟩
    rw [length_append]
    omega
  cases hb : s.began with
  | false => exact ⟨hb ▸ h.once.append hr, h.files, hold, fun _ => h.before hb, nofun⟩
  | true =>
    obtain ⟨pos, hpos, hle, hdue⟩ := h.resumes hb
    refine ⟨hb ▸ h.once.append hr, forall_mem_snoc.mpr ⟨h.files, Nat.le_refl _⟩,
      forall_mem_snoc.mpr ⟨hold, fun _ => ?_⟩, nofun,
      fun _ => ⟨pos, hpos, ?_, forall_mem_snoc.mpr ⟨hdue, .inr ⟨rfl, hle⟩⟩⟩⟩
    · rw [readFull_last hlen, length_append, hlen]
      exact ⟨h.once.whole, Nat.le_refl _, hr⟩
    · rw [length_append]
      omega

theorem CaughtUp.rotate (hg : careful s .rotate = true) :
    CaughtUp { s with rotated := s.rotated ++ [s.wtmp], wtmp := [] } := by
  have hfiles : ∀ x ∈ s.owed, x.1 < s.path + 1 := fun x hx => Nat.lt_succ_of_le (h.files x hx)
  refine ⟨h.once.rotate, fun x hx => path_rotate s ▸ Nat.le_of_lt (hfiles x hx), fun x hx heq => ?_,
    h.before, fun hb => ?_⟩
  · exact absurd (heq.trans (path_rotate s)) (Nat.ne_of_lt (hfiles x hx))
  · have hb : s.began = true := hb
    obtain ⟨pos, hpos, -, hdue⟩ := h.resumes hb
    cases hagent : s.agent with
    | none => simp [careful, hb, hagent] at hg
    | some w =>
      have hread : s.at w = s.wtmp.length := by simpa [careful, hb, hagent] using hg
      have hat : s.at w = pos := by simpa [Resumes, hagent] using hpos
      have hne : w.inode ≠ s.path + 1 :=
        Nat.ne_of_lt (Nat.lt_succ_of_le (h.once.agent w hagent).1.inode)
      refine ⟨0, ?_, Nat.zero_le _, fun x hx => ?_⟩
      · show WtmpState.at _ w = 0
        exact if_neg fun heq => hne (heq.trans (path_rotate s))
      · rcases hdue x hx with hdone | ⟨heq, hle⟩
        · exact .inl hdone
        · have hin := (h.owed x hx heq).2.1
          have hsize := utmpRecordSize_pos
          omega

theorem CaughtUp.start (hagent : s.agent = none) (ips : Map Bytes Bytes) :
    CaughtUp { s with agent := some (openWtmp s ips), began := true } := by
  obtain ⟨-, hinode, hopen⟩ := openWtmp_spec h.once ips
  have hat : s.at (openWtmp s ips) = (openWtmp s ips).pos := if_pos hinode
  refine ⟨h.once.start ips, h.files, h.owed, nofun, fun _ => ?_⟩
  cases hb : s.began with
  | false =>
    -- the first start: no cursor was saved, and nothing is owed yet
    obtain ⟨hnone, -, hcursor⟩ := h.before hb
    have hend : (openWtmp s ips).pos = s.wtmp.length := by
      rcases hopen with ⟨hend, -⟩ | ⟨hsaved, -⟩
      · exact hend
      · exact absurd (hcursor.symm.trans hsaved) nofun
    refine ⟨s.wtmp.length, hat.trans hend, Nat.le_refl _, fun x hx => ?_⟩
    rw [show s.owed = [] from hnone] at hx
    cases hx
  | true =>
    obtain ⟨pos, hpos, hle, hdue⟩ := h.resumes hb
    simp only [Resumes, hagent] at hpos
    have hend : (openWtmp s ips).pos = pos := by
      rcases hopen with ⟨-, hzero⟩ | ⟨hsaved, -⟩
      · simp [hpos.1, hpos.2] at hzero
      · exact Int.ofNat_inj.mp (some.inj (hsaved.symm.trans hpos.1))
    exact ⟨pos, hat.trans hend, hle, hdue⟩

section
variable (hw : s.agent = some w)
include hw

theorem CaughtUp.poll (readings : Nat → Reading) : CaughtUp (pollWtmp cfg s w readings) := by
  have honce : Once (pollWtmp cfg s w readings) := h.once.poll hw readings
  have hall : ∀ x ∈ s.owed, Handled (pollWtmp cfg s w readings) x := h.handled hw readings
  obtain ⟨pos, hpos, hle, -⟩ := h.resumes (h.began hw)
  have hat : s.at w = pos := by simpa [Resumes, hw] using hpos
  obtain ⟨w', read, hpoll, hinode, hend, -⟩ :=
    pollWtmp_spec cfg readings h.once.whole (h.once.agent w hw).1
  rw [hpoll] at honce hall ⊢
  refine ⟨honce, h.files, h.owed, fun hb => ?_, fun _ => ?_⟩
  · exact absurd ((h.began hw).symm.trans hb) nofun
  · refine ⟨s.wtmp.length, ?_, Nat.le_refl _, fun x hx => .inl (hall x hx)⟩
    have hread : s.at w' = w'.pos := if_pos hinode
    exact hread.trans (hend.trans (max_eq_right (hat ▸ hle)))

theorem CaughtUp.stop (honce : Once { s with agent := none }) (hg : careful s .stop = true) :
    CaughtUp { s with agent := none } := by
  simp only [careful, hw, any_some, Bool.and_eq_true, decide_eq_true_eq] at hg
  obtain ⟨⟨hpath, hsaved⟩, hne⟩ := hg
  have hb := h.began hw
  refine ⟨honce, h.files, h.owed, fun hf => absurd (hb.symm.trans hf) nofun, fun _ => ?_⟩
  obtain ⟨pos, hpos, hle, hdue⟩ := h.resumes hb
  have hat : w.pos = pos := by
    simpa [Resumes, hw, WtmpState.at, hpath] using hpos
  have hcursor := (h.once.agent w hw).1.cursor
  refine ⟨pos, ⟨?_, ?_⟩, hle, hdue⟩
  · exact hsaved.trans (by rw [hcursor, hat])
  · rw [hcursor, hat] at hne
    exact Int.natCast_ne_zero.mp hne

end

theorem CaughtUp.step {a : WtmpLabel} (hg : careful s a = true) (hs : stepWtmp cfg s a = some s') :
    CaughtUp s' := by
  have honce := h.once.step hs
  cases a with
  | append =>
    obtain ⟨hr, rfl⟩ := stepWtmp_append hs
    exact h.append hr
  | rotate => cases hs; exact h.rotate hg
  | start ips =>
    obtain ⟨hagent, rfl⟩ := stepWtmp_start hs
    exact h.start hagent ips
  | poll readings =>
    obtain ⟨w, hw, rfl⟩ := map_eq_some_iff.mp hs
    exact h.poll hw readings
  | stop =>
    obtain ⟨w, hw, rfl⟩ := stepWtmp_stop hs
    exact h.stop hw honce hg

end

/-- For every history of whole records in `wtmp`, rotations, stops and starts. No record is
turned into events twice. If the agent is stopped, and the file rotated, only with care,
then every poll leaves every record turned into events that was appended since the end
of the first start. -/
theorem wtmp_replay (cfg : WtmpConfig) (data : Bytes) (hdata : utmpRecordSize ∣ data.length) :
    (∀ as s, run (stepWtmp cfg) { wtmp := data } as = some s → (s.out.map Prod.fst).Nodup) ∧
    ∀ as s, run (guarded careful (stepWtmp cfg)) { wtmp := data } as = some s →
      ∀ readings s', stepWtmp cfg s (.poll readings) = some s' → ∀ x ∈ s'.owed, Handled s' x := by
  refine ⟨fun as s h => ?_, fun as s h readings s' hs => ?_⟩
  · exact (run_inv (I := Once) (fun _ _ _ ho hstep => ho.step hstep) as _ s (once_init hdata) h).nodup
  · have hcaught : CaughtUp s :=
      run_guarded_inv (fun _ _ _ ht => ht.step) as _ s (caughtUp_init hdata) h
    obtain ⟨w, hw, rfl⟩ := map_eq_some_iff.mp hs
    exact hcaught.handled hw readings

def wtmpConfig : WtmpConfig where
  bruteforceThreshold := 5
  bruteforceWindow := 30 * second
  bruteforceSuppression := 2 * minute
  host := ⟨[], []⟩
  agent := ⟨[], []⟩
  ignorePrivateIP := false
  isPrivateIP := fun _ => false

/-- The end of a session on `pts/0`. -/
def logoutRecord : Bytes :=
  [8, 0, 0, 0, 0, 0, 0, 0] ++ toBytes "pts/0".toList ++ List.replicate 371 0

def noReadings (_ : Nat) : Reading := ⟨0, 0, [], []⟩

set_option maxRecDepth 8000 in
/-- The agent runs and has polled an empty file, so that its cursor is 0. A record that is
appended while it is down is never turned into events. -/
theorem appended_while_down_lost : ∃ s,
    run (stepWtmp wtmpConfig) { wtmp := [] } [.start ∅, .poll noReadings, .stop,
      .append logoutRecord, .start ∅, .poll noReadings] = some s ∧
    s.owed = [(0, 0)] ∧ s.out = [] :=
  ⟨_, rfl, rfl, rfl⟩

def appendsWhileDown : List WtmpLabel :=
  [.start ∅, .append logoutRecord, .poll noReadings, .stop, .append logoutRecord, .start ∅]

set_option maxRecDepth 8000 in
/-- A record appended while the agent is down is turned into events after its start. -/
theorem appended_while_down_handled : ∃ s s',
    run (guarded careful (stepWtmp wtmpConfig)) { wtmp := [] } appendsWhileDown = some s ∧
    stepWtmp wtmpConfig s (.poll noReadings) = some s' ∧ s'.owed = [(0, 0), (0, 384)] ∧
    Handled s' (0, 384) := by
  refine ⟨_, _, rfl, rfl, rfl, ?_⟩
  exact (wtmp_replay wtmpConfig [] (Nat.dvd_zero _)).2 appendsWhileDown _ rfl noReadings _ rfl (0, 384)
    (.tail _ (.head _))

end YominsAgent.Events
