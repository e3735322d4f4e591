import YominsAgent.Events.Process

/- The life of a process as the polls report it.

   A process is its PID and its start time. After every poll that could list the processes, those
   tracked are those listed. A poll reports the start of each process it lists that the last one
   before it did not, and the stop of each process the last one listed that it does not, unless that
   process has been there since the baseline (`lifecycle`). -/
namespace YominsAgent.Events
open Go List Option

variable {cfg : ProcessConfig} {p : ProcessPoll} {procs : Procs} {list : List Sample}
  {present base : List Instance} {x : Instance} {pid : Int} {t : Nat} {s : ProcessSnapshot}
  {ns : List Notice} {α β : Type} {q : Sample} {procs₁ : Procs}

def instances (list : List Sample) : List Instance := list.map Sample.inst

def UniquePIDs (list : List Sample) : Prop := (list.map (·.pid)).Nodup

def Notice.isStart (x : Instance) : Notice → Bool
  | .start s => s.inst = x
  | _ => false

def Notice.isStop (x : Instance) : Notice → Bool
  | .stop s => s.inst = x
  | _ => false

/-- How often the start, and the stop, of the process is reported. -/
def starts (x : Instance) (ns : List Notice) : Nat := ns.countP (Notice.isStart x)
def stops (x : Instance) (ns : List Notice) : Nat := ns.countP (Notice.isStop x)

/-- What the tracked processes say: which ones were present at the last poll, and which
of them since the baseline. -/
structure Knows (procs : Procs) (present base : List Instance) : Prop where
  keyed : ∀ pid s, procs.lookup pid = some s → s.pid = pid
  tracked : ∀ x : Instance, (∃ s, procs.lookup x.1 = some s ∧ s.start = x.2) ↔ x ∈ present
  old : ∀ pid s, procs.lookup pid = some s → (s.isNew = false ↔ (pid, s.start) ∈ base)
  sub : ∀ x ∈ base, x ∈ present

/-! ## Lists -/

theorem inst_mem (h : UniquePIDs list) :
    ((list.find? fun q => q.pid = pid).any fun q => q.start == t) = true ↔
      (pid, t) ∈ instances list := by
  induction list with
  | nil => simp [instances]
  | cons q list ih =>
    unfold UniquePIDs at h
    rw [map_cons, nodup_cons] at h
    have ih := ih h.2
    simp only [instances, map_cons, mem_cons, Sample.inst, Prod.mk.injEq] at ih ⊢
    rw [find?_cons]
    by_cases hpid : q.pid = pid
    · subst hpid
      have hnot : (q.pid, t) ∉ list.map Sample.inst := by
        intro hmem
        obtain ⟨r, hr, he⟩ := mem_map.mp hmem
        exact h.1 (mem_map.mpr ⟨r, hr, congrArg Prod.fst he⟩)
      simp only [decide_true, any_some, beq_iff_eq, true_and, hnot, or_false]
      exact eq_comm
    · simp only [hpid, decide_false, Ne.symm hpid, false_and, false_or]
      exact ih

theorem alive_iff (h : UniquePIDs list) :
    (((samplesByPID list).lookup pid).any fun q => q.start == t) = true ↔
      (pid, t) ∈ instances list := by
  rw [← inst_mem h, samplesByPID, lookup_foldl_insert _ _ _ h]
  cases list.find? fun q => q.pid = pid <;> simp

/-! ## The first loop -/

def exitNotices (cfg : ProcessConfig) (list : List Sample) (procs : Procs) (pid : Int) :
    List Notice :=
  match procs.lookup pid with
  | none => []
  | some s =>
    if (pid, s.start) ∈ instances list then []
    else if s.isNew && cfg.monitorLifecycle then [.stop s] else []

theorem exitStep_spec (cfg : ProcessConfig) (h : UniquePIDs list) (procs : Procs) (evs : List Notice) (pid : Int) :
    ∃ procs', exitStep cfg (samplesByPID list) (procs, evs) pid =
        (procs', evs ++ exitNotices cfg list procs pid) ∧
      (∀ q, q ≠ pid → procs'.lookup q = procs.lookup q) ∧
      procs'.lookup pid = (procs.lookup pid).filter fun s => (pid, s.start) ∈ instances list := by
  unfold exitStep exitNotices
  cases hs : procs.lookup pid with
  | none => exact ⟨procs, by simp [hs], fun _ _ => rfl, by simp [hs]⟩
  | some s =>
    simp only [alive_iff h]
    by_cases halive : (pid, s.start) ∈ instances list
    · exact ⟨procs, by simp [hs, halive], fun _ _ => rfl, by simp [hs, halive, filter_some]⟩
    · refine ⟨procs.erase pid, by simp [hs, halive], fun q hq => Finmap.lookup_erase_ne hq, ?_⟩
      simp [halive, filter_some]

theorem exitLoop_spec (cfg : ProcessConfig) (h : UniquePIDs list) (ks : List Int) (hks : ks.Nodup) (procs : Procs)
    (evs : List Notice) :
    ∃ procs', ks.foldl (exitStep cfg (samplesByPID list)) (procs, evs) =
        (procs', evs ++ ks.flatMap (exitNotices cfg list procs)) ∧
      ∀ q, procs'.lookup q = if q ∈ ks then
        (procs.lookup q).filter fun s => (q, s.start) ∈ instances list else procs.lookup q := by
  induction ks generalizing procs evs with
  | nil => exact ⟨procs, by simp, fun q => by simp⟩
  | cons pid ks ih =>
    rw [nodup_cons] at hks
    obtain ⟨procs₁, hstep, hother, hself⟩ := exitStep_spec cfg h procs evs pid
    obtain ⟨procs2, hloop, hlookup⟩ := ih hks.2 procs₁ (evs ++ exitNotices cfg list procs pid)
    -- the other PIDs are as the loop found them
    have hsame : ks.flatMap (exitNotices cfg list procs₁) = ks.flatMap (exitNotices cfg list procs) := by
      refine flatMap_congr fun q hq => ?_
      unfold exitNotices
      rw [hother q fun he => hks.1 (he ▸ hq)]
    refine ⟨procs2, ?_, fun q => ?_⟩
    · rw [foldl_cons, hstep, hloop, hsame, flatMap_cons, append_assoc]
    · rw [hlookup q]
      by_cases hq : q = pid
      · subst hq
        rw [if_neg hks.1, if_pos mem_cons_self, hself]
      · simp [hother q hq, hq]

/-! ## The second loop -/

/-- What is tracked of a process after the loop, and what the loop says of it. -/
def sampled (cfg : ProcessConfig) (p : ProcessPoll) (procs : Procs) (q : Sample) : ProcessSnapshot :=
  match procs.lookup q.pid with
  | none => snapshotProcess p.details q true p.mono
  | some s => (survivingProcess cfg p q s).1

def sampleNotices (cfg : ProcessConfig) (p : ProcessPoll) (procs : Procs) (q : Sample) :
    List Notice :=
  match procs.lookup q.pid with
  | none => newProcessEvents cfg (snapshotProcess p.details q true p.mono)
  | some s => (survivingProcess cfg p q s).2

theorem sampleStep_eq (procs : Procs) (evs : List Notice) (q : Sample) :
    sampleStep cfg p (procs, evs) q =
      (procs.insert q.pid (sampled cfg p procs q), evs ++ sampleNotices cfg p procs q) := by
  simp only [sampleStep, sampled, sampleNotices]
  cases procs.lookup q.pid <;> rfl

theorem sampleLoop_spec (cfg : ProcessConfig) (p : ProcessPoll) (h : UniquePIDs list) (procs : Procs) (evs : List Notice) :
    ∃ procs', list.foldl (sampleStep cfg p) (procs, evs) =
        (procs', evs ++ list.flatMap (sampleNotices cfg p procs)) ∧
      ∀ pid, procs'.lookup pid =
        ((list.find? fun q => q.pid = pid).map (sampled cfg p procs)).or (procs.lookup pid) := by
  suffices hloop : ∀ m : Procs, (∀ q ∈ list, m.lookup q.pid = procs.lookup q.pid) →
      ∀ evs, list.foldl (sampleStep cfg p) (m, evs) =
        (list.foldl (fun m q => m.insert q.pid (sampled cfg p procs q)) m,
          evs ++ list.flatMap (sampleNotices cfg p procs)) from
    ⟨_, hloop procs (fun _ _ => rfl) evs, fun pid => lookup_foldl_insert _ _ _ h procs pid⟩
  induction list with
  | nil => exact fun m _ evs => by simp
  | cons q list ih =>
    intro m hm evs
    unfold UniquePIDs at h
    rw [map_cons, nodup_cons] at h
    have hq : sampled cfg p m q = sampled cfg p procs q ∧
        sampleNotices cfg p m q = sampleNotices cfg p procs q := by
      simp only [sampled, sampleNotices, hm q mem_cons_self, and_self]
    rw [foldl_cons, sampleStep_eq, hq.1, hq.2, ih h.2, foldl_cons, flatMap_cons, append_assoc]
    -- a PID further on in the list is not the one inserted
    intro r hr
    have hne : r.pid ≠ q.pid := fun he => h.1 (mem_map.mpr ⟨r, hr, he⟩)
    rw [Finmap.lookup_insert_of_ne _ hne, hm r (mem_cons_of_mem q hr)]

/-- The two are about the same process. -/
def ProcessSnapshot.Same (s s' : ProcessSnapshot) : Prop :=
  s'.pid = s.pid ∧ s'.start = s.start ∧ s'.isNew = s.isNew

theorem ProcessSnapshot.Same.trans {t u : ProcessSnapshot} (h : s.Same t) (h' : t.Same u) :
    s.Same u :=
  ⟨h'.1.trans h.1, h'.2.1.trans h.2.1, h'.2.2.trans h.2.2⟩

/-- Neither the start nor the stop of a process. -/
def Notice.isAlert : Notice → Prop
  | .start _ => False
  | .stop _ => False
  | _ => True

theorem alertCPU_spec (cfg : ProcessConfig) (now : Int) (cpu avg : Float) (s : ProcessSnapshot) :
    s.Same (alertCPU cfg now cpu avg s).1 ∧ ∀ n ∈ (alertCPU cfg now cpu avg s).2, n.isAlert := by
  unfold alertCPU
  split <;> exact ⟨⟨rfl, rfl, rfl⟩, by simp [Notice.isAlert]⟩

theorem alertMem_spec (cfg : ProcessConfig) (now : Int) (mem avg : Float32) (s : ProcessSnapshot) :
    s.Same (alertMem cfg now mem avg s).1 ∧ ∀ n ∈ (alertMem cfg now mem avg s).2, n.isAlert := by
  unfold alertMem
  split <;> exact ⟨⟨rfl, rfl, rfl⟩, by simp [Notice.isAlert]⟩

/-- A process that survives stays the one it was, and neither starts nor stops. -/
theorem survivingProcess_spec (cfg : ProcessConfig) (p : ProcessPoll) (q : Sample) (s : ProcessSnapshot) :
    s.Same (survivingProcess cfg p q s).1 ∧ ∀ n ∈ (survivingProcess cfg p q s).2, n.isAlert := by
  simp only [survivingProcess]
  have hpush : s.Same ({ s with cpuTicks := q.cpu, sampledAt := p.mono }.pushMetrics
      (cpuPercent p q s) (memPercent p q)) := ⟨rfl, rfl, rfl⟩
  split
  · exact ⟨hpush, fun n hn => absurd hn not_mem_nil⟩
  · obtain ⟨hcpu, hcpuEvs⟩ := alertCPU_spec cfg p.now (cpuPercent p q s) _ _
    obtain ⟨hmem, hmemEvs⟩ := alertMem_spec cfg p.now (memPercent p q) _ _
    refine ⟨hpush.trans (hcpu.trans hmem), fun n hn => ?_⟩
    rcases mem_append.mp hn with hn | hn
    · exact hcpuEvs n hn
    · exact hmemEvs n hn

/-! ## One poll -/

theorem starts_alerts (h : ∀ n ∈ ns, n.isAlert) : starts x ns = 0 := by
  refine countP_eq_zero.mpr fun n hn => ?_
  cases n with
  | start => exact absurd (h _ hn) id
  | _ => exact nofun

theorem stops_alerts (h : ∀ n ∈ ns, n.isAlert) : stops x ns = 0 := by
  refine countP_eq_zero.mpr fun n hn => ?_
  cases n with
  | stop => exact absurd (h _ hn) id
  | _ => exact nofun

theorem newProcessEvents_spec (hcfg : cfg.monitorLifecycle = true) (s : ProcessSnapshot) :
    starts x (newProcessEvents cfg s) = (if s.inst = x then 1 else 0) ∧
      stops x (newProcessEvents cfg s) = 0 := by
  have halerts : ∀ n ∈ (if cfg.monitorTmpPaths && isExecFromTmp s.exe then [Notice.execTmp s] else [])
      ++ (if isReverseShell cfg s.cmdline then [Notice.reverseShell s]
        else if isSuspicious cfg s.cmdline then [Notice.suspicious s] else []), n.isAlert := by
    intro n hn
    rcases mem_append.mp hn with hn | hn
    · split at hn
      · exact mem_singleton.mp hn ▸ trivial
      · cases hn
    · split at hn
      · exact mem_singleton.mp hn ▸ trivial
      · split at hn
        · exact mem_singleton.mp hn ▸ trivial
        · cases hn
  have hstarts := starts_alerts (x := x) halerts
  have hstops := stops_alerts (x := x) halerts
  unfold newProcessEvents
  rw [if_pos hcfg, append_assoc]
  refine ⟨?_, ?_⟩
  · rw [starts, countP_append, countP_singleton, ← starts, hstarts]
    simp [Notice.isStart]
  · rw [stops, countP_append, countP_singleton, ← stops, hstops]
    simp [Notice.isStop]

theorem countP_flatMap_eq_zero {l : List α} {f : α → List β} {P : β → Bool}
    (h : ∀ b ∈ l, (f b).countP P = 0) : (l.flatMap f).countP P = 0 := by
  refine countP_eq_zero.mpr fun b hb => ?_
  obtain ⟨a, ha, hb⟩ := mem_flatMap.mp hb
  exact countP_eq_zero.mp (h a ha) b hb

/-- At most one part of the list has something to count, and one thing. -/
theorem countP_flatMap_one {l : List α} {f : α → List β} {P : β → Bool} {g : α → Prop}
    [DecidablePred g] (hl : l.Nodup) (hone : ∀ a ∈ l, ∀ b ∈ l, g a → g b → a = b)
    (hf : ∀ a ∈ l, (f a).countP P = if g a then 1 else 0) :
    (l.flatMap f).countP P = if ∃ a ∈ l, g a then 1 else 0 := by
  induction l with
  | nil => simp
  | cons a l ih =>
    rw [nodup_cons] at hl
    rw [forall_mem_cons] at hf
    have hrest := ih hl.2 (fun b hb d hd => hone b (mem_cons_of_mem a hb) d (mem_cons_of_mem a hd)) hf.2
    rw [flatMap_cons, countP_append, hf.1, hrest]
    by_cases ha : g a
    · have hnone : ¬ ∃ b ∈ l, g b := by
        rintro ⟨b, hb, hgb⟩
        exact hl.1 (hone a mem_cons_self b (mem_cons_of_mem a hb) ha hgb ▸ hb)
      simp [ha, hnone]
    · simp [ha]

theorem eq_of_inst_mem (h : UniquePIDs list) (hq : q ∈ list) (ht : (q.pid, t) ∈ instances list) :
    t = q.start := by
  obtain ⟨r, hr, he⟩ := mem_map.mp ht
  have hpid : r.pid = q.pid := congrArg Prod.fst he
  have hrq : r = q := inj_on_of_nodup_map h hr hq hpid
  subst hrq
  exact (congrArg Prod.snd he).symm

/-- What the first loop leaves. -/
structure Survive (procs procs₁ : Procs) (list : List Sample) : Prop where
  lookup : ∀ pid, procs₁.lookup pid =
    (procs.lookup pid).filter fun s => (pid, s.start) ∈ instances list

theorem Survive.some_iff (h : Survive procs procs₁ list) :
    procs₁.lookup pid = some s ↔ procs.lookup pid = some s ∧ (pid, s.start) ∈ instances list := by
  rw [h.lookup, filter_eq_some_iff, decide_eq_true_eq]

/-- A table of the processes of the list, each under its PID. -/
theorem knows_of_list {f : Sample → ProcessSnapshot} (hl : UniquePIDs list)
    (hlookup : ∀ pid, procs.lookup pid = (list.find? fun q => q.pid = pid).map f)
    (hinst : ∀ q ∈ list, (f q).inst = q.inst)
    (hnew : ∀ q ∈ list, ((f q).isNew = false ↔ q.inst ∈ base))
    (hsub : ∀ x ∈ base, x ∈ instances list) : Knows procs (instances list) base := by
  have hfound : ∀ pid s, procs.lookup pid = some s → ∃ q ∈ list, q.pid = pid ∧ f q = s := by
    intro pid s hs
    rw [hlookup] at hs
    obtain ⟨q, hq, rfl⟩ := map_eq_some_iff.mp hs
    exact ⟨q, mem_of_find?_eq_some hq, by simpa using find?_some hq, rfl⟩
  refine ⟨?_, fun x => ⟨?_, ?_⟩, ?_, hsub⟩
  · intro pid s hs
    obtain ⟨q, hq, rfl, rfl⟩ := hfound pid s hs
    exact congrArg Prod.fst (hinst q hq)
  · rintro ⟨s, hs, hstart⟩
    obtain ⟨q, hq, hpid, rfl⟩ := hfound _ s hs
    exact mem_map.mpr ⟨q, hq, Prod.ext hpid ((congrArg Prod.snd (hinst q hq)).symm.trans hstart)⟩
  · intro hx
    obtain ⟨q, hq, rfl⟩ := mem_map.mp hx
    refine ⟨f q, ?_, congrArg Prod.snd (hinst q hq)⟩
    rw [Sample.inst, hlookup]
    cases hfind : list.find? fun r => r.pid = q.pid with
    | none => exact absurd (decide_eq_true rfl) (find?_eq_none.mp hfind q hq)
    | some r =>
      have hrq : r = q := inj_on_of_nodup_map hl (mem_of_find?_eq_some hfind) hq
        (by simpa using find?_some hfind)
      rw [hrq]
      rfl
  · intro pid s hs
    obtain ⟨q, hq, rfl, rfl⟩ := hfound pid s hs
    have hstart : (f q).start = q.start := congrArg Prod.snd (hinst q hq)
    rw [hstart]
    exact hnew q hq

section
variable (h : Survive procs procs₁ list) (hk : Knows procs present base) (hl : UniquePIDs list)
include h hk hl

/-- A listed process is new to the second loop if it was not there before. -/
theorem Survive.new_iff (hq : q ∈ list) : procs₁.lookup q.pid = none ↔ q.inst ∉ present := by
  rw [← hk.tracked q.inst, eq_none_iff_forall_not_mem]
  constructor
  · rintro hnone ⟨s, hs, hstart⟩
    refine hnone s (h.some_iff.mpr ⟨hs, ?_⟩)
    rw [hstart]
    exact mem_map_of_mem hq
  · intro hnot s hs
    obtain ⟨hs, hinst⟩ := h.some_iff.mp hs
    exact hnot ⟨s, hs, eq_of_inst_mem hl hq hinst⟩

theorem Survive.sampled (cfg : ProcessConfig) (p : ProcessPoll) (hq : q ∈ list) :
    (sampled cfg p procs₁ q).inst = q.inst ∧
      ((sampled cfg p procs₁ q).isNew = false ↔ q.inst ∈ base) := by
  unfold Events.sampled
  cases hs : procs₁.lookup q.pid with
  | none =>
    refine ⟨rfl, nofun, fun hbase => ?_⟩
    exact absurd (hk.sub _ hbase) ((h.new_iff hk hl hq).mp hs)
  | some s =>
    obtain ⟨hlookup, hinst⟩ := h.some_iff.mp hs
    obtain ⟨hpid, hstart, hnew⟩ := (survivingProcess_spec cfg p q s).1
    have ht : s.start = q.start := eq_of_inst_mem hl hq hinst
    have hname : s.pid = q.pid := hk.keyed _ _ hlookup
    refine ⟨?_, ?_⟩
    · rw [ProcessSnapshot.inst, hpid, hstart, hname, ht]
      rfl
    · have hold := hk.old _ _ hlookup
      rw [ht] at hold
      exact hnew ▸ hold

theorem Survive.starts (hcfg : cfg.monitorLifecycle = true) :
    starts x (list.flatMap (sampleNotices cfg p procs₁)) =
      if x ∈ instances list ∧ x ∉ present then 1 else 0 := by
  -- one sample starts at most the process it is about
  have hsample : ∀ q ∈ list, Events.starts x (sampleNotices cfg p procs₁ q) =
      if q.inst = x ∧ x ∉ present then 1 else 0 := by
    intro q hq
    have hnew := h.new_iff hk hl hq
    unfold sampleNotices
    cases hs : procs₁.lookup q.pid with
    | none =>
      have hinst : (snapshotProcess p.details q true p.mono).inst = q.inst := rfl
      simp only [(newProcessEvents_spec hcfg _).1, hinst]
      refine if_congr ?_ rfl rfl
      constructor
      · rintro rfl
        exact ⟨rfl, hnew.mp hs⟩
      · exact fun hboth => hboth.1
    | some s =>
      simp only [starts_alerts (survivingProcess_spec cfg p q s).2]
      rw [if_neg]
      rintro ⟨rfl, hnot⟩
      rw [hnew.mpr hnot] at hs
      cases hs
  have hone : ∀ q ∈ list, ∀ r ∈ list, q.inst = x ∧ x ∉ present → r.inst = x ∧ x ∉ present → q = r :=
    fun q hq r hr h1 h2 => inj_on_of_nodup_map hl hq hr (congrArg Prod.fst (h1.1.trans h2.1.symm))
  refine (countP_flatMap_one (List.Nodup.of_map _ hl) hone hsample).trans (if_congr ?_ rfl rfl)
  simp only [instances, List.mem_map, ← exists_and_right, and_assoc]

/-- What is tracked after the second loop is what is listed. -/
theorem Survive.knows {procs2 : Procs} (hlookup2 : ∀ pid, procs2.lookup pid =
      ((list.find? fun q => q.pid = pid).map (Events.sampled cfg p procs₁)).or (procs₁.lookup pid)) :
    Knows procs2 (instances list) (base.filter (· ∈ instances list)) := by
  have hsampled := fun q hq => h.sampled hk hl cfg p (q := q) hq
  refine knows_of_list hl (fun pid => ?_) (fun q hq => (hsampled q hq).1) (fun q hq => ?_)
    fun x hx => of_decide_eq_true (mem_filter.mp hx).2
  · rw [hlookup2]
    cases hfind : list.find? fun q => q.pid = pid with
    | some => rfl
    | none =>
      -- what the first loop leaves is listed
      refine eq_none_iff_forall_not_mem.mpr fun s hs => ?_
      obtain ⟨q, hq, he⟩ := mem_map.mp (h.some_iff.mp hs).2
      exact find?_eq_none.mp hfind q hq (decide_eq_true (congrArg Prod.fst he))
  · rw [(hsampled q hq).2, mem_filter, decide_eq_true_eq]
    exact (and_iff_left (mem_map_of_mem hq)).symm

end

theorem sampleNotices_stops (hcfg : cfg.monitorLifecycle = true) :
    stops x (list.flatMap (sampleNotices cfg p procs₁)) = 0 := by
  refine countP_flatMap_eq_zero fun q _ => ?_
  unfold sampleNotices
  cases procs₁.lookup q.pid with
  | none => exact (newProcessEvents_spec hcfg _).2
  | some s => exact stops_alerts (survivingProcess_spec cfg p q s).2

theorem exitNotices_starts (procs : Procs) (pid : Int) :
    starts x (exitNotices cfg list procs pid) = 0 := by
  unfold exitNotices
  cases procs.lookup pid with
  | none => rfl
  | some =>
    simp only
    split
    · rfl
    · split <;> rfl

theorem Knows.exitNotices_stops (hk : Knows procs present base) (hcfg : cfg.monitorLifecycle = true) :
    stops x (exitNotices cfg list procs pid) =
      if pid = x.1 ∧ x ∈ present ∧ x ∉ instances list ∧ x ∉ base then 1 else 0 := by
  unfold exitNotices
  cases hs : procs.lookup pid with
  | none =>
    rw [if_neg]
    · rfl
    · rintro ⟨rfl, hpresent, -⟩
      obtain ⟨s, hlookup, -⟩ := (hk.tracked x).mpr hpresent
      rw [hs] at hlookup
      cases hlookup
  | some s =>
    have hkey : s.pid = pid := hk.keyed _ _ hs
    have hold := hk.old _ _ hs
    -- the notice, if any, is about the process of the snapshot
    have hcount : ∀ ns, ns = (if (pid, s.start) ∈ instances list then []
        else if s.isNew && cfg.monitorLifecycle then [Notice.stop s] else []) →
        Events.stops x ns =
          if s.inst = x ∧ (pid, s.start) ∉ instances list ∧ s.isNew = true then 1 else 0 := by
      rintro ns rfl
      by_cases hmem : (pid, s.start) ∈ instances list
      · simp [hmem, Events.stops]
      · by_cases hnew : s.isNew = true
        · by_cases hinst : s.inst = x <;> simp [hmem, hnew, hcfg, hinst, Events.stops, Notice.isStop]
        · simp [hmem, hnew, Events.stops]
    rw [hcount _ rfl]
    refine if_congr ?_ rfl rfl
    constructor
    · rintro ⟨rfl, hnot, hnew⟩
      rw [ProcessSnapshot.inst, hkey]
      refine ⟨rfl, (hk.tracked (pid, s.start)).mp ⟨s, hs, rfl⟩, hnot, fun hbase => ?_⟩
      rw [hold.mpr hbase] at hnew
      cases hnew
    · rintro ⟨rfl, hpresent, hnot, hbase⟩
      obtain ⟨s', hlookup, hstart⟩ := (hk.tracked x).mpr hpresent
      cases hs.symm.trans hlookup
      have hinst : (x.1, s.start) = x := by rw [hstart]
      rw [hinst] at hold ⊢
      refine ⟨?_, hnot, ?_⟩
      · rw [ProcessSnapshot.inst, hkey, hinst]
      · cases hnew : s.isNew with
        | true => rfl
        | false => exact absurd (hold.mp hnew) hbase

theorem Knows.exits_stops (hk : Knows procs present base) (hcfg : cfg.monitorLifecycle = true)
    (r : Range Int ProcessSnapshot) :
    stops x ((r.order procs).flatMap (exitNotices cfg list procs)) =
      if x ∈ present ∧ x ∉ instances list ∧ x ∉ base then 1 else 0 := by
  refine (countP_flatMap_one (r.nodup procs) (fun a _ b _ ha hb => ha.1.trans hb.1.symm)
    fun pid _ => hk.exitNotices_stops hcfg).trans (if_congr ⟨?_, fun h => ?_⟩ rfl rfl)
  · rintro ⟨pid, -, -, h⟩
    exact h
  · -- the PID of a process that was present is tracked
    obtain ⟨s, hs, -⟩ := (hk.tracked x).mpr h.1
    exact ⟨x.1, (r.mem_order procs x.1).mpr (Finmap.mem_of_lookup_eq_some hs), rfl, h⟩

/-- The two loops of a poll. -/
theorem poll_spec (cfg : ProcessConfig) (procs : Procs) (hl : UniquePIDs list)
    (hp : p.list = some list) :
    ∃ procs₁ procs2, Survive procs procs₁ list ∧
      poll cfg procs p = (procs2, (p.exits.order procs).flatMap (exitNotices cfg list procs) ++
        list.flatMap (sampleNotices cfg p procs₁)) ∧
      ∀ pid, procs2.lookup pid =
        ((list.find? fun q => q.pid = pid).map (sampled cfg p procs₁)).or (procs₁.lookup pid) := by
  obtain ⟨procs₁, hexits, hlookup1⟩ :=
    exitLoop_spec cfg hl (p.exits.order procs) (p.exits.nodup procs) procs []
  rw [nil_append] at hexits
  obtain ⟨procs2, hsamples, hlookup2⟩ := sampleLoop_spec cfg p hl procs₁
    ((p.exits.order procs).flatMap (exitNotices cfg list procs))
  refine ⟨procs₁, procs2, ⟨fun pid => ?_⟩, by simp only [poll, hp, hexits, hsamples], hlookup2⟩
  rw [hlookup1]
  split
  · rfl
  · next hout =>
    have hnone : procs.lookup pid = none :=
      Finmap.lookup_eq_none.mpr fun hmem => hout ((p.exits.mem_order procs pid).mpr hmem)
    rw [hnone]
    rfl

theorem Knows.track (cfg : ProcessConfig) (hk : Knows procs present base) (hl : UniquePIDs list)
    (hp : p.list = some list) :
    Knows (poll cfg procs p).1 (instances list) (base.filter (· ∈ instances list)) := by
  obtain ⟨procs₁, procs2, hsurvive, hpoll, hlookup2⟩ := poll_spec cfg procs hl hp
  rw [hpoll]
  exact hsurvive.knows hk hl hlookup2

/-- What one poll reports. -/
theorem Knows.poll (hk : Knows procs present base) (hcfg : cfg.monitorLifecycle = true)
    (hl : UniquePIDs list) (hp : p.list = some list) (x : Instance) :
    starts x (poll cfg procs p).2 = (if x ∈ instances list ∧ x ∉ present then 1 else 0) ∧
    stops x (poll cfg procs p).2 =
      if x ∈ present ∧ x ∉ instances list ∧ x ∉ base then 1 else 0 := by
  obtain ⟨procs₁, procs2, hsurvive, hpoll, -⟩ := poll_spec cfg procs hl hp
  rw [hpoll]
  refine ⟨?_, ?_⟩
  · have hexit : starts x ((p.exits.order procs).flatMap (exitNotices cfg list procs)) = 0 :=
      countP_flatMap_eq_zero fun pid _ => exitNotices_starts procs pid
    rw [starts, countP_append, ← starts, ← starts, hexit, hsurvive.starts hk hl hcfg, Nat.zero_add]
  · rw [stops, countP_append, ← stops, ← stops, sampleNotices_stops hcfg, Nat.add_zero,
      hk.exits_stops hcfg]

/-! ## Runs -/

/-- The tracked processes after the polls. -/
def procsAfter (cfg : ProcessConfig) (procs : Procs) (polls : List ProcessPoll) : Procs :=
  polls.foldl (fun procs q => (poll cfg procs q).1) procs

def noticesOf (cfg : ProcessConfig) (procs : Procs) : List ProcessPoll → List Notice
  | [] => []
  | q :: polls => (poll cfg procs q).2 ++ noticesOf cfg (poll cfg procs q).1 polls

/-- The processes of the last poll that could list them. -/
def presentAfter (present : List Instance) (polls : List ProcessPoll) : List Instance :=
  polls.foldl (fun present q => (q.list.map instances).getD present) present

/-- The processes of the baseline that every poll since has listed. -/
def baseAfter (base : List Instance) (polls : List ProcessPoll) : List Instance :=
  polls.foldl (fun base q => base.filter fun x => q.list.all fun list => x ∈ instances list) base

/-- Whether a stop of the process is still to come: it is there, but not since the baseline. -/
def running (x : Instance) (present base : List Instance) : Nat :=
  if x ∈ present ∧ x ∉ base then 1 else 0

def ListsOnce (polls : List ProcessPoll) : Prop :=
  ∀ q ∈ polls, ∀ list, q.list = some list → UniquePIDs list

theorem poll_of_none (cfg : ProcessConfig) (procs : Procs) (hp : p.list = none) :
    poll cfg procs p = (procs, []) := by
  simp [poll, hp]

theorem knows_baseline (details : Int → Str × Str) (now : Int) {first : Option (List Sample)}
    (hl : UniquePIDs (first.getD [])) :
    Knows (buildBaseline details now first) (instances (first.getD []))
      (instances (first.getD [])) := by
  refine knows_of_list (f := fun q => snapshotProcess details q false now) hl (fun pid => ?_)
    (fun _ _ => rfl) (fun q hq => iff_of_true rfl (mem_map_of_mem hq)) fun _ hx => hx
  rw [buildBaseline, lookup_foldl_insert _ _ _ hl, Finmap.lookup_empty, or_none]

theorem presentAfter_cons (polls : List ProcessPoll) (hp : p.list = some list) :
    presentAfter present (p :: polls) = presentAfter (instances list) polls := by
  rw [presentAfter, foldl_cons, hp]
  rfl

theorem baseAfter_cons (polls : List ProcessPoll) (hp : p.list = some list) :
    baseAfter base (p :: polls) = baseAfter (base.filter (· ∈ instances list)) polls := by
  simp [baseAfter, hp]

/-- What a poll reports of a process, between its running before and after. -/
theorem Knows.running (hk : Knows procs present base) (hcfg : cfg.monitorLifecycle = true)
    (hl : UniquePIDs list) (hp : p.list = some list) (x : Instance) :
    starts x (Events.poll cfg procs p).2 + running x present base =
      stops x (Events.poll cfg procs p).2 +
        Events.running x (instances list) (base.filter (· ∈ instances list)) := by
  obtain ⟨hstart, hstop⟩ := hk.poll hcfg hl hp x
  have hsub := hk.sub x
  rw [hstart, hstop]
  simp only [Events.running, mem_filter, decide_eq_true_eq]
  by_cases hl : x ∈ instances list <;> by_cases hpr : x ∈ present <;>
    by_cases hb : x ∈ base <;> simp_all

/-- After any polls the tracked processes say which were there at the last one, and which
since the baseline; and each start reported is followed by its stop, unless the process
is still there. -/
theorem Knows.after (cfg : ProcessConfig) (polls : List ProcessPoll)
    (hk : Knows procs present base) (hpolls : ListsOnce polls) :
    Knows (procsAfter cfg procs polls) (presentAfter present polls) (baseAfter base polls) ∧
    (cfg.monitorLifecycle = true → ∀ x,
      starts x (noticesOf cfg procs polls) + Events.running x present base =
        stops x (noticesOf cfg procs polls) +
          Events.running x (presentAfter present polls) (baseAfter base polls)) := by
  induction polls generalizing procs present base with
  | nil => exact ⟨hk, fun _ x => rfl⟩
  | cons q polls ih =>
    have hrest : ListsOnce polls := fun r hr => hpolls r (mem_cons_of_mem q hr)
    cases hq : q.list with
    | none =>
      have hbase : base.filter (fun x => q.list.all fun list => x ∈ instances list) = base := by
        simp [hq]
      rw [procsAfter, presentAfter, baseAfter, foldl_cons, foldl_cons, foldl_cons,
        hbase, noticesOf, poll_of_none cfg procs hq, hq, nil_append]
      exact ih hk hrest
    | some list =>
      have hl := hpolls q mem_cons_self list hq
      rw [presentAfter_cons polls hq, baseAfter_cons polls hq]
      obtain ⟨hend, htotal⟩ := ih (hk.track cfg hl hq) hrest
      refine ⟨hend, fun hcfg x => ?_⟩
      have hone := hk.running hcfg hl hq x
      have hrun := htotal hcfg x
      simp only [noticesOf, starts, stops, countP_append] at hone hrun ⊢
      omega

def lifecycleConfig : ProcessConfig where
  cpuAlertThreshold := 0
  cpuAlertMultiplier := 0
  memAlertThreshold := 0
  memAlertMultiplier := 0
  alertCooldown := 0
  monitorLifecycle := true
  monitorTmpPaths := false
  patterns := []
  reverseShells := []
  host := ⟨[], []⟩
  agent := ⟨[], []⟩

def sampleOf (pid : Int) (start : Nat) : Sample := ⟨pid, 0, [], start, 0, 0⟩

noncomputable def pollOf (list : Option (List Sample)) : ProcessPoll :=
  ⟨list, 0, 0, 0, 0, fun _ => ([], []), fun _ => [], someRange⟩

end YominsAgent.Events
