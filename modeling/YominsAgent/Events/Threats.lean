import YominsAgent.Events.Lifecycle

/- Threats: what the polls say of a process besides its start, its stop and its spikes.

   A process is looked at once, by the first poll that lists it, with the path and the command line
   it has then (`threats_at_first_sight`). Nothing is said of the processes of the baseline, nor of
   one that turns into a reverse shell by an `exec` later on: its PID and its start time stay. -/
namespace YominsAgent.Events
open Go List

variable {cfg : ProcessConfig} {list : List Sample} {p : ProcessPoll} {id : Notice → Str} {now : Int}

/-- What is said of a new process besides its start. -/
def threats (cfg : ProcessConfig) (s : ProcessSnapshot) : List Notice :=
  (if cfg.monitorTmpPaths && isExecFromTmp s.exe then [.execTmp s] else []) ++
  if isReverseShell cfg s.cmdline then [.reverseShell s]
  else if isSuspicious cfg s.cmdline then [.suspicious s]
  else []

def Event.isThreat (e : Event) : Bool := e.category = .threatActivity

theorem filter_newProcessEvents (s : ProcessSnapshot) :
    (newProcessEvents cfg s).filter (Event.isThreat ∘ makeEvent cfg id now) = threats cfg s := by
  unfold newProcessEvents threats
  split_ifs <;> rfl

/-- A spike is no threat. -/
theorem filter_survivingProcess (q : Sample) (s : ProcessSnapshot) :
    (survivingProcess cfg p q s).2.filter (Event.isThreat ∘ makeEvent cfg id now) = [] := by
  simp only [survivingProcess, alertCPU, alertMem]
  split_ifs <;> rfl

theorem filter_exitNotices (procs : Procs) (pid : Int) :
    (exitNotices cfg list procs pid).filter (Event.isThreat ∘ makeEvent cfg id now) = [] := by
  unfold exitNotices
  cases procs.lookup pid with
  | none => rfl
  | some s => dsimp only; split_ifs <;> rfl

/-- The threats that a poll reports, in the order of its list, are those of the processes
that were not there before: neither at the last poll that could list them nor, if there was
none, at the baseline. -/
theorem threats_at_first_sight (cfg : ProcessConfig) (details : Int → Str × Str) (now : Int)
    (first : Option (List Sample)) (earlier : List ProcessPoll) (p : ProcessPoll)
    (list : List Sample) (hfirst : UniquePIDs (first.getD [])) (hpolls : ListsOnce (earlier ++ [p]))
    (hp : p.list = some list) :
    (pollEvents cfg (procsAfter cfg (buildBaseline details now first) earlier) p).filter
        Event.isThreat =
      list.flatMap fun q =>
        if q.inst ∈ presentAfter (instances (first.getD [])) earlier then []
        else (threats cfg (snapshotProcess p.details q true p.mono)).map (makeEvent cfg p.id p.now) := by
  have hknows := ((knows_baseline details now hfirst).after cfg earlier
    fun q hq => hpolls q (mem_append_left _ hq)).1
  have hl := hpolls p (mem_append_right _ mem_cons_self) list hp
  obtain ⟨procs1, procs2, hsurvive, hpoll, -⟩ := poll_spec cfg _ hl hp
  rw [pollEvents, hpoll, filter_map, filter_append, filter_flatMap, filter_flatMap,
    flatMap_eq_nil_iff.mpr fun pid _ => filter_exitNotices _ pid, nil_append, map_flatMap]
  refine flatMap_congr fun q hq => ?_
  have hnew := hsurvive.new_iff hknows hl hq
  unfold sampleNotices
  cases hs : procs1.lookup q.pid with
  | none => rw [if_neg (hnew.mp hs), filter_newProcessEvents]
  | some s =>
    have hold : q.inst ∈ presentAfter (instances (first.getD [])) earlier := by
      by_contra hnot
      rw [hnew.mpr hnot] at hs
      cases hs
    rw [if_pos hold, filter_survivingProcess, map_nil]

/-- Of two shells one was there at the baseline. -/
theorem new_shell_reported :
    let cfg := { lifecycleConfig with reverseShells := [fun _ => true] }
    let p := pollOf (some [sampleOf 1 5, sampleOf 7 9])
    let procs := buildBaseline (fun _ => ([], [])) 0 (some [sampleOf 1 5])
    (pollEvents cfg (procsAfter cfg procs []) p).filter Event.isThreat =
      [makeEvent cfg p.id p.now
        (.reverseShell (snapshotProcess p.details (sampleOf 7 9) true p.mono))] := by
  intro cfg p procs
  refine (threats_at_first_sight cfg _ 0 _ [] p _ ?_ ?_ rfl).trans rfl
  · unfold UniquePIDs
    decide
  · intro q hq list hlist
    cases mem_singleton.mp hq
    cases hlist
    unfold UniquePIDs
    decide

end YominsAgent.Events
