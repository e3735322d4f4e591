import Mathlib.Data.List.GetD
import YominsAgent.Events.Types

/- The detection of password guessing (`internal/events/auth/collector.go`): a sliding window of
   failed attempts for each pair of address and user, in a map that is cleaned up from time to time.

   `bruteforce_iff` says when an attempt is reported, in terms of the attempts and reports before it
   alone, and that the cleaning is not observable. The clock is the one of Linux, which does not
   stand before the epoch, and does not go back.

   Correspondence (Go ↔ Lean):
     `bfTracker`                   ↔ `Tracker`
     the loop that prunes in place ↔ `pruneLoop`, `prune`
   The mutex makes each call one step. -/
namespace YominsAgent.Events
open Go List Option

structure AuthConfig where
  bruteforceThreshold : Int
  bruteforceWindow : Int
  bruteforceSuppression : Int
  host : HostInfo
  agent : AgentInfo

/-- The defaults of `NewCollector`. -/
def AuthConfig.withDefaults (cfg : AuthConfig) : AuthConfig :=
  { cfg with
    bruteforceThreshold := if cfg.bruteforceThreshold = 0 then 5 else cfg.bruteforceThreshold
    bruteforceWindow := if cfg.bruteforceWindow = 0 then 30 * second else cfg.bruteforceWindow
    bruteforceSuppression :=
      if cfg.bruteforceSuppression = 0 then 2 * minute else cfg.bruteforceSuppression }

structure BruteforceKey where
  remoteIP : Str
  user : Str
  deriving DecidableEq, Repr

structure BruteforceEntry where
  attempts : List Nat
  suppressedUntil : Int
  deriving DecidableEq, Repr

abbrev Tracker := BruteforceKey → Option BruteforceEntry

/-- `t.After(cutoff)`. -/
def after (cutoff : Int) (t : Nat) : Bool := cutoff < (t : Int)

/-- The next `n` turns of the loop, which stands at `i` and has kept `j` attempts. -/
def pruneLoop (cutoff : Int) : Nat → Nat → List Nat → Nat → List Nat × Nat
  | 0, _, attempts, j => (attempts, j)
  | n + 1, i, attempts, j =>
    let t := attempts.getD i 0
    if after cutoff t then pruneLoop cutoff n (i + 1) (attempts.set j t) (j + 1)
    else pruneLoop cutoff n (i + 1) attempts j

/-- The attempts after the cutoff, moved to the front of the slice. -/
def prune (cutoff : Int) (attempts : List Nat) : List Nat :=
  let (attempts, j) := pruneLoop cutoff attempts.length 0 attempts 0
  attempts.take j

/-- The entry of a key, a new one if it has none. -/
def entryOf (tracker : Tracker) (k : BruteforceKey) : BruteforceEntry :=
  (tracker k).getD ⟨[], zeroTime⟩

section
variable (cfg : AuthConfig)

def bruteforceEvent (id user remoteIP : Str) (now : Nat) : Event :=
  { id, timestamp := now, type := .authBruteforceDetected, category := .threatActivity
    severity := .critical, confidence := some .high, host := cfg.host, agent := cfg.agent
    actor := some { user, ip := remoteIP }
    context := some { reason := "bruteforce".toList }
    tags := ["auth".toList, "bruteforce".toList] }

/-- `id` is what `uuid.New` returns. -/
def checkBruteforce (tracker : Tracker) (id user remoteIP : Str) (now : Nat) :
    Tracker × Option Event :=
  if remoteIP.isEmpty then (tracker, none)
  else
    let key : BruteforceKey := ⟨remoteIP, user⟩
    let entry := entryOf tracker key
    let attempts := prune (now - cfg.bruteforceWindow) entry.attempts ++ [now]
    if cfg.bruteforceThreshold ≤ attempts.length ∧ entry.suppressedUntil < now then
      let entry := ⟨attempts, now + cfg.bruteforceSuppression⟩
      (fun k => if k = key then some entry else tracker k,
        some (bruteforceEvent cfg id user remoteIP now))
    else (fun k => if k = key then some ⟨attempts, entry.suppressedUntil⟩ else tracker k, none)

/-- One turn of the loop over the map, which changes nothing but its own key. -/
def gcEntry (now : Nat) (entry : BruteforceEntry) : Option BruteforceEntry :=
  let attempts := prune (now - cfg.bruteforceWindow) entry.attempts
  if attempts.isEmpty ∧ entry.suppressedUntil < now then none
  else some ⟨attempts, entry.suppressedUntil⟩

def gcBruteforceTracker (tracker : Tracker) (now : Nat) : Tracker :=
  fun k => (tracker k).bind (gcEntry cfg now)

end

/-- A failed login, or a turn of the ticker that cleans up. -/
inductive AuthOp where
  | attempt (id user remoteIP : Str) (now : Nat)
  | gc (now : Nat)

def AuthOp.time : AuthOp → Nat
  | .attempt _ _ _ now => now
  | .gc now => now

def AuthOp.isAttempt : AuthOp → Bool
  | .attempt .. => true
  | .gc _ => false

/-- What is known of an attempt afterwards. -/
structure Seen where
  key : BruteforceKey
  time : Nat
  fired : Bool
  deriving DecidableEq, Repr

/-- The attempts of a run, in their order, each with whether it was reported. -/
def seen (cfg : AuthConfig) : Tracker → List AuthOp → List Seen
  | _, [] => []
  | tracker, .attempt id user remoteIP now :: ops =>
    let (tracker, event) := checkBruteforce cfg tracker id user remoteIP now
    ⟨⟨remoteIP, user⟩, now, event.isSome⟩ :: seen cfg tracker ops
  | tracker, .gc now :: ops => seen cfg (gcBruteforceTracker cfg tracker now) ops

/-! ## What a report is, from the history alone -/

def timesOf (history : List Seen) (k : BruteforceKey) : List Nat :=
  (history.filter fun x => x.key = k).map (·.time)

/-- How many attempts of the key lie in the window that ends now. -/
def inWindow (cfg : AuthConfig) (history : List Seen) (k : BruteforceKey) (now : Nat) : Nat :=
  ((timesOf history k).filter fun t => after (now - cfg.bruteforceWindow) t && t ≤ now).length

def lastFired (history : List Seen) (k : BruteforceKey) : Option Nat :=
  ((history.filter fun x => x.key = k ∧ x.fired).map (·.time)).getLast?

/-- The key was never reported, or its last report is long enough ago. -/
def Unsuppressed (cfg : AuthConfig) (history : List Seen) (k : BruteforceKey) (now : Nat) : Prop :=
  ∀ last, lastFired history k = some last → last + cfg.bruteforceSuppression < now

/-- An attempt with an address is to be reported. -/
def Reportable (cfg : AuthConfig) (history : List Seen) (k : BruteforceKey) (now : Nat) : Prop :=
  k.remoteIP ≠ [] ∧ cfg.bruteforceThreshold ≤ (inWindow cfg history k now + 1 : Nat) ∧
    Unsuppressed cfg history k now

/-! ## Pruning -/

/-- The loop: what was kept stands at the front, what is ahead is as it was. -/
theorem pruneLoop_spec (cutoff : Int) (n : Nat) : ∀ (i : Nat) (attempts kept rest : List Nat) (j : Nat),
    attempts.take j = kept → attempts.drop i = rest → rest.length = n → j ≤ i →
    (pruneLoop cutoff n i attempts j).1.take (pruneLoop cutoff n i attempts j).2 =
      kept ++ rest.filter (after cutoff) := by
  induction n with
  | zero =>
    intro i attempts kept rest j hkept hrest hlen hj
    have hnil : rest = [] := length_eq_zero_iff.mp hlen
    simp [pruneLoop, hkept, hnil]
  | succ n ih =>
    intro i attempts kept rest j hkept hrest hlen hj
    obtain ⟨t, rest, rfl⟩ : ∃ t r, rest = t :: r := exists_cons_of_length_eq_add_one hlen
    have hi : i < attempts.length := by
      have := congrArg length hrest
      rw [length_drop] at this
      omega
    rw [drop_eq_getElem_cons hi] at hrest
    obtain ⟨rfl, hnext⟩ := cons.inj hrest
    have hget : attempts.getD i 0 = attempts[i] := getD_eq_getElem _ _ hi
    rw [pruneLoop, hget, filter_cons]
    rw [length_cons] at hlen
    split
    · next ht =>
      -- the attempt is written at `j`, behind which nothing is read any more
      have hset : (attempts.set j attempts[i]).drop (i + 1) = rest := by
        rw [drop_set_of_lt (by omega), hnext]
      have htake : (attempts.set j attempts[i]).take (j + 1) = kept ++ [attempts[i]] := by
        rw [take_add_one, take_set_of_le (Nat.le_refl j), hkept]
        simp [getElem?_set_self (show j < attempts.length by omega)]
      rw [ih (i + 1) _ (kept ++ [attempts[i]]) rest (j + 1) htake hset (by omega) (by omega)]
      simp
    · next ht =>
      rw [ih (i + 1) attempts kept rest j hkept hnext (by omega) (by omega)]

theorem prune_eq_filter (cutoff : Int) (attempts : List Nat) :
    prune cutoff attempts = attempts.filter (after cutoff) := by
  have h := pruneLoop_spec cutoff attempts.length 0 attempts [] attempts 0 rfl rfl rfl (Nat.le_refl 0)
  rwa [nil_append] at h

/-- Pruning with a later cutoff afterwards makes the earlier one unnoticeable. -/
theorem filter_after_filter {c d : Int} (h : c ≤ d) (ts : List Nat) :
    (ts.filter (after c)).filter (after d) = ts.filter (after d) := by
  rw [List.filter_filter]
  refine List.filter_congr fun t _ => ?_
  simp only [after, Bool.and_eq_left_iff_imp, decide_eq_true_eq]
  omega

/-! ## The tracker and the history -/

variable {cfg : AuthConfig} {tracker : Tracker} {history : List Seen} {T : Nat} {k : BruteforceKey}
  {now : Nat} {ops : List AuthOp}

/-- What the tracker knows at a time `T` of the attempts that matter later. -/
structure Tracks (cfg : AuthConfig) (tracker : Tracker) (history : List Seen) (T : Nat) : Prop where
  past : ∀ x ∈ history, x.time ≤ T
  attempts : ∀ k, k.remoteIP ≠ [] → ∀ now, T ≤ now →
    (entryOf tracker k).attempts.filter (after (now - cfg.bruteforceWindow)) =
      (timesOf history k).filter (after (now - cfg.bruteforceWindow))
  quiet : ∀ k, k.remoteIP ≠ [] → ∀ now, T ≤ now →
    ((entryOf tracker k).suppressedUntil < now ↔ Unsuppressed cfg history k now)

theorem timesOf_snoc (history : List Seen) (x : Seen) (k : BruteforceKey) :
    timesOf (history ++ [x]) k = timesOf history k ++ if x.key = k then [x.time] else [] := by
  unfold timesOf
  rw [filter_append, map_append]
  by_cases h : x.key = k <;> simp [h]

theorem lastFired_snoc (history : List Seen) (x : Seen) (k : BruteforceKey) :
    lastFired (history ++ [x]) k =
      if x.key = k ∧ x.fired then some x.time else lastFired history k := by
  unfold lastFired
  rw [filter_append, map_append]
  by_cases h : x.key = k ∧ x.fired <;> simp [h]

theorem zeroTime_lt (now : Nat) : zeroTime < now := by
  have : zeroTime < 0 := by decide
  omega

theorem tracks_init (cfg : AuthConfig) : Tracks cfg (fun _ => none) [] 0 where
  past _ hx := nomatch hx
  attempts _ _ _ _ := rfl
  quiet k _ now _ := by
    refine ⟨fun _ last hlast => ?_, fun _ => zeroTime_lt now⟩
    cases hlast

section
variable (h : Tracks cfg tracker history T)
include h

theorem Tracks.inWindow_eq (hk : k.remoteIP ≠ []) (hT : T ≤ now) : inWindow cfg history k now =
      (prune (now - cfg.bruteforceWindow) (entryOf tracker k).attempts).length := by
  rw [prune_eq_filter, h.attempts k hk now hT, inWindow]
  congr 1
  refine filter_congr fun t ht => ?_
  obtain ⟨x, hx, rfl⟩ := mem_map.mp ht
  have hpast := h.past x (mem_filter.mp hx).1
  simp only [Bool.and_eq_left_iff_imp, decide_eq_true_eq]
  omega

theorem Tracks.past_snoc {fired : Bool} (hT : T ≤ now) :
    ∀ x ∈ history ++ [⟨k, now, fired⟩], x.time ≤ now :=
  forall_mem_append.mpr ⟨fun x hx => Nat.le_trans (h.past x hx) hT, by simp⟩

/-- Once the entry was looked at, the next attempts are tracked as well. -/
theorem Tracks.record {fired : Bool} {suppressedUntil : Int} (hT : T ≤ now) (hk : k.remoteIP ≠ [])
    (hquiet : ∀ later : Nat, now ≤ later → (suppressedUntil < later ↔ Unsuppressed cfg (history ++ [⟨k, now, fired⟩]) k later))
    :
    Tracks cfg
      (fun q => if q = k then
          some ⟨prune (now - cfg.bruteforceWindow) (entryOf tracker k).attempts ++ [now],
            suppressedUntil⟩
        else tracker q) (history ++ [⟨k, now, fired⟩]) now where
  past := h.past_snoc hT
  attempts q hq later hlater := by
    rw [timesOf_snoc, filter_append]
    by_cases hqk : q = k
    · subst hqk
      simp only [entryOf, if_true, getD_some]
      rw [filter_append, prune_eq_filter, filter_after_filter (by omega)]
      exact congrArg (· ++ _) (h.attempts q hq later (Nat.le_trans hT hlater))
    · have hne : k ≠ q := Ne.symm hqk
      simp only [entryOf, if_neg hqk, if_neg hne, filter_nil, append_nil]
      exact h.attempts q hq later (Nat.le_trans hT hlater)
  quiet q hq later hlater := by
    by_cases hqk : q = k
    · subst hqk
      simp only [entryOf, if_true, getD_some]
      exact hquiet later hlater
    · have hne : ¬ k = q := Ne.symm hqk
      simp only [entryOf, if_neg hqk, Unsuppressed, lastFired_snoc, hne, false_and, if_false]
      exact h.quiet q hq later (Nat.le_trans hT hlater)

/-- One attempt: it is reported when it should be, and tracked. -/
theorem Tracks.attempt (id user remoteIP : Str) (hT : T ≤ now) :
    ((checkBruteforce cfg tracker id user remoteIP now).2.isSome = true ↔
      Reportable cfg history ⟨remoteIP, user⟩ now) ∧
    Tracks cfg (checkBruteforce cfg tracker id user remoteIP now).1
      (history ++ [⟨⟨remoteIP, user⟩, now,
        (checkBruteforce cfg tracker id user remoteIP now).2.isSome⟩]) now := by
  by_cases hip : remoteIP = []
  · subst hip
    refine ⟨?_, ?_⟩
    · constructor
      · exact nofun
      · exact fun hr => absurd rfl hr.1
    · have hkeys : ∀ k : BruteforceKey, k.remoteIP ≠ [] → ¬ (⟨[], user⟩ : BruteforceKey) = k := by
        rintro k hk rfl
        exact hk rfl
      refine ⟨h.past_snoc hT, ?_, ?_⟩
      · intro k hk later hlater
        rw [timesOf_snoc, if_neg (hkeys k hk), append_nil]
        exact h.attempts k hk later (Nat.le_trans hT hlater)
      · intro k hk later hlater
        simp only [Unsuppressed, lastFired_snoc, hkeys k hk, false_and, if_false]
        exact h.quiet k hk later (Nat.le_trans hT hlater)
  · have hempty : remoteIP.isEmpty = false := by simpa using hip
    have hcount := h.inWindow_eq (k := ⟨remoteIP, user⟩) hip hT
    have hquiet := h.quiet ⟨remoteIP, user⟩ hip now hT
    have hlen : (prune (now - cfg.bruteforceWindow) (entryOf tracker ⟨remoteIP, user⟩).attempts ++
        [now]).length = inWindow cfg history ⟨remoteIP, user⟩ now + 1 := by
      rw [length_append, hcount]
      rfl
    unfold checkBruteforce
    simp only [hempty, Bool.false_eq_true, if_false]
    split
    · next hfires =>
      rw [hlen, hquiet] at hfires
      refine ⟨⟨fun _ => ⟨hip, hfires⟩, fun _ => rfl⟩, h.record hT hip fun later _ => ?_⟩
      simp [Unsuppressed, lastFired_snoc]
    · next hnot =>
      rw [hlen, hquiet] at hnot
      refine ⟨⟨nofun, fun hr => absurd hr.2 hnot⟩, h.record hT hip fun later hlater => ?_⟩
      rw [h.quiet _ hip later (Nat.le_trans hT hlater)]
      simp [Unsuppressed, lastFired_snoc]

theorem Tracks.gc (hT : T ≤ now) :
    Tracks cfg (gcBruteforceTracker cfg tracker now) history now := by
  refine ⟨fun x hx => Nat.le_trans (h.past x hx) hT, ?_, ?_⟩
  · intro k hk later hlater
    rw [← h.attempts k hk later (Nat.le_trans hT hlater)]
    unfold entryOf gcBruteforceTracker
    cases tracker k with
    | none => rfl
    | some entry =>
      have hprune := filter_after_filter (c := now - cfg.bruteforceWindow)
        (d := later - cfg.bruteforceWindow) (by omega) entry.attempts
      simp only [bind_some, gcEntry, getD_some]
      split
      · next hgone =>
        -- what was pruned to nothing has nothing in a later window
        rw [prune_eq_filter, List.isEmpty_iff] at hgone
        rw [← hprune, hgone.1]
        rfl
      · rw [getD_some, prune_eq_filter, hprune]
  · intro k hk later hlater
    rw [← h.quiet k hk later (Nat.le_trans hT hlater)]
    unfold entryOf gcBruteforceTracker
    cases tracker k with
    | none => rfl
    | some =>
      simp only [bind_some, gcEntry, getD_some]
      split
      · next hgone =>
        refine ⟨fun _ => ?_, fun _ => zeroTime_lt later⟩
        have := hgone.2
        omega
      · rfl

end

/-! ## Runs -/

/-- The clock of the operations does not go back, and stands at `T` or later. -/
def Clocked (T : Nat) (ops : List AuthOp) : Prop :=
  (∀ op ∈ ops, T ≤ op.time) ∧ ops.Pairwise fun a b => a.time ≤ b.time

theorem Clocked.tail {op : AuthOp} (h : Clocked T (op :: ops)) :
    T ≤ op.time ∧ Clocked op.time ops := by
  obtain ⟨hT, hpair⟩ := h
  rw [pairwise_cons] at hpair
  exact ⟨hT op mem_cons_self, hpair⟩

theorem seen_attempt (cfg : AuthConfig) (tracker : Tracker) (id user remoteIP : Str) (now : Nat)
    (ops : List AuthOp) : seen cfg tracker (.attempt id user remoteIP now :: ops) =
      ⟨⟨remoteIP, user⟩, now, (checkBruteforce cfg tracker id user remoteIP now).2.isSome⟩ ::
        seen cfg (checkBruteforce cfg tracker id user remoteIP now).1 ops := rfl

/-- Every attempt of a run is reported when it should be. -/
theorem Tracks.seen_iff (h : Tracks cfg tracker history T) (hops : Clocked T ops)
    {earlier later : List Seen} {x : Seen} (hx : seen cfg tracker ops = earlier ++ x :: later) :
    x.fired = true ↔ Reportable cfg (history ++ earlier) x.key x.time := by
  induction ops generalizing tracker history T earlier with
  | nil =>
    have := congrArg length hx
    simp [seen] at this
  | cons op ops ih =>
    obtain ⟨hT, hclock⟩ := hops.tail
    cases op with
    | attempt id user remoteIP =>
      obtain ⟨hiff, htracks⟩ := h.attempt id user remoteIP hT
      cases earlier with
      | nil =>
        obtain ⟨rfl, -⟩ := cons.inj hx
        rw [append_nil]
        exact hiff
      | cons =>
        obtain ⟨rfl, hrest⟩ := cons.inj hx
        have := ih htracks hclock hrest
        rwa [append_assoc] at this
    | gc => exact ih (h.gc hT) hclock hx

/-- Two trackers that know the same history report the same, one of them with the
cleaning left out. -/
theorem Tracks.seen_without_gc {tracker' : Tracker} {T' : Nat} (h : Tracks cfg tracker history T)
    (h' : Tracks cfg tracker' history T') (hops : Clocked T ops) (hle : T' ≤ T) :
    seen cfg tracker' (ops.filter AuthOp.isAttempt) = seen cfg tracker ops := by
  induction ops generalizing tracker tracker' history T T' with
  | nil => rfl
  | cons op ops ih =>
    obtain ⟨hT, hclock⟩ := hops.tail
    cases op with
    | attempt id user remoteIP now =>
      have hnow : T ≤ now := hT
      obtain ⟨hiff, htracks⟩ := h.attempt id user remoteIP hnow
      obtain ⟨hiff', htracks'⟩ := h'.attempt id user remoteIP (Nat.le_trans hle hnow)
      -- both see the same history, so both report or neither does
      have hsame := Bool.eq_iff_iff.mpr (hiff'.trans hiff.symm)
      rw [hsame] at htracks'
      rw [filter_cons_of_pos rfl, seen_attempt, seen_attempt, hsame,
        ih htracks htracks' hclock (Nat.le_refl now)]
    | gc =>
      rw [filter_cons_of_neg (by simp [AuthOp.isAttempt])]
      exact ih (h.gc hT) h' hclock (Nat.le_trans hle hT)

/-- The detection is its specification: in every run of attempts and cleanings by a
clock that does not go back, an attempt is reported if and only if it has an address,
the attempts of its address and user in the window that ends with it, itself included,
reach the threshold, and the pair was never reported or its last report is longer ago
than the suppression. Without the cleanings the run reports the same. -/
theorem bruteforce_iff (cfg : AuthConfig) (ops : List AuthOp)
    (hclock : ops.Pairwise fun a b => a.time ≤ b.time) :
    (∀ earlier x later, seen cfg (fun _ => none) ops = earlier ++ x :: later →
      (x.fired = true ↔ x.key.remoteIP ≠ [] ∧
        cfg.bruteforceThreshold ≤ (inWindow cfg earlier x.key x.time + 1 : Nat) ∧
        ∀ last, lastFired earlier x.key = some last →
          last + cfg.bruteforceSuppression < x.time)) ∧
    seen cfg (fun _ => none) (ops.filter AuthOp.isAttempt) = seen cfg (fun _ => none) ops := by
  have hops : Clocked 0 ops := ⟨fun _ _ => Nat.zero_le _, hclock⟩
  have hinit := tracks_init cfg
  refine ⟨fun earlier x later hx => ?_, hinit.seen_without_gc hinit hops (Nat.le_refl 0)⟩
  exact hinit.seen_iff hops hx

/-- Three attempts to guess a password in a second, and a cleaning. -/
def threeAttempts : List AuthOp :=
  let attempt (now : Nat) : AuthOp := .attempt [] "root".toList "10.0.0.1".toList now
  [attempt 1000000000, attempt 1000000001, .gc 1500000000, attempt 2000000000]

def strictConfig : AuthConfig := ⟨3, 30 * second, 2 * minute, ⟨[], []⟩, ⟨[], []⟩⟩

/-- The third is reported. -/
theorem third_attempt_reported :
    (seen strictConfig (fun _ => none) threeAttempts).map (·.fired) = [false, false, true] ∧
    seen strictConfig (fun _ => none) (threeAttempts.filter AuthOp.isAttempt) =
      seen strictConfig (fun _ => none) threeAttempts :=
  ⟨by decide, (bruteforce_iff strictConfig threeAttempts (by decide)).2⟩

end YominsAgent.Events
