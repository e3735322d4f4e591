import YominsAgent.Events.Types
import YominsAgent.Go.Map
import YominsAgent.Go.Path
import YominsAgent.Go.Utf8

/- The watch over `/etc/passwd` (`internal/events/system/collector.go`): each poll
   compares the users of the file with a snapshot, reports those that appeared or are
   gone, and replaces the snapshot if the two differ.

   `passwdEqual` decides whether they do, and looks a user of the snapshot up in the
   new list without asking whether it is there: a missing one counts as uid 0. So the
   two can pass for equal when a user with uid 0 is gone (`passwdEqual_iff`), and the
   next poll compares with the wrong list. Otherwise every change is reported, at the
   poll that sees it and at no other (`user_changes_iff`).

   Correspondence (Go ↔ Lean):
     `currentPasswdUsers`     ↔ `currentPasswdUsers`, `nil` is `none`
     one tick of `pollPasswd` ↔ `pollPasswd`
   The sends of a poll are its events in their order; a poll that is cancelled before
   its last send is the end of the run. -/
namespace YominsAgent.Events
open Go

abbrev Users := Map Str Int

structure SystemConfig where
  host : HostInfo
  agent : AgentInfo

/-- The bytes of the longest line `bufio.Scanner` returns, and one. -/
def maxScanTokenSize : Nat := 64 * 1024

def dropCR (line : Str) : Str := if line.getLast? = some '\r' then line.dropLast else line

/-- The lines of a `bufio.Scanner`. One that does not fit its buffer ends the scan. -/
def scanLines (text : Str) : List Str :=
  let lines := splitOn '\n' text
  let lines := if lines.getLast? = some [] then lines.dropLast else lines
  (lines.takeWhile fun line => (toBytes line).length < maxScanTokenSize).map dropCR

def passwdLine (line : Str) : Option (Str × Int) :=
  if hasPrefix line ['#'] || line.isEmpty then none
  else match splitN [':'] 4 line with
    | name :: _ :: uid :: _ => (atoi uid).map (name, ·)
    | _ => none

/-- `data` is what `os.ReadFile` returns of `/etc/passwd`, `none` on an error. -/
def currentPasswdUsers (data : Option Str) : Option Users :=
  data.map fun text => ((scanLines text).filterMap passwdLine).foldl
    (fun users (name, uid) => users.insert name uid) ∅

/-- The value of a missing key is 0. -/
def passwdEqual (a b : Users) : Bool :=
  a.len = b.len ∧ ∀ k ∈ a.keys, (b.lookup k).getD 0 = (a.lookup k).getD 0

/-- The two user events differ in what they say of the change. -/
def userEvent (cfg : SystemConfig) (type : EventType) (severity : Severity)
    (confidence : Confidence) (tag id : Str) (now : Int) (username : Str) (uid : Int) : Event :=
  { id, timestamp := now, type, category := .threatActivity, severity
    confidence := some confidence, host := cfg.host, agent := cfg.agent
    actor := some { user := username, uid }
    tags := ["system".toList, tag] }

def userCreatedEvent (cfg : SystemConfig) : Str → Int → Str → Int → Event :=
  userEvent cfg .systemUserCreated .critical .high "user_created".toList

def userDeletedEvent (cfg : SystemConfig) : Str → Int → Str → Int → Event :=
  userEvent cfg .systemUserDeleted .warning .medium "user_deleted".toList

/-- What one tick of the ticker meets. -/
structure PasswdPoll where
  now : Int
  data : Option Str
  /-- What `uuid.New` returns for the event of a user. -/
  id : Str → Str
  created : Range Str Int
  deleted : Range Str Int

def PasswdPoll.users (p : PasswdPoll) : Option Users := currentPasswdUsers p.data

/-- The users of `m` that are not in `others`, as events. -/
def userEvents (r : Range Str Int) (m others : Users) (event : Str → Int → Event) : List Event :=
  (r.order m).filterMap fun username =>
    if username ∈ others then none else (m.lookup username).map (event username)

/-- The events of one tick, and the snapshot after it. -/
def pollPasswd (cfg : SystemConfig) (snapshot : Users) (p : PasswdPoll) : List Event × Users :=
  match p.users with
  | none => ([], snapshot)
  | some current =>
    (userEvents p.created current snapshot (fun u => userCreatedEvent cfg (p.id u) p.now u) ++
      userEvents p.deleted snapshot current (fun u => userDeletedEvent cfg (p.id u) p.now u),
      if passwdEqual snapshot current then snapshot else current)

def snapshotAfter (cfg : SystemConfig) (baseline : Users) (polls : List PasswdPoll) : Users :=
  polls.foldl (fun snapshot p => (pollPasswd cfg snapshot p).2) baseline

/-- The users of the last poll that could read the file. -/
def usersAfter (baseline : Users) (polls : List PasswdPoll) : Users :=
  polls.foldl (fun users p => p.users.getD users) baseline

/-! ## What is to be reported -/

/-- How often the events report the user so. -/
def reports (type : EventType) (u : Str) (events : List Event) : Nat :=
  events.countP fun e => e.type = type ∧ e.actor.any fun a => a.user = u

/-- The events of a poll report each user that appeared and each that is gone, once,
and no other. -/
def Reported (previous : Users) (current : Option Users) (events : List Event) : Prop :=
  match current with
  | none => events = []
  | some current => ∀ u,
    reports .systemUserCreated u events = (if u ∈ current ∧ u ∉ previous then 1 else 0) ∧
    reports .systemUserDeleted u events = (if u ∈ previous ∧ u ∉ current then 1 else 0)

/-- As many users as before, one with uid 0 is gone, and every other that was there is
there with its uid or had uid 0. -/
def Confused (a b : Users) : Prop :=
  a.len = b.len ∧ (∃ u, a.lookup u = some 0 ∧ u ∉ b) ∧
    ∀ u uid, a.lookup u = some uid → b.lookup u = some uid ∨ uid = 0 ∧ u ∉ b

/-! ## One poll -/

theorem reports_append (type : EventType) (u : Str) (l r : List Event) :
    reports type u (l ++ r) = reports type u l + reports type u r := List.countP_append

/-- One of the two loops reports the users it should, once each, and under its own type
only. -/
theorem reports_userEvents (r : Range Str Int) (m others : Users) (event : Str → Int → Event)
    (type kind : EventType) (hkind : ∀ u uid, (event u uid).type = kind)
    (hactor : ∀ u uid, (event u uid).actor.map (·.user) = some u) (u : Str) :
    reports type u (userEvents r m others event) =
      if type = kind ∧ u ∈ m ∧ u ∉ others then 1 else 0 := by
  have hany : ∀ j, ((if j ∈ others then none else (m.lookup j).map (event j)).any fun e : Event =>
      decide (e.type = type ∧ e.actor.any fun a => a.user = u)) = true ↔
      type = kind ∧ j ∈ m ∧ j ∉ others ∧ j = u := by
    intro j
    by_cases hj : j ∈ others
    · simp [hj]
    · cases hm : m.lookup j with
      | none => simp [hm, Finmap.mem_iff]
      | some uid =>
        obtain ⟨a, ha, hu⟩ := Option.map_eq_some_iff.mp (hactor j uid)
        have hmem : j ∈ m := Finmap.mem_of_lookup_eq_some hm
        simp [hj, hmem, hkind, ha, hu, @eq_comm _ kind]
  unfold reports userEvents
  rw [r.countP_filterMap m _ _ u fun j _ h => ((hany j).mp h).2.2.2]
  simp only [hany, and_true]
  refine if_congr ?_ rfl rfl
  constructor
  · rintro ⟨-, ht, hm, ho⟩
    exact ⟨ht, hm, ho⟩
  · rintro ⟨ht, hm, ho⟩
    exact ⟨hm, ht, hm, ho⟩

/-- A poll reports the difference to its snapshot. -/
theorem poll_reported (cfg : SystemConfig) (snapshot : Users) (p : PasswdPoll) :
    Reported snapshot p.users (pollPasswd cfg snapshot p).1 := by
  unfold pollPasswd Reported
  cases p.users with
  | none => rfl
  | some =>
    intro u
    simp only [reports_append]
    rw [reports_userEvents _ _ _ _ _ .systemUserCreated (fun _ _ => rfl) (fun _ _ => rfl),
      reports_userEvents _ _ _ _ _ .systemUserDeleted (fun _ _ => rfl) (fun _ _ => rfl),
      reports_userEvents _ _ _ _ _ .systemUserCreated (fun _ _ => rfl) (fun _ _ => rfl),
      reports_userEvents _ _ _ _ _ .systemUserDeleted (fun _ _ => rfl) (fun _ _ => rfl)]
    simp

/-- Events that report the difference to two lists are about lists of the same users. -/
theorem Reported.same_users {a b current : Users} {events : List Event}
    (ha : Reported a (some current) events) (hb : Reported b (some current) events) (u : Str) :
    u ∈ a ↔ u ∈ b := by
  obtain ⟨hca, hda⟩ := ha u
  obtain ⟨hcb, hdb⟩ := hb u
  by_cases hu : u ∈ current
  · simp only [hu] at hcb
    by_cases h : u ∈ a <;> by_cases h' : u ∈ b <;> simp_all
  · simp only [hu] at hdb
    by_cases h : u ∈ a <;> by_cases h' : u ∈ b <;> simp_all

/-! ## The comparison -/

theorem Confused.ne {a b : Users} (h : Confused a b) : ∃ u, u ∈ a ∧ u ∉ b := by
  obtain ⟨-, ⟨u, hu, hb⟩, -⟩ := h
  exact ⟨u, Finmap.mem_of_lookup_eq_some hu, hb⟩

/-- `passwdEqual` holds of equal lists, and of those it confuses. -/
theorem passwdEqual_iff (a b : Users) : passwdEqual a b = true ↔ a = b ∨ Confused a b := by
  simp only [passwdEqual, decide_eq_true_eq]
  constructor
  · rintro ⟨hlen, hall⟩
    have hvalue : ∀ u uid, a.lookup u = some uid → b.lookup u = some uid ∨ uid = 0 ∧ u ∉ b := by
      intro u uid hu
      have h := hall u (Finmap.mem_keys.mpr (Finmap.mem_of_lookup_eq_some hu))
      rw [hu] at h
      cases hb : b.lookup u with
      | none =>
        rw [hb] at h
        exact .inr ⟨h.symm, Finmap.lookup_eq_none.mp hb⟩
      | some =>
        rw [hb] at h
        exact .inl (congrArg some h)
    by_cases hgone : ∃ u, u ∈ a ∧ u ∉ b
    · obtain ⟨u, hu, hb⟩ := hgone
      obtain ⟨uid, huid⟩ := Finmap.mem_iff.mp hu
      refine .inr ⟨hlen, ⟨u, ?_, hb⟩, hvalue⟩
      rcases hvalue u uid huid with hsame | ⟨rfl, -⟩
      · exact absurd (Finmap.mem_of_lookup_eq_some hsame) hb
      · exact huid
    · -- every user is still there, and there are no more of them
      left
      have hsub : a.keys ⊆ b.keys := by
        intro u hu
        by_contra hb
        exact hgone ⟨u, Finmap.mem_keys.mp hu, fun h => hb (Finmap.mem_keys.mpr h)⟩
      have hkeys : a.keys = b.keys := Finset.eq_of_subset_of_card_le hsub (Nat.le_of_eq hlen.symm)
      refine Finmap.ext_lookup fun u => ?_
      cases ha : a.lookup u with
      | none =>
        have hua : u ∉ a.keys := fun h => Finmap.lookup_eq_none.mp ha (Finmap.mem_keys.mp h)
        rw [hkeys] at hua
        exact (Finmap.lookup_eq_none.mpr fun h => hua (Finmap.mem_keys.mpr h)).symm
      | some uid =>
        rcases hvalue u uid ha with hsame | ⟨-, hb⟩
        · exact hsame.symm
        · exact absurd ⟨u, Finmap.mem_of_lookup_eq_some ha, hb⟩ hgone
  · rintro (rfl | ⟨hlen, -, hvalue⟩)
    · exact ⟨rfl, fun _ _ => rfl⟩
    · refine ⟨hlen, fun u hu => ?_⟩
      obtain ⟨uid, huid⟩ := Finmap.mem_iff.mp (Finmap.mem_keys.mp hu)
      rw [huid, Option.getD_some]
      rcases hvalue u uid huid with hsame | ⟨rfl, hb⟩
      · rw [hsame, Option.getD_some]
      · rw [Finmap.lookup_eq_none.mpr hb, Option.getD_none]

/-- The snapshot after a poll is what the poll has read, unless the two are confused. -/
theorem snapshot_of_poll (cfg : SystemConfig) (snapshot : Users) {current : Users} {p : PasswdPoll}
    (hp : p.users = some current) :
    (¬ Confused snapshot current → (pollPasswd cfg snapshot p).2 = current) ∧
    (Confused snapshot current → (pollPasswd cfg snapshot p).2 = snapshot) := by
  simp only [pollPasswd, hp]
  refine ⟨fun h => ?_, fun h => ?_⟩
  · split
    · next heq => exact ((passwdEqual_iff _ _).mp heq).resolve_right h
    · rfl
  · rw [if_pos ((passwdEqual_iff _ _).mpr (.inr h))]

/-! ## Runs -/

/-- Every poll reports the changes since the last one before it that could read the
file. -/
def ReportsChanges (cfg : SystemConfig) (baseline : Users) (polls : List PasswdPoll) : Prop :=
  ∀ before p after, polls = before ++ p :: after →
    Reported (usersAfter baseline before) p.users
      (pollPasswd cfg (snapshotAfter cfg baseline before) p).1

/-- No poll with another one that can read the file after it confuses what it has read
with the list before. -/
def NeverConfused (baseline : Users) (polls : List PasswdPoll) : Prop :=
  ∀ before p after, polls = before ++ p :: after → (∃ q ∈ after, q.users.isSome = true) →
    ∀ current, p.users = some current → ¬ Confused (usersAfter baseline before) current

/-- What holds at every place of a list holds at its head and at every place of its
tail. -/
theorem forall_split_cons {α : Type} {Q : List α → α → List α → Prop} (x : α) (xs : List α) :
    (∀ before a after, x :: xs = before ++ a :: after → Q before a after) ↔
      Q [] x xs ∧ ∀ before a after, xs = before ++ a :: after → Q (x :: before) a after := by
  constructor
  · intro h
    exact ⟨h [] x xs rfl, fun before a after hxs => h (x :: before) a after (by rw [hxs]; rfl)⟩
  · rintro ⟨hhead, htail⟩ before a after hxs
    cases before with
    | nil =>
      obtain ⟨rfl, rfl⟩ := List.cons.inj hxs
      exact hhead
    | cons y before =>
      obtain ⟨rfl, htl⟩ := List.cons.inj hxs
      exact htail before a after htl

/-- Polls that cannot read the file report nothing, and change nothing. -/
theorem reported_of_unread (cfg : SystemConfig) (snapshot users : Users) {polls : List PasswdPoll}
    (h : ¬ ∃ q ∈ polls, q.users.isSome = true) (before : List PasswdPoll) (p : PasswdPoll)
    (after : List PasswdPoll) (hp : polls = before ++ p :: after) :
    Reported (usersAfter users before) p.users
      (pollPasswd cfg (snapshotAfter cfg snapshot before) p).1 := by
  have hnone : p.users = none := by
    by_contra hsome
    exact h ⟨p, by simp [hp], Option.isSome_iff_ne_none.mpr hsome⟩
  have := poll_reported cfg (snapshotAfter cfg snapshot before) p
  rw [hnone] at this ⊢
  exact this

/-- A stale snapshot shows at the next poll that can read the file. -/
theorem not_reported_of_stale (cfg : SystemConfig) {snapshot users : Users} {polls : List PasswdPoll}
    (hread : ∃ q ∈ polls, q.users.isSome = true) (hne : ∃ u, ¬ (u ∈ users ↔ u ∈ snapshot)) :
    ∃ before p after, polls = before ++ p :: after ∧
      ¬ Reported (usersAfter users before) p.users
        (pollPasswd cfg (snapshotAfter cfg snapshot before) p).1 := by
  induction polls with
  | nil =>
    obtain ⟨q, hq, -⟩ := hread
    cases hq
  | cons p polls ih =>
    cases hp : p.users with
    | some =>
      refine ⟨[], p, polls, rfl, ?_⟩
      intro hrep
      have hown := poll_reported cfg snapshot p
      rw [hp] at hrep hown
      obtain ⟨u, hu⟩ := hne
      exact hu (hrep.same_users hown u)
    | none =>
      have hlater : ∃ q ∈ polls, q.users.isSome = true := by
        obtain ⟨q, hq, hsome⟩ := hread
        rcases List.mem_cons.mp hq with rfl | hq
        · rw [hp] at hsome
          cases hsome
        · exact ⟨q, hq, hsome⟩
      obtain ⟨before, q, after, hpolls, hnot⟩ := ih hlater
      refine ⟨p :: before, q, after, by rw [hpolls]; rfl, ?_⟩
      have husers : usersAfter users (p :: before) = usersAfter users before := by
        simp [usersAfter, hp]
      have hsnap : snapshotAfter cfg snapshot (p :: before) = snapshotAfter cfg snapshot before := by
        simp [snapshotAfter, pollPasswd, hp]
      rwa [husers, hsnap]

/-- Each change of the users is reported at the poll that sees it and not again, in a
sequence of polls from a baseline, if and only if no poll but the last to read the file
lists as many users as the list before, lacks one of its users with uid 0, and has every
other user of it with the same uid or knows it as one with uid 0 that is gone. -/
theorem user_changes_iff (cfg : SystemConfig) (baseline : Users) (polls : List PasswdPoll) :
    ReportsChanges cfg baseline polls ↔ NeverConfused baseline polls := by
  induction polls generalizing baseline with
  | nil =>
    refine ⟨fun _ before p after h => ?_, fun _ before p after h => ?_⟩ <;>
      exact absurd (congrArg List.length h) (by simp)
  | cons p polls ih =>
    unfold ReportsChanges NeverConfused
    rw [forall_split_cons, forall_split_cons]
    have hfirst : Reported (usersAfter baseline []) p.users
        (pollPasswd cfg (snapshotAfter cfg baseline []) p).1 := poll_reported cfg baseline p
    rw [and_iff_right hfirst]
    have hrest := ih (p.users.getD baseline)
    unfold ReportsChanges NeverConfused at hrest
    cases hp : p.users with
    | none =>
      have hsnap : (pollPasswd cfg baseline p).2 = baseline := by simp [pollPasswd, hp]
      rw [hp, Option.getD_none] at hrest
      simpa [usersAfter, snapshotAfter, hsnap, hp] using hrest
    | some current =>
      rw [hp, Option.getD_some] at hrest
      obtain ⟨hfresh, hstale⟩ := snapshot_of_poll cfg baseline hp
      by_cases hconf : Confused baseline current
      · have hsnap := hstale hconf
        by_cases hread : ∃ q ∈ polls, q.users.isSome = true
        · -- the next poll that reads the file compares with the wrong list
          refine iff_of_false ?_ fun h => h.1 hread current rfl hconf
          intro hall
          obtain ⟨u, hua, hub⟩ := hconf.ne
          have hne : ∃ u, ¬ (u ∈ current ↔ u ∈ baseline) := ⟨u, fun h => hub (h.mpr hua)⟩
          obtain ⟨before, q, after, hpolls, hnot⟩ := not_reported_of_stale cfg hread hne
          refine hnot ?_
          have := hall before q after hpolls
          simpa [usersAfter, snapshotAfter, hsnap, hp] using this
        · refine iff_of_true ?_ ⟨fun h => absurd h hread, ?_⟩
          · intro before q after hpolls
            have := reported_of_unread cfg baseline current hread before q after hpolls
            simpa [usersAfter, snapshotAfter, hsnap, hp] using this
          · rintro before q after rfl ⟨x, hx, hsome⟩
            exact absurd ⟨x, by simp [hx], hsome⟩ hread
      · have hsnap := hfresh hconf
        constructor
        · intro hall
          refine ⟨fun _ c hc => by cases hc; exact hconf, ?_⟩
          have := hrest.mp (by simpa [usersAfter, snapshotAfter, hsnap, hp] using hall)
          simpa [usersAfter, hp] using this
        · rintro ⟨-, hall⟩
          have := hrest.mpr (by simpa [usersAfter, hp] using hall)
          simpa [usersAfter, snapshotAfter, hsnap, hp] using this

/-- `/etc/passwd` with a second user of uid 0, and with an ordinary one in its place. -/
def passwdBefore : Str := "root:x:0:0::/root:/bin/sh\ntoor:x:0:0::/root:/bin/sh\n".toList
def passwdAfter : Str := "root:x:0:0::/root:/bin/sh\nops:x:1000:1000::/:/bin/sh\n".toList

noncomputable def pollAfter : PasswdPoll := ⟨0, some passwdAfter, fun _ => [], someRange, someRange⟩

/-- The user `toor` is deleted. The first poll reports it, and so does the second, which
sees no change. -/
theorem toor_deleted_twice : ∃ before current : Users,
    currentPasswdUsers (some passwdBefore) = some before ∧ pollAfter.users = some current ∧
    usersAfter before [pollAfter] = current ∧ "toor".toList ∉ current ∧
    reports .systemUserDeleted "toor".toList (pollPasswd ⟨⟨[], []⟩, ⟨[], []⟩⟩ before pollAfter).1 = 1 ∧
    reports .systemUserDeleted "toor".toList (pollPasswd ⟨⟨[], []⟩, ⟨[], []⟩⟩
      (snapshotAfter ⟨⟨[], []⟩, ⟨[], []⟩⟩ before [pollAfter]) pollAfter).1 = 1 := by
  obtain ⟨before, current, hbefore, hcurrent, hin, hout, hequal⟩ : ∃ before current : Users,
      currentPasswdUsers (some passwdBefore) = some before ∧
      currentPasswdUsers (some passwdAfter) = some current ∧ "toor".toList ∈ before ∧
      "toor".toList ∉ current ∧ passwdEqual before current = true :=
    ⟨_, _, rfl, rfl, by decide +kernel, by decide +kernel, by decide +kernel⟩
  have husers : pollAfter.users = some current := hcurrent
  have hreport := poll_reported ⟨⟨[], []⟩, ⟨[], []⟩⟩ before pollAfter
  rw [husers] at hreport
  have hone := (hreport "toor".toList).2
  rw [if_pos ⟨hin, hout⟩] at hone
  have hstale : snapshotAfter ⟨⟨[], []⟩, ⟨[], []⟩⟩ before [pollAfter] = before := by
    simp [snapshotAfter, pollPasswd, husers, hequal]
  refine ⟨before, current, hbefore, husers, ?_, hout, hone, ?_⟩
  · simp [usersAfter, husers]
  · rw [hstale]
    exact hone

end YominsAgent.Events
