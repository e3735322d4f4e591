import YominsAgent.Events.WtmpReplay
import YominsAgent.Go.JsonMap

/- `checkNewIP` over the logins of a host (`events/auth/collector.go`), with the state it
   keeps through restarts in `auth_last_ip.json`.

   The state has one address per user, that of the last login. A login is reported when
   its address is another one, also when the user has come from there before:
   `checkNewIP_fires_iff` says that this is the only way in which a report and the
   question "was this address seen before" come apart.

   Correspondence (Go ↔ Lean):
     `loadLastIPByUser`, `saveLastIPByUser` ↔ the functions of that name; the state
                                               directory is set and its files are written
     `map[string]string` in JSON            ↔ `Json.decodeMap`, `Json.encodeMap`
   A name that is not UTF-8 is written with U+FFFD in place of its bad bytes. -/
namespace YominsAgent.Events
open Go List Option

/-! ## The state file -/

def saveLastIPByUser (m : Map Bytes Bytes) : Bytes :=
  toBytes (Json.print (Json.encodeMap (fun v => .str (toText v)) m))

/-- A file that is missing or does not parse is an empty state. -/
def loadLastIPByUser (file : Option Bytes) : Map Bytes Bytes :=
  ((file.bind fun data => Json.parse (toText data)).bind
    (Json.decodeMap [] Json.decodeBytes ∅)).getD ∅

def IsUtf8 (b : Bytes) : Prop := toBytes (toText b) = b

instance : DecidablePred IsUtf8 := fun b => inferInstanceAs (Decidable (toBytes (toText b) = b))

/-- A state of UTF-8 names comes back as it was saved. -/
theorem load_save {m : Map Bytes Bytes} (h : ∀ k v, m.lookup k = some v → IsUtf8 k ∧ IsUtf8 v) :
    loadLastIPByUser (some (saveLastIPByUser m)) = m := by
  have hwritten : Json.Written Json.maxNestingDepth (Json.encodeMap (fun v => .str (toText v)) m) :=
    Json.written_encodeMap (d := 9999) fun _ => .str _
  rw [loadLastIPByUser, saveLastIPByUser, Option.bind_some, toText_toBytes,
    Json.parse_written hwritten, Option.bind_some, Json.decodeMap_encodeMap, Option.getD_some]
  intro k v hv
  exact ⟨validString_iff.mpr (h k v hv).1, congrArg some (h k v hv).2⟩

/-! ## Logins and restarts -/

inductive IPEvent where
  | login (r : ParsedRecord) (id : Str) (now : Int)
  | restart

/-- The state in memory and the file. -/
structure IPState where
  ips : Map Bytes Bytes := ∅
  file : Option Bytes := none

section
variable (cfg : WtmpConfig)

/-- The login has an address, and not one that is passed over. -/
def counts (r : ParsedRecord) : Bool :=
  r.host ≠ [] && !(cfg.ignorePrivateIP && cfg.isPrivateIP r.host)

def ipStep (s : IPState) : IPEvent → IPState
  | .login r id now =>
    if counts cfg r then
      let ips := (checkNewIP cfg s.ips id now r).2
      ⟨ips, some (saveLastIPByUser ips)⟩
    else s
  | .restart => { s with ips := loadLastIPByUser s.file }

/-- The state after these events, on a host that had none. -/
def afterEvents (h : List IPEvent) : IPState := h.foldl (ipStep cfg) {}

/-- The login makes a `login_new_ip` event. -/
def fires (s : IPState) (r : ParsedRecord) (id : Str) (now : Int) : Prop :=
  (checkNewIP cfg s.ips id now r).1.isSome = true

end

/-- The addresses a user has come from, in order. -/
def cameFrom (h : List IPEvent) (user : Bytes) : List Bytes :=
  h.filterMap fun
    | .login r _ _ => if r.user = user then some r.host else none
    | .restart => none

theorem cameFrom_append (h h' : List IPEvent) (user : Bytes) :
    cameFrom (h ++ h') user = cameFrom h user ++ cameFrom h' user := filterMap_append

/-- The names in the file survive a restart. -/
def Survives (h : List IPEvent) : Prop :=
  .restart ∉ h ∨ ∀ r id now, .login r id now ∈ h → IsUtf8 r.user ∧ IsUtf8 r.host

section
variable {cfg : WtmpConfig} {r : ParsedRecord} {h : List IPEvent} {s : IPState}

theorem checkNewIP_of_counts (hr : counts cfg r = true) (ips : Map Bytes Bytes) (id : Str)
    (now : Int) :
    checkNewIP cfg ips id now r =
      (match ips.lookup r.user with
        | none => none
        | some prev => if prev = r.host then none else some (newIPEvent cfg id now r prev),
       ips.insert r.user r.host) := by
  simp only [counts, Bool.and_eq_true, decide_eq_true_eq, Bool.not_eq_true'] at hr
  exact (if_neg hr.1).trans (if_neg (Bool.eq_false_iff.mp hr.2))

/-- What the state and the file hold after a history: the address each user came from
last. -/
structure Remembers (s : IPState) (h : List IPEvent) : Prop where
  last : ∀ user, s.ips.lookup user = (cameFrom h user).getLast?
  file : (∀ r id now, .login r id now ∈ h → IsUtf8 r.user ∧ IsUtf8 r.host) →
    loadLastIPByUser s.file = s.ips

theorem mem_cameFrom {user ip : Bytes} (hip : ip ∈ cameFrom h user) :
    ∃ r id now, .login r id now ∈ h ∧ r.user = user ∧ r.host = ip := by
  obtain ⟨e, he, hsome⟩ := mem_filterMap.mp hip
  cases e with
  | restart => cases hsome
  | login r id now =>
    simp only [ite_none_right_eq_some, some.injEq] at hsome
    exact ⟨r, id, now, he, hsome.1, hsome.2⟩

theorem Remembers.login (hs : Remembers s h) (id : Str) (now : Int) (hr : counts cfg r = true) :
    Remembers (ipStep cfg s (.login r id now)) (h ++ [.login r id now]) := by
  have hstep : ipStep cfg s (.login r id now) =
      ⟨s.ips.insert r.user r.host, some (saveLastIPByUser (s.ips.insert r.user r.host))⟩ := by
    simp only [ipStep, if_pos hr, checkNewIP_of_counts hr]
  have hlast : ∀ user, (s.ips.insert r.user r.host).lookup user =
      (cameFrom (h ++ [.login r id now]) user).getLast? := by
    intro user
    by_cases hu : r.user = user
    · subst hu
      simp [cameFrom]
    · rw [Finmap.lookup_insert_of_ne _ (Ne.symm hu), hs.last]
      simp [cameFrom, hu]
  rw [hstep]
  refine ⟨hlast, fun hutf => load_save fun k v hkv => ?_⟩
  rw [hlast] at hkv
  obtain ⟨r', id', now', hmem, rfl, rfl⟩ := mem_cameFrom (mem_of_getLast? hkv)
  exact hutf r' id' now' hmem

theorem Remembers.restart (cfg : WtmpConfig) (hs : Remembers s h)
    (hutf : ∀ r id now, .login r id now ∈ h → IsUtf8 r.user ∧ IsUtf8 r.host) :
    Remembers (ipStep cfg s .restart) (h ++ [.restart]) := by
  have hips : loadLastIPByUser s.file = s.ips := hs.file hutf
  refine ⟨fun user => ?_, fun _ => rfl⟩
  rw [cameFrom_append]
  simp only [ipStep, hips, hs.last]
  simp [cameFrom]

/-- Every history in which the names survive the restarts is remembered by its last
addresses. -/
theorem remembers_afterEvents (h : List IPEvent)
    (hlogins : ∀ r id now, .login r id now ∈ h → counts cfg r = true) (hsurv : Survives h) :
    Remembers (afterEvents cfg h) h := by
  induction h using reverseRecOn with
  | nil =>
    refine ⟨fun user => ?_, fun _ => rfl⟩
    rw [afterEvents, foldl_nil, Finmap.lookup_empty]
    rfl
  | append_singleton h e ih =>
    have hmem : ∀ {x}, x ∈ h → x ∈ h ++ [e] := fun hx => mem_append_left _ hx
    have hsurv' : Survives h := by
      rcases hsurv with hr | hutf
      · exact .inl fun hx => hr (hmem hx)
      · exact .inr fun r id now hx => hutf r id now (hmem hx)
    have hs := ih (fun r id now hx => hlogins r id now (hmem hx)) hsurv'
    have hlast : e ∈ h ++ [e] := mem_append_right h (mem_singleton_self e)
    rw [afterEvents, foldl_append]
    cases e with
    | login r id now => exact hs.login id now (hlogins r id now hlast)
    | restart =>
      rcases hsurv with hr | hutf
      · exact absurd hlast hr
      · exact hs.restart cfg fun r id now hx => hutf r id now (hmem hx)

/-- A login is reported exactly when the user came from another address last. -/
theorem fires_iff_last (hs : Remembers s h) (hr : counts cfg r = true) (id : Str) (now : Int) :
    fires cfg s r id now ↔ ∃ prev, (cameFrom h r.user).getLast? = some prev ∧ prev ≠ r.host := by
  rw [fires, checkNewIP_of_counts hr, hs.last]
  cases (cameFrom h r.user).getLast? with
  | none => simp
  | some prev => by_cases hp : prev = r.host <;> simp [hp]

/-- After every history of logins and restarts, the next login is reported exactly when
the user has logged in before and never from that address, if and only if the address is
a new one or that of the user's last login. -/
theorem checkNewIP_fires_iff (h : List IPEvent) (r : ParsedRecord) (id : Str) (now : Int)
    (hlogins : ∀ r id now, .login r id now ∈ h → counts cfg r = true)
    (hr : counts cfg r = true) (hsurv : Survives h) :
    (fires cfg (afterEvents cfg h) r id now ↔
        cameFrom h r.user ≠ [] ∧ r.host ∉ cameFrom h r.user) ↔
      (r.host ∈ cameFrom h r.user → (cameFrom h r.user).getLast? = some r.host) := by
  rw [fires_iff_last (remembers_afterEvents h hlogins hsurv) hr]
  cases hlast : (cameFrom h r.user).getLast? with
  | none =>
    rw [getLast?_eq_none_iff] at hlast
    simp [hlast]
  | some prev =>
    have hprev : prev ∈ cameFrom h r.user := mem_of_getLast? hlast
    have hne : cameFrom h r.user ≠ [] := ne_nil_of_mem hprev
    have hfires : (∃ p, some prev = some p ∧ p ≠ r.host) ↔ prev ≠ r.host := by simp
    rw [hfires, some.injEq]
    constructor
    · intro hiff hip
      by_contra hp
      exact (hiff.mp hp).2 hip
    · intro himp
      constructor
      · exact fun hp => ⟨hne, fun hip => hp (himp hip)⟩
      · rintro ⟨-, hip⟩ rfl
        exact hip hprev

end

/-- A login of one user. -/
def loginFrom (host : Bytes) : ParsedRecord :=
  ⟨utUserProcess, 1, [], toBytes "root".toList, host, 0⟩

/-- A host that the user comes from every day, a single login from elsewhere with a
restart after it, and the usual host again. -/
def backAgain : List IPEvent :=
  [.login (loginFrom [49]) [] 0, .login (loginFrom [50]) [] 1, .restart]

/-- The login from the second host, before the restart, is reported as it should be. -/
theorem second_host_reported :
    (fires wtmpConfig (afterEvents wtmpConfig (backAgain.take 1)) (loginFrom [50]) [] 1 ↔
      cameFrom (backAgain.take 1) (loginFrom [50]).user ≠ [] ∧
        (loginFrom [50]).host ∉ cameFrom (backAgain.take 1) (loginFrom [50]).user) := by
  refine (checkNewIP_fires_iff (backAgain.take 1) (loginFrom [50]) [] 1 ?_ rfl ?_).mpr ?_
  · intro r id now hr
    cases mem_singleton.mp hr
    rfl
  · exact .inl (by simp [backAgain])
  · decide

/-- The usual host is reported as new. -/
theorem usual_host_reported :
    cameFrom backAgain (loginFrom [49]).user = [[49], [50]] ∧
    fires wtmpConfig (afterEvents wtmpConfig backAgain) (loginFrom [49]) [] 2 := by
  refine ⟨by decide, (fires_iff_last (remembers_afterEvents backAgain ?_ ?_) rfl [] 2).mpr
    ⟨[50], by decide, by decide⟩⟩
  · intro r id now hr
    simp only [backAgain, mem_cons, not_mem_nil, or_false, IPEvent.login.injEq,
      reduceCtorEq] at hr
    rcases hr with ⟨rfl, -⟩ | ⟨rfl, -⟩ <;> rfl
  · refine .inr fun r id now hr => ?_
    simp only [backAgain, mem_cons, not_mem_nil, or_false, IPEvent.login.injEq,
      reduceCtorEq] at hr
    rcases hr with ⟨rfl, -⟩ | ⟨rfl, -⟩ <;> decide

end YominsAgent.Events
