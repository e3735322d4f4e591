import Mathlib.Data.List.Induction
import YominsAgent.Go.Utf8

/- What the transports share about the server (`internal/transport/session.go`):
   whether it currently rejects this agent and until when pushes are paused.
   Times and durations are nanoseconds; the zero `time.Time` of a
   session that is not paused is `none`. `slog` calls have no effect here.

   Correspondence (Go ↔ Lean):
     an `*http.Response` ↔ `Response` -/
namespace YominsAgent.Transport
open Go List

def minPause : Int := minute
def maxPause : Int := 30 * minute

/-- What the code reads of an HTTP response. -/
structure Response where
  status : Nat
  /-- `X-Yomins-Reason` -/
  reason : Str
  /-- `Retry-After` -/
  retryAfterHeader : Str
  /-- `X-Yomins-Accept-Encoding` -/
  acceptEncoding : Str
  body : Bytes
  deriving DecidableEq, Repr

structure RejectedError where
  status : Nat
  reason : Str
  retryAfter : Int
  deriving DecidableEq, Repr

structure Session where
  «until» : Option Int
  pause : Int
  reason : Str
  gzipOK : Bool
  deriving DecidableEq, Repr

/-- A session that pushes freely and sends plain bodies. -/
def newSession : Session := ⟨none, 0, [], false⟩

/-- `http.StatusText` at the two codes `rejection` asks it about. -/
def statusText : Nat → Str
  | 401 => "Unauthorized".toList
  | 403 => "Forbidden".toList
  | _ => []

/-- A `Retry-After` header given in seconds (0 if absent). -/
def retryAfter (resp : Response) : Int :=
  let v := trimSpace resp.retryAfterHeader
  if v.isEmpty then 0
  else match atoi v with
    | none => 0
    | some n => if n ≤ 0 then 0 else wrap64 (n * second)

/-- The `RejectedError` for a 401/403 response; older servers explain in the
body only. -/
def rejection (resp : Response) : RejectedError :=
  let reason := resp.reason
  let reason := if reason.isEmpty then trimSpace (toText (resp.body.take 256)) else reason
  let reason := if reason.isEmpty then statusText resp.status else reason
  ⟨resp.status, reason, retryAfter resp⟩

namespace Session

/-- Whether pushes must be skipped at `now`. -/
def paused (s : Session) (now : Int) : Bool :=
  match s.until with
  | none => false
  | some u => now < u

/-- How long a rejection pauses: `Retry-After` when the server gave one,
otherwise a pause that doubles on every rejection in a row. -/
def pauseFor (s : Session) (e : RejectedError) : Int :=
  if e.retryAfter ≤ 0 then min (max (wrap64 (s.pause * 2)) minPause) maxPause else e.retryAfter

def reject (s : Session) (e : RejectedError) (now : Int) : Session :=
  { s with «until» := some (now + s.pauseFor e), pause := s.pauseFor e, reason := e.reason }

/-- Records a successful push and what the response says about gzip. -/
def accepted (s : Session) (resp : Response) : Session :=
  { «until» := none
    pause := 0
    reason := []
    gzipOK := contains resp.acceptEncoding "gzip".toList || s.gzipOK }

@[simp] theorem paused_reject (s : Session) (e : RejectedError) (t now : Int) :
    (s.reject e t).paused now = decide (now < t + s.pauseFor e) := rfl

end Session

/-! ## How long a rejection pauses -/

theorem wrap64_eq_self {n : Int} (hlo : -2 ^ 63 ≤ n) (hhi : n < 2 ^ 63) : wrap64 n = n := by
  rw [wrap64]
  omega

/-- The session after these rejections, each with the time it came at. -/
def rejected (s : Session) (rs : List (Response × Int)) : Session :=
  rs.foldl (fun s r => s.reject (rejection r.1) r.2) s

theorem retryAfter_absent {resp : Response} (h : trimSpace resp.retryAfterHeader = []) :
    retryAfter resp = 0 := by
  simp [retryAfter, h]

theorem retryAfter_given {resp : Response} {n : Int}
    (h : atoi (trimSpace resp.retryAfterHeader) = some n) (hn : 0 < n) :
    retryAfter resp = wrap64 (n * second) := by
  have hne : trimSpace resp.retryAfterHeader ≠ [] := by
    intro hnil
    rw [hnil] at h
    cases h
  simp [retryAfter, h, hne, Int.not_le.mpr hn]

theorem pauseFor_absent (s : Session) {resp : Response}
    (h : trimSpace resp.retryAfterHeader = []) :
    s.pauseFor (rejection resp) = min (max (wrap64 (s.pause * 2)) minPause) maxPause :=
  if_pos (Int.le_of_eq (retryAfter_absent h))

theorem pauseFor_rejected (s : Session) (ok : Response) {rs : List (Response × Int)}
    (h : ∀ r ∈ rs, trimSpace r.1.retryAfterHeader = []) {next : Response}
    (hnext : trimSpace next.retryAfterHeader = []) :
    (rejected (s.accepted ok) rs).pauseFor (rejection next) =
      min (2 ^ rs.length * minute) (30 * minute) := by
  induction rs using reverseRecOn generalizing next with
  | nil =>
    rw [pauseFor_absent _ hnext]
    rfl
  | append_singleton rs r ih =>
    have hlast := ih (fun r' hr' => h r' (mem_append_left _ hr'))
      (h r (mem_append_right _ mem_cons_self))
    have hpause : (rejected (s.accepted ok) (rs ++ [r])).pause =
        min (2 ^ rs.length * minute) (30 * minute) := by
      rw [rejected, foldl_append]
      exact hlast
    rw [pauseFor_absent _ hnext, hpause, length_append, length_singleton]
    have hpos : (0 : Int) < 2 ^ rs.length := Int.pow_pos (by decide)
    rw [wrap64_eq_self (by simp only [minute, second]; omega) (by simp only [minute, second]; omega)]
    simp only [minPause, maxPause, minute, second]
    omega

/-- `Retry-After` is honoured exactly while its nanoseconds fit 64 bits, the session then
stays paused for that long, and without it the pauses after an acceptance double up to half
an hour. -/
theorem retryAfter_honoured_iff (resp : Response) {n : Int}
    (h : atoi (trimSpace resp.retryAfterHeader) = some n) (hn : 0 < n) :
    (retryAfter resp = min (n * second) (2 ^ 63 - 1) ↔ n * second < 2 ^ 63) ∧
    (n * second < 2 ^ 63 → ∀ (s : Session) (t now : Int), now < t + n * second →
      (s.reject (rejection resp) t).paused now = true) ∧
    ∀ (s : Session) (ok : Response) (rs : List (Response × Int)) (next : Response),
      (∀ r ∈ rs, trimSpace r.1.retryAfterHeader = []) → trimSpace next.retryAfterHeader = [] →
      (rejected (s.accepted ok) rs).pauseFor (rejection next) =
        min (2 ^ rs.length * minute) (30 * minute) := by
  have hval := retryAfter_given h hn
  have hpos : 0 < n * second := Int.mul_pos hn (by decide)
  refine ⟨?_, ?_, fun s ok _ _ hrs hnext => pauseFor_rejected s ok hrs hnext⟩
  · rw [hval]
    constructor
    · intro heq
      refine Int.not_le.mp fun hbig => ?_
      -- the largest duration is odd, a number of seconds is not
      rw [wrap64, second] at heq
      rw [second] at hbig
      omega
    · intro hfit
      rw [wrap64_eq_self (by omega) hfit]
      omega
  · intro hfit s t now hnow
    have hpause : s.pauseFor (rejection resp) = n * second := by
      have hwrap : retryAfter resp = n * second := by rw [hval, wrap64_eq_self (by omega) hfit]
      exact (if_neg (by show ¬ retryAfter resp ≤ 0; omega)).trans hwrap
    rw [Session.paused_reject, hpause, decide_eq_true hnow]

def forbidden (header : Str) : Response := ⟨403, [], header, [], []⟩

theorem retryAfter_honoured_two_minutes :
    (newSession.reject (rejection (forbidden " 120".toList)) 0).paused (119 * second) = true :=
  (retryAfter_honoured_iff (forbidden " 120".toList) (n := 120) (by decide) (by decide)).2.1
    (by decide) newSession 0 (119 * second) (by decide)

/-- A header of 292 years is taken for none, and one of 584 years for less than a second. -/
theorem retryAfter_wraps :
    retryAfter (forbidden "9223372037".toList) < 0 ∧
    (newSession.reject (rejection (forbidden "9223372037".toList)) 0).paused minute = false ∧
    0 < retryAfter (forbidden "18446744074".toList) ∧
    (newSession.reject (rejection (forbidden "18446744074".toList)) 0).paused second = false := by
  decide +kernel

end YominsAgent.Transport
