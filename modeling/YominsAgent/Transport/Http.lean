import YominsAgent.Transport.Session

/- One HTTP attempt of each transport: `HTTPTransport.do` (`http.go`), `EventHTTPTransport.doPost`
   (`events.go`) and `Poster.Post` (`post.go`). An attempt is the session's clock and what the
   client reports; it moves the session and returns what the caller branches on. The first two run
   as the operation of `backoff.RetryNotify`, which runs them again until they return nil or a
   permanent error or its time budget ends; `Post` is one attempt. -/
namespace YominsAgent.Transport
open Go

inductive Attempt where
  /-- `http.NewRequestWithContext` fails: the server's URL does not parse. -/
  | noRequest
  /-- `client.Do` fails: no answer, or the context ended. -/
  | network
  | answered (resp : Response)
  deriving DecidableEq, Repr

/-- The errors of the push and event transports. -/
inductive Failure where
  /-- `json.Marshal` fails on a batch. -/
  | marshal
  | createRequest
  | network
  | rejected (e : RejectedError)
  /-- `server returned %d` -/
  | status (code : Nat)
  /-- `badBatchError`: the batch itself is refused. -/
  | badBatch (code : Nat)
  deriving DecidableEq, Repr

/-- What an operation returns to `backoff.RetryNotify`. -/
inductive Outcome where
  | done
  | permanent (e : Failure)
  | retry (e : Failure)
  deriving DecidableEq, Repr

def ok2xx (status : Nat) : Bool := 200 ≤ status && status < 300

theorem ok2xx_iff {n : Nat} : ok2xx n = true ↔ 200 ≤ n ∧ n < 300 := by
  simp [ok2xx]

/-- 401/403: the server refuses this agent. -/
def refusesAgent (status : Nat) : Bool := status == 401 || status == 403

theorem refusesAgent_iff {n : Nat} : refusesAgent n = true ↔ n = 401 ∨ n = 403 := by
  simp [refusesAgent]

/-- The body `do` and `doPost` share: they differ in the error of a 4xx that
is neither a rejection nor a 429. -/
def attempt (bad : Nat → Failure) (s : Session) (now : Int) : Attempt → Session × Outcome
  | .noRequest => (s, .permanent .createRequest)
  | .network => (s, .retry .network)
  | .answered resp =>
    if ok2xx resp.status then (s.accepted resp, .done)
    else if refusesAgent resp.status then
      (s.reject (rejection resp) now, .permanent (.rejected (rejection resp)))
    else if 400 ≤ resp.status && resp.status < 500 && resp.status != 429 then
      (s, .permanent (bad resp.status))
    else (s, .retry (.status resp.status))

/-- `HTTPTransport.do`. -/
def do' : Session → Int → Attempt → Session × Outcome := attempt .status

/-- `EventHTTPTransport.doPost`. -/
def doPost : Session → Int → Attempt → Session × Outcome := attempt .badBatch

/-- What `Poster.Post` returns. -/
inductive PostResult where
  | ok
  | paused
  | rejected (e : RejectedError)
  | refused (status : Nat)
  | busy (status : Nat) (retryAfter : Int)
  | network
  deriving DecidableEq, Repr

/-- `Poster.Post` after its pause check (which returns `paused`). -/
def post (s : Session) (now : Int) : Attempt → Session × PostResult
  | .noRequest => (s, .refused 0)
  | .network => (s, .network)
  | .answered resp =>
    if ok2xx resp.status then (s.accepted resp, .ok)
    else if refusesAgent resp.status then
      (s.reject (rejection resp) now, .rejected (rejection resp))
    else if resp.status == 429 || 500 ≤ resp.status then
      (s, .busy resp.status (retryAfter resp))
    else (s, .refused resp.status)

/-- What an attempt does to the session, whichever transport makes it. -/
def settle (s : Session) (now : Int) : Attempt → Session
  | .answered resp =>
    if ok2xx resp.status then s.accepted resp
    else if refusesAgent resp.status then s.reject (rejection resp) now
    else s
  | _ => s

theorem attempt_fst (bad : Nat → Failure) (s : Session) (now : Int) (a : Attempt) :
    (attempt bad s now a).1 = settle s now a := by
  cases a with
  | noRequest => rfl
  | network => rfl
  | answered =>
    simp only [attempt, settle]
    split
    · rfl
    · split
      · rfl
      · split <;> rfl

theorem post_fst (s : Session) (now : Int) (a : Attempt) : (post s now a).1 = settle s now a := by
  cases a with
  | noRequest => rfl
  | network => rfl
  | answered =>
    simp only [post, settle]
    split
    · rfl
    · split
      · rfl
      · split <;> rfl

end YominsAgent.Transport
