import Mathlib.Data.List.Infix
import YominsAgent.Go.Utf8

/- The FastCGI client (`internal/integrations/fastcgi.go`): how the records of an answer
   become the page.

   A server cuts its output as it likes, pads the records and puts others between them.
   `fcgiGet` collects what the records for the standard output hold and looks for the
   headers when the request ends, so the cut does not show (`fcgiGet_reassembles`).

   Correspondence (Go ↔ Lean):
     the loop of `fcgiGet`           ↔ `fcgiLoop`; what the connection brings until it is
                                       closed is the list it reads from
     its `case fcgiEndRequest`       ↔ `fcgiPage`
     `io.ReadFull`, twice            ↔ `readRecord`
     `bytes.Index`, `bytes.Contains` ↔ `index`, `containsBytes`
   The dialing, the deadline and the request that is sent are left out. -/
namespace YominsAgent.Integrations
open Go List

def fcgiVersion : UInt8 := 1
def fcgiEndRequest : UInt8 := 3
def fcgiStdout : UInt8 := 6

def fcgiRecord (typ : UInt8) (content : Bytes) : Bytes :=
  let pad := (8 - content.length % 8) % 8
  [fcgiVersion, typ, 0, 1, UInt8.ofNat (content.length / 2 ^ 8), UInt8.ofNat content.length,
    UInt8.ofNat pad, 0] ++ content ++ List.replicate pad 0

/-- The header of a record and its body; the type, the content and what follows. -/
def readRecord : Bytes → Option (UInt8 × Bytes × Bytes)
  | _ :: typ :: _ :: _ :: hi :: lo :: pad :: _ :: rest =>
    let length := 2 ^ 8 * hi.toNat + lo.toNat
    let n := length + pad.toNat
    if n ≤ rest.length then some (typ, (rest.take n).take length, rest.drop n) else none
  | _ => none

inductive FcgiError where
  /-- The connection was closed before the request had ended. -/
  | read
  /-- `status page not enabled` -/
  | notEnabled
  deriving DecidableEq, Repr

def index (sep : Bytes) : Bytes → Option Nat
  | [] => if sep.isEmpty then some 0 else none
  | x :: b => if sep.isPrefixOf (x :: b) then some 0 else (index sep b).map (· + 1)

def containsBytes (b sub : Bytes) : Bool := (index sub b).isSome

def blankLine : Bytes := toBytes "\r\n\r\n".toList
def status404 : Bytes := toBytes "Status: 404".toList
def status403 : Bytes := toBytes "Status: 403".toList

def fcgiPage (out : Bytes) : Except FcgiError Bytes :=
  match index blankLine out with
  | some i =>
    let head := out.take i
    if containsBytes head status404 || containsBytes head status403 then .error .notEnabled
    else .ok (out.drop (i + 4))
  | none => .ok out

/-- Every record takes bytes, so the fuel of `fcgiGet` does not run out. -/
def fcgiLoop : Nat → Bytes → Bytes → Except FcgiError Bytes
  | 0, _, _ => .error .read
  | fuel + 1, stdout, stream =>
    match readRecord stream with
    | none => .error .read
    | some (typ, content, rest) =>
      if typ = fcgiStdout then fcgiLoop fuel (stdout ++ content) rest
      else if typ = fcgiEndRequest then fcgiPage stdout
      else fcgiLoop fuel stdout rest

def fcgiGet (stream : Bytes) : Except FcgiError Bytes := fcgiLoop (stream.length + 1) [] stream

/-! ## Records of a server -/

/-- A record: the content and the padding fit their fields, the rest is free. -/
structure FcgiRecord where
  typ : UInt8
  content : Bytes
  padding : Bytes
  version : UInt8
  idHi : UInt8
  idLo : UInt8
  reserved : UInt8
  content_lt : content.length < 2 ^ 16
  padding_lt : padding.length < 2 ^ 8

def FcgiRecord.encode (r : FcgiRecord) : Bytes :=
  [r.version, r.typ, r.idHi, r.idLo, UInt8.ofNat (r.content.length / 2 ^ 8),
    UInt8.ofNat r.content.length, UInt8.ofNat r.padding.length, r.reserved] ++
    (r.content ++ r.padding)

/-- What the records for the standard output hold together. -/
def stdoutOf (rs : List FcgiRecord) : Bytes :=
  (rs.filter (·.typ = fcgiStdout)).flatMap (·.content)

theorem readRecord_header {a t b c d : UInt8} {n p : Nat} (hn : n < 2 ^ 16) (hp : p < 2 ^ 8)
    (rest : Bytes) :
    readRecord (a :: t :: b :: c :: UInt8.ofNat (n / 2 ^ 8) :: UInt8.ofNat n :: UInt8.ofNat p ::
      d :: rest) =
      if n + p ≤ rest.length then some (t, rest.take n, rest.drop (n + p)) else none := by
  have hlen : 2 ^ 8 * (UInt8.ofNat (n / 2 ^ 8)).toNat + (UInt8.ofNat n).toNat = n := by
    rw [UInt8.toNat_ofNat', UInt8.toNat_ofNat']
    omega
  have hpad : (UInt8.ofNat p).toNat = p := toNat_ofNat_byte hp
  simp only [readRecord, hlen, hpad, take_take, Nat.min_eq_left (Nat.le_add_right n p)]

theorem readRecord_encode (r : FcgiRecord) (rest : Bytes) :
    readRecord (r.encode ++ rest) = some (r.typ, r.content, rest) := by
  rw [FcgiRecord.encode]
  simp only [cons_append, readRecord_header r.content_lt r.padding_lt]
  simp

theorem readRecord_fcgiRecord (typ : UInt8) {content : Bytes} (h : content.length ≤ 65535)
    (rest : Bytes) : readRecord (fcgiRecord typ content ++ rest) = some (typ, content, rest) := by
  rw [fcgiRecord]
  simp only [cons_append]
  rw [readRecord_header (by omega) (by omega)]
  simp

theorem readRecord_cut (r : FcgiRecord) {k : Nat} (h : k < r.encode.length) :
    readRecord (r.encode.take k) = none := by
  rcases Nat.lt_or_ge k 8 with hk | hk
  · match k, hk with
    | 0, _ | 1, _ | 2, _ | 3, _ | 4, _ | 5, _ | 6, _ | 7, _ => rfl
  · obtain ⟨j, rfl⟩ := Nat.exists_eq_add_of_le' hk
    simp only [FcgiRecord.encode, length_append, length_cons, length_nil] at h
    simp only [FcgiRecord.encode, cons_append, nil_append, take_succ_cons,
      readRecord_header r.content_lt r.padding_lt]
    refine if_neg ?_
    rw [length_take]
    omega

/-! ## The loop -/

section Loop
variable {rs : List FcgiRecord} {out stream : Bytes}

theorem stdoutOf_cons (r : FcgiRecord) (rs : List FcgiRecord) :
    stdoutOf (r :: rs) = (if r.typ = fcgiStdout then r.content else []) ++ stdoutOf rs := by
  rw [stdoutOf, filter_cons]
  split <;> simp_all [stdoutOf]

section
variable (h : ∀ r ∈ rs, r.typ ≠ fcgiEndRequest)
include h

theorem fcgiLoop_records (fuel : Nat) :
    fcgiLoop (rs.length + fuel) out (rs.flatMap FcgiRecord.encode ++ stream) =
      fcgiLoop fuel (out ++ stdoutOf rs) stream := by
  induction rs generalizing out with
  | nil => simp [stdoutOf]
  | cons r rs ih =>
    rw [forall_mem_cons] at h
    rw [length_cons, Nat.add_right_comm, flatMap_cons, append_assoc, fcgiLoop,
      readRecord_encode, stdoutOf_cons, ← append_assoc]
    by_cases hr : r.typ = fcgiStdout
    · simp only [if_pos hr, ih h.2]
    · simp only [if_neg hr, if_neg h.1, append_nil, ih h.2]

/-- Records without the end of the request only add to what the rest is read with. -/
theorem fcgiGet_records : ∃ fuel,
    fcgiGet (rs.flatMap FcgiRecord.encode ++ stream) = fcgiLoop (fuel + 1) (stdoutOf rs) stream := by
  have hlen : rs.length ≤ (rs.flatMap FcgiRecord.encode).length := by
    clear h
    induction rs with
    | nil => exact Nat.le_refl 0
    | cons r rs ih =>
      rw [flatMap_cons, length_append, length_cons, FcgiRecord.encode, length_append]
      simp only [length_cons]
      omega
  obtain ⟨n, hn⟩ := Nat.exists_eq_add_of_le hlen
  refine ⟨n + stream.length, ?_⟩
  rw [fcgiGet, length_append, hn, Nat.add_assoc, Nat.add_assoc, fcgiLoop_records h]
  rfl

theorem fcgiGet_ended {last : FcgiRecord} (hlast : last.typ = fcgiEndRequest) (after : Bytes) :
    fcgiGet (rs.flatMap FcgiRecord.encode ++ (last.encode ++ after)) = fcgiPage (stdoutOf rs) := by
  obtain ⟨fuel, hfuel⟩ := @fcgiGet_records _ (last.encode ++ after) h
  rw [hfuel, fcgiLoop, readRecord_encode]
  simp only [hlast]
  rfl

theorem fcgiGet_cut (next : FcgiRecord) {k : Nat} (hk : k < next.encode.length) :
    fcgiGet (rs.flatMap FcgiRecord.encode ++ next.encode.take k) = .error .read := by
  obtain ⟨fuel, hfuel⟩ := @fcgiGet_records _ (next.encode.take k) h
  rw [hfuel, fcgiLoop, readRecord_cut next hk]

end

end Loop

/-! ## The page -/

section Page
variable {sep b head body : Bytes}

theorem index_append (hfirst : ∀ k < head.length, ¬ sep <+: (head ++ (sep ++ body)).drop k) :
    index sep (head ++ (sep ++ body)) = some head.length := by
  induction head with
  | nil =>
    rw [nil_append]
    cases hall : sep ++ body with
    | nil => rw [(append_eq_nil_iff.mp hall).1]; rfl
    | cons x b =>
      have hpre : sep.isPrefixOf (x :: b) = true :=
        isPrefixOf_iff_prefix.mpr (hall ▸ prefix_append sep body)
      rw [index, if_pos hpre]
      rfl
  | cons x head ih =>
    have hno : ¬ sep.isPrefixOf (x :: (head ++ (sep ++ body))) = true := fun hpre =>
      hfirst 0 (Nat.succ_pos _) (List.isPrefixOf_iff_prefix.mp hpre)
    have hrest := ih fun k hk => hfirst (k + 1) (Nat.succ_lt_succ hk)
    rw [cons_append, index, if_neg hno, hrest]
    rfl

theorem containsBytes_iff : containsBytes b sep = true ↔ sep <:+: b := by
  rw [containsBytes]
  induction b with
  | nil => cases sep <;> simp [index]
  | cons x b ih =>
    rw [index, infix_cons_iff, ← isPrefixOf_iff_prefix, ← ih]
    split
    · next hpre => simp [hpre]
    · next hpre => simp [hpre]

theorem fcgiPage_headers
    (hfirst : ∀ k < head.length, ¬ blankLine <+: (head ++ (blankLine ++ body)).drop k) :
    fcgiPage (head ++ (blankLine ++ body)) =
      if status404 <:+: head ∨ status403 <:+: head then .error .notEnabled else .ok body := by
  have hbody : (head ++ (blankLine ++ body)).drop (head.length + 4) = body := by
    rw [drop_length_add_append]
    rfl
  simp only [fcgiPage, index_append hfirst, take_left, Bool.or_eq_true, containsBytes_iff, hbody]

/-- Whatever way the answer is cut into records, with whatever padding and records between
them, the page is the same: what stands behind the first blank line, or the error for the
status in the headers. A connection that is closed earlier is an error, and the records of
the agent are read as they were written. -/
theorem fcgiGet_reassembles :
    (∀ (rs : List FcgiRecord) (last : FcgiRecord) (after head body : Bytes),
      (∀ r ∈ rs, r.typ ≠ fcgiEndRequest) → last.typ = fcgiEndRequest →
      stdoutOf rs = head ++ (blankLine ++ body) →
      (∀ k < head.length, ¬ blankLine <+: (head ++ (blankLine ++ body)).drop k) →
      fcgiGet (rs.flatMap FcgiRecord.encode ++ (last.encode ++ after)) =
        if status404 <:+: head ∨ status403 <:+: head then .error .notEnabled else .ok body) ∧
    (∀ (rs : List FcgiRecord) (one last : FcgiRecord) (after : Bytes),
      (∀ r ∈ rs, r.typ ≠ fcgiEndRequest) → last.typ = fcgiEndRequest →
      one.typ = fcgiStdout → stdoutOf rs = one.content →
      fcgiGet (rs.flatMap FcgiRecord.encode ++ (last.encode ++ after)) =
        fcgiGet (one.encode ++ (last.encode ++ after))) ∧
    (∀ (rs : List FcgiRecord) (next : FcgiRecord) (k : Nat),
      (∀ r ∈ rs, r.typ ≠ fcgiEndRequest) → k < next.encode.length →
      fcgiGet (rs.flatMap FcgiRecord.encode ++ next.encode.take k) = .error .read) ∧
    ∀ (typ : UInt8) (content rest : Bytes), content.length ≤ 65535 →
      readRecord (fcgiRecord typ content ++ rest) = some (typ, content, rest) := by
  refine ⟨?_, ?_, fun rs next k h hk => fcgiGet_cut h next hk,
    fun typ content rest h => readRecord_fcgiRecord typ h rest⟩
  · intro rs last after head body h hlast hout hfirst
    rw [fcgiGet_ended h hlast, hout, fcgiPage_headers hfirst]
  · intro rs one last after h hlast hone hout
    have hsingle : ∀ r ∈ [one], r.typ ≠ fcgiEndRequest := by
      rw [forall_mem_singleton, hone]
      decide
    have hpage := fcgiGet_ended hsingle hlast after
    rw [flatMap_singleton] at hpage
    rw [fcgiGet_ended h hlast, hpage, hout, stdoutOf_cons, if_pos hone]
    exact congrArg fcgiPage (append_nil _).symm

end Page

/-- The headers are `X:y`. Their blank line ends in the second record for the standard output, and
one for the errors stands between. -/
def straddling : List FcgiRecord :=
  [⟨fcgiStdout, [88, 58, 121, 13, 10, 13], [0, 0], 1, 0, 1, 0, by decide, by decide⟩,
   ⟨7, [33], [], 1, 0, 1, 0, by decide, by decide⟩,
   ⟨fcgiStdout, [10, 111, 107], [0], 1, 0, 1, 0, by decide, by decide⟩]

def ended : FcgiRecord :=
  ⟨fcgiEndRequest, List.replicate 8 0, [], 1, 0, 1, 0, by decide, by decide⟩

theorem straddling_page :
    fcgiGet (straddling.flatMap FcgiRecord.encode ++ (ended.encode ++ [])) = .ok [111, 107] ∧
    fcgiGet (straddling.flatMap FcgiRecord.encode ++ ended.encode.take 15) = .error .read := by
  refine ⟨?_, fcgiGet_reassembles.2.2.1 straddling ended 15 (by decide) (by decide)⟩
  rw [fcgiGet_reassembles.1 straddling ended [] [88, 58, 121] [111, 107] (by decide) rfl
    (by decide) (by decide)]
  exact if_neg (by decide)

end YominsAgent.Integrations
