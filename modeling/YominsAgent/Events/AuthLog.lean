import Mathlib.Data.List.Basic
import Mathlib.Data.List.GetD
import Mathlib.Data.List.Induction
import YominsAgent.Go.Utf8
import YominsAgent.Lib.Run

/- `runAuthLog` (`events/auth/collector.go`): the lines it reads from the auth log, while
   a writer appends to it and a rotation renames it.

   `ReadString` returns what is there at the end of the file as if it were a line, and
   the loop passes it on; after a rotation the old file is closed without a last read.
   In a run without these two (`carefulLog`) the lines passed on are the complete lines
   that were appended, each once, whole and in order: `authLog_lines`.

   Correspondence (Go ↔ Lean):
     `reader.ReadString('\n')`    ↔ `readString`
     the reading loop of one tick ↔ `readLines`, `AuthLabel.read`
     `os.Stat` and the comparison ↔ `AuthLabel.stat`
     `os.Open` after a rotation   ↔ `AuthLabel.reopen`
     calls of `parseAuthLogLine`  ↔ the field `passed`
   A file is its number, in the order of creation. The file system may move between
   `os.Stat`, `os.Open` and the reading. A reading loop ends with the first read that
   finds nothing, so it is one step at that time. -/
namespace YominsAgent.Events
open Go Lib List

/-! ## Lines -/

/-- `strings.TrimRight(line, "\r\n")`. -/
def trimEOL (line : Bytes) : Bytes :=
  (line.reverse.dropWhile fun b => b = 13 ∨ b = 10).reverse

/-- Up to the next newline, what follows, and whether the end came first. -/
def readString : Bytes → Bytes × Bytes × Bool
  | [] => ([], [], true)
  | b :: bs =>
    if b = 10 then ([b], bs, false)
    else
      let (line, rest, eof) := readString bs
      (b :: line, rest, eof)

def readLines : Nat → Bytes → List Bytes
  | 0, _ => []
  | fuel + 1, bs =>
    let (line, rest, eof) := readString bs
    (if line ≠ [] then [trimEOL line] else []) ++ if eof then [] else readLines fuel rest

def completeLines (bs : Bytes) : List Bytes := ((bs.splitOn 10).dropLast).map trimEOL

/-- Nothing, or bytes that end in a newline. -/
def endsLine (bs : Bytes) : Bool := bs.getLast?.all (· == 10)

theorem endsLine_iff {bs : Bytes} : endsLine bs = true ↔ bs = [] ∨ ∃ x, bs = x ++ [10] := by
  induction bs using reverseRecOn with
  | nil => simp [endsLine]
  | append_singleton => simp [endsLine]

theorem completeLines_append {a : Bytes} (ha : endsLine a = true) (b : Bytes) :
    completeLines (a ++ b) = completeLines a ++ completeLines b := by
  rcases endsLine_iff.mp ha with rfl | ⟨x, rfl⟩
  · rfl
  · have hx : completeLines (x ++ [10]) = (x.splitOn 10).map trimEOL := by
      rw [completeLines, splitOn_append_cons_self, splitOn_nil, dropLast_concat]
    rw [hx, completeLines, append_assoc, singleton_append,
      splitOn_append_cons_self, dropLast_append_of_ne_nil (splitOn_ne_nil 10 b),
      map_append, completeLines]

theorem endsLine_append {a b : Bytes} (ha : endsLine a = true) (hb : endsLine b = true) :
    endsLine (a ++ b) = true := by
  rcases endsLine_iff.mp hb with rfl | ⟨x, rfl⟩
  · rwa [append_nil]
  · exact endsLine_iff.mpr (.inr ⟨a ++ x, (append_assoc a x [10]).symm⟩)

theorem trimEOL_newline (line : Bytes) : trimEOL (line ++ [10]) = trimEOL line := by
  simp [trimEOL]

theorem readString_line {line : Bytes} (h : 10 ∉ line) (rest : Bytes) :
    readString (line ++ 10 :: rest) = (line ++ [10], rest, false) := by
  induction line with
  | nil => rfl
  | cons b line ih =>
    have hb : b ≠ 10 := fun hb => h (hb ▸ mem_cons_self)
    simp only [cons_append, readString, if_neg hb, ih fun hm => h (mem_cons_of_mem b hm)]

theorem completeLines_line {line : Bytes} (h : 10 ∉ line) (rest : Bytes) :
    completeLines (line ++ 10 :: rest) = trimEOL line :: completeLines rest := by
  rw [completeLines, splitOn_append_cons_self, splitOn_eq_singleton h,
    singleton_append, dropLast_cons_of_ne_nil (splitOn_ne_nil 10 rest),
    map_cons, completeLines]

theorem endsLine_of_append {a b : Bytes} (h : endsLine (a ++ b) = true) : endsLine b = true := by
  cases b with
  | nil => rfl
  | cons c b =>
    rwa [endsLine, getLast?_append_of_ne_nil a (cons_ne_nil c b)] at h

/-- Bytes that end in a newline are passed on line by line. -/
theorem readLines_endsLine {bs : Bytes} (h : endsLine bs = true) {fuel : Nat}
    (hf : bs.length < fuel) : readLines fuel bs = completeLines bs := by
  induction fuel generalizing bs with
  | zero => exact absurd hf (Nat.not_lt_zero _)
  | succ fuel ih =>
    by_cases hnew : 10 ∈ bs
    · obtain ⟨line, rest, rfl, hline⟩ := eq_append_cons_of_mem hnew
      have hrest : endsLine rest = true :=
        endsLine_of_append (a := line ++ [10]) (by simpa using h)
      have hlen : rest.length < fuel := by
        simp only [length_append, length_cons] at hf
        omega
      rw [completeLines_line hline, ← ih hrest hlen, readLines, readString_line hline]
      simp [trimEOL_newline]
    · rcases endsLine_iff.mp h with rfl | ⟨x, rfl⟩
      · rfl
      · exact absurd (by simp) hnew

/-! ## The files and the reader -/

/-- A file: what it held before the agent started, and what was added since. -/
structure AuthFile where
  before : Bytes := []
  added : Bytes := []
  deriving DecidableEq, Repr

def AuthFile.data (f : AuthFile) : Bytes := f.before ++ f.added

inductive AuthControl where
  | idle
  /-- `os.Stat` has seen this file in place of the one that is open. -/
  | reopening (inode : Nat)
  | reading
  /-- The path could not be opened, and `runAuthLog` has returned. -/
  | stopped
  deriving DecidableEq, Repr

structure AuthLog where
  rotated : List AuthFile := []
  /-- the file created last -/
  current : AuthFile
  /-- it is still at the path -/
  present : Bool := true
  /-- the open file, and the offset in it -/
  inode : Nat := 0
  pos : Nat
  prevInode : Nat := 0
  control : AuthControl := .idle
  /-- the lines given to `parseAuthLogLine` -/
  passed : List Bytes := []
  deriving DecidableEq, Repr

namespace AuthLog

/-- The agent starts: it seeks to the end. -/
def start (old : Bytes) : AuthLog := { current := { before := old }, pos := old.length }

def content (s : AuthLog) : Bytes := ((s.rotated ++ [s.current]).getD s.inode {}).data

def unread (s : AuthLog) : Bytes := s.content.drop s.pos

/-- The complete lines that were appended, file after file. -/
def appended (s : AuthLog) : List Bytes :=
  (s.rotated ++ [s.current]).flatMap fun f => completeLines f.added

end AuthLog

inductive AuthLabel where
  /-- The writer appends bytes to the file at the path. -/
  | append (chunk : Bytes)
  | rename
  | create
  | stat
  | reopen
  | read
  deriving DecidableEq, Repr

def authStep (s : AuthLog) : AuthLabel → Option AuthLog
  | .append chunk =>
    if s.present then
      some { s with current := { s.current with added := s.current.added ++ chunk } }
    else none
  | .rename => if s.present then some { s with present := false } else none
  | .create =>
    if s.present then none
    else some { s with rotated := s.rotated ++ [s.current], current := {}, present := true }
  | .stat =>
    match s.control with
    | .idle => some { s with
        control :=
          if s.present ∧ s.rotated.length ≠ s.prevInode then .reopening s.rotated.length
          else .reading }
    | _ => none
  | .reopen =>
    match s.control with
    | .reopening inode =>
      if s.present then
        some { s with
          inode := s.rotated.length, pos := 0, prevInode := inode, control := .reading }
      else some { s with control := .stopped }
    | _ => none
  | .read =>
    match s.control with
    | .reading => some { s with
        passed := s.passed ++ readLines (s.unread.length + 1) s.unread
        pos := s.pos + s.unread.length
        control := .idle }
    | _ => none

/-- A reading finds whole lines. When the file at the path is opened it is the one
`os.Stat` has seen and the one that followed the open file, of which no line is left. -/
def carefulLog (s : AuthLog) : AuthLabel → Bool
  | .read => endsLine s.unread
  | .reopen => s.present && s.control = .reopening s.rotated.length &&
      s.inode + 1 = s.rotated.length && completeLines s.unread = []
  | _ => true

/-- The steps of a tick while nothing else happens. -/
def tick (s : AuthLog) : List AuthLabel :=
  if s.present ∧ s.rotated.length ≠ s.prevInode then [.stat, .reopen, .read] else [.stat, .read]

/-! ## Careful runs -/

def linesOf (files : List AuthFile) : List Bytes := files.flatMap fun f => completeLines f.added

/-- The reader is in the file `f`, behind those of `files`; `taken` is what it has read
of the bytes added there. -/
structure Within (s : AuthLog) (files : List AuthFile) (f : AuthFile) (taken rest : Bytes) :
    Prop where
  inode : s.inode = files.length
  prev : s.prevInode = s.inode
  added : f.added = taken ++ rest
  pos : s.pos = f.before.length + taken.length
  ends : endsLine taken = true
  passed : s.passed = linesOf files ++ completeLines taken

/-- The reader is in the file created last, or in one before it. -/
inductive LogInv (s : AuthLog) : Prop where
  | current (taken rest : Bytes) (h : Within s s.rotated s.current taken rest)
  | previous (files more : List AuthFile) (f : AuthFile) (taken rest : Bytes)
      (hrotated : s.rotated = files ++ f :: more) (hbefore : s.current.before = [])
      (h : Within s files f taken rest)

theorem logInv_start (old : Bytes) : LogInv (.start old) :=
  .current [] [] ⟨rfl, rfl, rfl, rfl, rfl, rfl⟩

section
variable {s s' : AuthLog} {files more : List AuthFile} {f : AuthFile} {taken rest : Bytes}

theorem Within.unread (h : Within s files f taken rest)
    (hfiles : s.rotated ++ [s.current] = files ++ f :: more) : s.unread = rest := by
  rw [AuthLog.unread, AuthLog.content, hfiles, h.inode,
    getD_append_right _ _ _ _ (Nat.le_refl _), Nat.sub_self, getD_cons_zero,
    AuthFile.data, h.added, h.pos, ← append_assoc, ← length_append, drop_left]

theorem Within.read (h : Within s files f taken rest) (hunread : s.unread = rest)
    (hrest : endsLine rest = true) (hs : authStep s .read = some s') :
    Within s' files f (taken ++ rest) [] ∧ s'.rotated = s.rotated ∧ s'.current = s.current := by
  simp only [authStep] at hs
  split at hs <;> cases hs
  refine ⟨⟨h.inode, h.prev, ?_, ?_, endsLine_append h.ends hrest, ?_⟩, rfl, rfl⟩
  · rw [h.added, append_nil]
  · rw [hunread, h.pos, length_append, Nat.add_assoc]
  · rw [hunread, readLines_endsLine hrest (Nat.lt_succ_self _), h.passed,
      completeLines_append h.ends, append_assoc]

theorem LogInv.step {a : AuthLabel} (h : LogInv s)
    (hs : guarded carefulLog authStep s a = some s') : LogInv s' := by
  obtain ⟨hcare, hs⟩ := guarded_eq_some.mp hs
  cases h with
  | current taken rest h =>
    have hunread : s.unread = rest := h.unread rfl
    cases a with
    | append chunk =>
      simp only [authStep] at hs
      split at hs <;> cases hs
      exact .current taken (rest ++ chunk) { h with added := by rw [h.added, append_assoc] }
    | rename | stat =>
      simp only [authStep] at hs
      split at hs <;> cases hs
      exact .current taken rest { h with }
    | create =>
      simp only [authStep] at hs
      split at hs <;> cases hs
      exact .previous s.rotated [] s.current taken rest rfl rfl { h with }
    | reopen =>
      have hinode := h.inode
      simp only [carefulLog, Bool.and_eq_true, decide_eq_true_eq] at hcare
      omega
    | read =>
      simp only [carefulLog, hunread] at hcare
      obtain ⟨h', hrotated, hcurrent⟩ := h.read hunread hcare hs
      exact .current (taken ++ rest) [] (by rw [hrotated, hcurrent]; exact h')
  | previous files more f taken rest hrotated hbefore h =>
    have hfiles : s.rotated ++ [s.current] = files ++ f :: (more ++ [s.current]) := by
      rw [hrotated, append_assoc, cons_append]
    have hunread : s.unread = rest := h.unread hfiles
    cases a with
    | append | rename | stat =>
      simp only [authStep] at hs
      split at hs <;> cases hs
      exact .previous files more f taken rest hrotated hbefore { h with }
    | create =>
      simp only [authStep] at hs
      split at hs <;> cases hs
      exact .previous files (more ++ [s.current]) f taken rest (by simp [hrotated]) rfl { h with }
    | reopen =>
      simp only [carefulLog, Bool.and_eq_true, decide_eq_true_eq] at hcare
      obtain ⟨⟨⟨hpresent, hcontrol⟩, hnext⟩, hleft⟩ := hcare
      simp only [authStep, hcontrol, if_pos hpresent] at hs
      cases hs
      -- nothing was created between the two files, and the old one is done with
      have hmore : more = [] := by
        rw [h.inode, hrotated] at hnext
        simpa using hnext
      rw [hunread] at hleft
      refine .current [] s.current.added ⟨rfl, rfl, rfl, by rw [hbefore]; rfl, rfl, ?_⟩
      rw [h.passed, hrotated, hmore, linesOf, linesOf, flatMap_append,
        flatMap_singleton, h.added, completeLines_append h.ends, hleft, append_nil]
      exact (append_nil _).symm
    | read =>
      simp only [carefulLog, hunread] at hcare
      obtain ⟨h', hrotated', hcurrent⟩ := h.read hunread hcare hs
      exact .previous files more f (taken ++ rest) [] (hrotated'.trans hrotated)
        (by rw [hcurrent]; exact hbefore) h'

theorem LogInv.run {as : List AuthLabel} (h : LogInv s)
    (hs : Lib.run (guarded carefulLog authStep) s as = some s') : LogInv s' :=
  run_inv (I := LogInv) (fun _ _ _ hi hstep => hi.step hstep) as s s' h hs

/-- What was passed on is a beginning of the lines that were appended. -/
theorem LogInv.passed_prefix (h : LogInv s) : s.passed <+: s.appended := by
  have hprefix : ∀ {files more : List AuthFile} {f : AuthFile} {taken rest : Bytes},
      Within s files f taken rest → s.rotated ++ [s.current] = files ++ f :: more →
      s.passed <+: s.appended := by
    intro files more f taken rest h hfiles
    refine ⟨completeLines rest ++ linesOf more, ?_⟩
    rw [AuthLog.appended, hfiles, h.passed, flatMap_append, flatMap_cons, h.added,
      completeLines_append h.ends]
    simp [linesOf]
  cases h with
  | current taken rest h => exact hprefix h rfl
  | previous files more f taken rest hrotated _ h =>
    have hfiles : s.rotated ++ [s.current] = files ++ f :: (more ++ [s.current]) := by
      rw [hrotated, append_assoc, cons_append]
    exact hprefix h hfiles

/-- Nothing is left when the open file is the one created last and is read to its end. -/
theorem LogInv.passed_eq (h : LogInv s) (hinode : s.inode = s.rotated.length)
    (hunread : s.unread = []) : s.passed = s.appended := by
  cases h with
  | current taken rest h =>
    rw [h.unread rfl] at hunread
    have hadded := h.added
    rw [hunread, append_nil] at hadded
    rw [h.passed, AuthLog.appended, flatMap_append, flatMap_singleton, hadded, linesOf]
  | previous files more f taken rest hrotated _ h =>
    rw [h.inode, hrotated, length_append, length_cons] at hinode
    omega

theorem LogInv.prev (h : LogInv s) : s.prevInode = s.inode := by
  cases h with
  | current _ _ h => exact h.prev
  | previous _ _ _ _ _ _ _ h => exact h.prev

theorem unread_read (hs : guarded carefulLog authStep s .read = some s') :
    s'.unread = [] ∧ s'.inode = s.inode ∧ s'.rotated = s.rotated := by
  obtain ⟨-, hs⟩ := guarded_eq_some.mp hs
  simp only [authStep] at hs
  split at hs <;> cases hs
  refine ⟨?_, rfl, rfl⟩
  change s.content.drop (s.pos + (s.content.drop s.pos).length) = []
  rw [drop_eq_nil_iff, length_drop]
  omega

end

/-- Every careful run of the files, the writer and the agent: the lines passed on are a
beginning of the complete lines that were appended, each once, whole and in order; and a
tick during which nothing else happens passes on all that are left. -/
theorem authLog_lines (old : Bytes) (as : List AuthLabel) (s : AuthLog)
    (h : run (guarded carefulLog authStep) (.start old) as = some s) :
    s.passed <+: s.appended ∧
    (s.control = .idle → s.present = true →
      ∀ s', run (guarded carefulLog authStep) s (tick s) = some s' →
        s'.passed = s'.appended) := by
  have hinv : LogInv s := (logInv_start old).run h
  refine ⟨hinv.passed_prefix, fun hidle hpresent s' htick => ?_⟩
  have hinv' := hinv.run htick
  by_cases hnew : s.present = true ∧ s.rotated.length ≠ s.prevInode
  · -- a new file at the path is opened, and read from its start
    rw [tick, if_pos hnew] at htick
    obtain ⟨s1, hstat, htick⟩ := run_cons.mp htick
    obtain ⟨s2, hreopen, htick⟩ := run_cons.mp htick
    obtain ⟨s3, hread, htick⟩ := run_cons.mp htick
    cases htick
    obtain ⟨-, hstat⟩ := guarded_eq_some.mp hstat
    simp only [authStep, hidle, if_pos hnew] at hstat
    cases hstat
    obtain ⟨-, hreopen⟩ := guarded_eq_some.mp hreopen
    simp only [authStep, if_pos hpresent] at hreopen
    cases hreopen
    obtain ⟨hunread, hinode, hrotated⟩ := unread_read hread
    exact hinv'.passed_eq (by rw [hinode, hrotated]) hunread
  · -- the open file is the one at the path
    have hsame : s.inode = s.rotated.length := by
      rw [← hinv.prev]
      exact (not_not.mp fun hne => hnew ⟨hpresent, hne⟩).symm
    rw [tick, if_neg hnew] at htick
    obtain ⟨s1, hstat, htick⟩ := run_cons.mp htick
    obtain ⟨s2, hread, htick⟩ := run_cons.mp htick
    cases htick
    obtain ⟨-, hstat⟩ := guarded_eq_some.mp hstat
    simp only [authStep, hidle, if_neg hnew] at hstat
    cases hstat
    obtain ⟨hunread, hinode, hrotated⟩ := unread_read hread
    exact hinv'.passed_eq (by rw [hinode, hrotated, hsame]) hunread

def rotatedOnce : List AuthLabel :=
  [.append [97, 10], .stat, .read, .rename, .create, .append [98, 10]]

/-- A line, a rotation after it has been read, and a line in the new file. -/
theorem rotated_log_lines : ∃ s s',
    run (guarded carefulLog authStep) (.start []) rotatedOnce = some s ∧
    run (guarded carefulLog authStep) s (tick s) = some s' ∧ s'.appended = [[97], [98]] ∧
    s'.passed = s'.appended := by
  refine ⟨_, _, rfl, rfl, by decide, ?_⟩
  have hlines := (authLog_lines [] rotatedOnce _ rfl).2 rfl rfl
  exact hlines _ rfl

/-- A tick in the middle of a line passes on its two parts as lines; and the lines that
were not read when the file is rotated are passed over. -/
theorem authLog_timing :
    (∃ s, run authStep (.start []) [.append [97], .stat, .read, .append [98, 10], .stat, .read] =
      some s ∧ s.appended = [[97, 98]] ∧ s.passed = [[97], [98]]) ∧
    ∃ s, run authStep (.start []) [.append [97, 10], .rename, .create, .append [98, 10], .stat,
      .reopen, .read] = some s ∧ s.appended = [[97], [98]] ∧ s.passed = [[98]] :=
  ⟨⟨_, rfl, by decide, by decide⟩, _, rfl, by decide, by decide⟩

end YominsAgent.Events
