import YominsAgent.Go.Regexp
import YominsAgent.Logs.Tail

/- The per-facility files that are copies (`rsyslog.go`).

   `syslogCopies` looks for a line that sends everything to `/var/log/syslog` or
   `/var/log/messages`, and takes the files of the facilities it does not exclude for
   copies. What the line selects is not looked at any closer than for the text `*.`, and a
   later line of that kind forgets what an earlier one excluded (`mail_not_routed`).
   `copies_routed_iff` says when a file that is taken for a copy is one.

   Correspondence (Go ↔ Lean):
     `facilityFiles`                     ↔ `Facility`, `Facility.files`
     `syslogCopies`, loop over the files ↔ `excludedOf`
     `syslogCopies`, loop over the lines ↔ `readConf`, `readLine`
     `found`, `excluded`                 ↔ `none`, `some excluded`
     `copies`                            ↔ the list `syslogCopies` returns
   A configuration is its text, `none` when it cannot be opened. The keys of `copies` are
   only looked up, so their order is that of `Facility.all`. -/
namespace YominsAgent.Logs
open Go

/-! ## Configuration lines -/

/-- The lines of a text; what follows the last newline is one when it is not empty. -/
def confLines (text : Bytes) : List Bytes :=
  let (lines, rest) := splitLines text
  if rest.isEmpty then lines else lines ++ [rest]

/-- What a `bufio.Scanner` returns of them: a line that does not fit its buffer ends the scan.
The carriage return it drops is white space to `fields`. -/
def scanConf (text : Bytes) : List Bytes :=
  (confLines text).takeWhile fun line => line.length < 65536

def catchAllFiles : List Str := ["/var/log/syslog", "/var/log/messages"].map String.toList

/-- The selector of a line whose action is a catch-all file. -/
def selectorOf (line : Bytes) : Option Str :=
  let words := fields (toText line)
  if words.length < 2 ∨ hasPrefix (words.headD []) ['#'] then none
  else if trimPrefix (words.getLastD []) ['-'] ∈ catchAllFiles then some words.dropLast.flatten
  else none

def isCatchAll (sel : Str) : Bool := contains sel ['*', '.']

/-- The facilities a part of a selector excludes. -/
def partExclusions (part : Str) : List Str :=
  match cut ['.'] part with
  | some (facs, prio) =>
    if prio = "none".toList then (splitOn ',' facs).map trimSpace else []
  | none => []

def exclusions (sel : Str) : List Str := (splitOn ';' sel).flatMap partExclusions

/-! ## `syslogCopies` -/

def catchAllOf (line : Bytes) : Option Str := (selectorOf line).filter isCatchAll

def readLine (found : Option (List Str)) (line : Bytes) : Option (List Str) :=
  match catchAllOf line with
  | some sel => some (exclusions sel)
  | none => found

def readConf (conf : Option Bytes) : Option (List Str) :=
  match conf with
  | some text => (scanConf text).foldl readLine none
  | none => none

/-- The first configuration with a catch-all line is the last one read. -/
def excludedOf : List (Option Bytes) → Option (List Str)
  | [] => none
  | conf :: confs =>
    match readConf conf with
    | some excluded => some excluded
    | none => excludedOf confs

inductive Facility where
  | auth | cron | kern | mail | user | daemon
  deriving DecidableEq, Repr

namespace Facility

def all : List Facility := [auth, cron, kern, mail, user, daemon]

def name : Facility → Str
  | auth => "auth".toList
  | cron => "cron".toList
  | kern => "kern".toList
  | mail => "mail".toList
  | user => "user".toList
  | daemon => "daemon".toList

def files : Facility → List Str
  | auth => ["/var/log/auth.log", "/var/log/secure"].map String.toList
  | cron => ["/var/log/cron.log", "/var/log/cron"].map String.toList
  | kern => ["/var/log/kern.log"].map String.toList
  | mail => ["/var/log/mail.log", "/var/log/maillog", "/var/log/mail.err"].map String.toList
  | user => ["/var/log/user.log"].map String.toList
  | daemon => ["/var/log/daemon.log"].map String.toList

theorem mem_all (fac : Facility) : fac ∈ all := by cases fac <;> decide

theorem files_disjoint :
    ∀ fac ∈ all, ∀ fac' ∈ all, ∀ p ∈ fac.files, p ∈ fac'.files → fac = fac' := by
  decide +kernel

end Facility

/-- The facility keeps its files. -/
def keeps (excluded : List Str) (fac : Facility) : Bool :=
  excluded.contains fac.name || (fac == .auth && excluded.contains "authpriv".toList)

def syslogCopies (confs : List (Option Bytes)) : List Str :=
  match excludedOf confs with
  | none => []
  | some excluded => Facility.all.flatMap fun fac => if keeps excluded fac then [] else fac.files

/-! ## What a selector selects -/

/-- From the least severe to the most. -/
inductive Priority where
  | debug | info | notice | warning | err | crit | alert | emerg
  deriving DecidableEq, Repr

namespace Priority

def rank : Priority → Nat
  | debug => 0
  | info => 1
  | notice => 2
  | warning => 3
  | err => 4
  | crit => 5
  | alert => 6
  | emerg => 7

def names : List (String × Priority) :=
  [("debug", debug), ("info", info), ("notice", notice), ("warning", warning), ("warn", warning),
   ("err", err), ("error", err), ("crit", crit), ("alert", alert), ("emerg", emerg),
   ("panic", emerg)]

end Priority

/-- What the priority of a part says of a message: it is selected, taken out again, or left
as it is. A priority stands for itself and everything above, behind `=` for itself only;
`!` takes out what would be selected. -/
def verdict (prio : Str) (q : Priority) : Option Bool :=
  let negated := hasPrefix prio ['!']
  let prio := trimPrefix prio ['!']
  let single := hasPrefix prio ['=']
  let word := toLower (trimPrefix prio ['='])
  if word = ['*'] then some (!negated)
  else if word = "none".toList then some negated
  else match Priority.names.find? fun np => np.1.toList = word with
    | some (_, p) => if (if single then p = q else p.rank ≤ q.rank) then some (!negated) else none
    | none => none

/-- The facility is in the list of a part. -/
def lists (facs : Str) (fac : Facility) : Bool :=
  (splitOn ',' facs).any fun n => n = ['*'] || toLower n = fac.name

/-- What a part says of the messages of a facility. -/
def decision (fac : Facility) (q : Priority) (part : Str) : Option Bool :=
  match cut ['.'] part with
  | some (facs, prio) => if lists facs fac then verdict prio q else none
  | none => none

/-- The parts are applied from left to right. -/
def routes (fac : Facility) (q : Priority) (sel : Str) : Bool :=
  (splitOn ';' sel).foldl (fun selected part => (decision fac q part).getD selected) false

/-- A line sends every message of the facility to a catch-all file. -/
def Routed (confs : List (Option Bytes)) (fac : Facility) : Prop :=
  ∃ text, some text ∈ confs ∧ ∃ line ∈ confLines text, ∃ sel, selectorOf line = some sel ∧
    ∀ q, routes fac q sel = true

/-- A file of the facility is skipped only if it is a copy. -/
def CopiesRouted (confs : List (Option Bytes)) (fac : Facility) : Prop :=
  ∀ p ∈ fac.files, p ∈ syslogCopies confs → Routed confs fac

/-! ## The last one decides -/

theorem foldl_getD {α β : Type} (f : α → Option β) (b : β) (l : List α) :
    l.foldl (fun b x => (f x).getD b) b = ((l.filterMap f).getLast?).getD b := by
  induction l generalizing b with
  | nil => rfl
  | cons x l ih =>
    rw [List.foldl_cons, ih]
    cases hx : f x with
    | none => rw [List.filterMap_cons_none hx, Option.getD_none]
    | some =>
      rw [List.filterMap_cons_some hx, List.getLast?_cons, Option.getD_some, Option.getD_some]

/-- For each priority the last part that says anything of it selects it. -/
def SelectsAll (fac : Facility) (sel : Str) : Prop :=
  ∀ q, ((splitOn ';' sel).filterMap (decision fac q)).getLast? = some true

variable {fac : Facility} {sel : Str}

theorem routes_iff : (∀ q, routes fac q sel = true) ↔ SelectsAll fac sel := by
  refine forall_congr' fun q => ?_
  rw [routes, foldl_getD]
  cases ((splitOn ';' sel).filterMap (decision fac q)).getLast? with
  | none => simp
  | some => simp

/-- The catch-all selectors of a configuration. -/
def catchAlls (text : Bytes) : List Str := (scanConf text).filterMap catchAllOf

theorem readConf_some (text : Bytes) :
    readConf (some text) = (catchAlls text).getLast?.map exclusions := by
  have hline : readLine = fun found line =>
      ((catchAllOf line).map fun sel => some (exclusions sel)).getD found := by
    funext found line
    unfold readLine
    cases catchAllOf line with
    | none => rfl
    | some => rfl
  have hmap : (scanConf text).filterMap (fun line =>
      (catchAllOf line).map fun sel => some (exclusions sel)) =
      (catchAlls text).map fun sel => some (exclusions sel) := by
    rw [catchAlls, List.map_filterMap]
  rw [readConf, hline, foldl_getD, hmap, List.getLast?_map]
  cases (catchAlls text).getLast? with
  | none => rfl
  | some => rfl

/-- The selector that decides: the last catch-all selector of the first configuration that
has one. -/
def Deciding (confs : List (Option Bytes)) (sel : Str) : Prop :=
  ∃ before text after, confs = before ++ some text :: after ∧
    (∀ t, some t ∈ before → catchAlls t = []) ∧ (catchAlls text).getLast? = some sel

variable {confs : List (Option Bytes)}

theorem deciding_cons_none : Deciding (none :: confs) sel ↔ Deciding confs sel := by
  constructor
  · rintro ⟨before, text, after, hconfs, hbefore, hlast⟩
    cases before with
    | nil => cases hconfs
    | cons conf before =>
      cases hconfs
      exact ⟨before, text, after, rfl, fun t ht => hbefore t (List.mem_cons_of_mem _ ht), hlast⟩
  · rintro ⟨before, text, after, rfl, hbefore, hlast⟩
    refine ⟨none :: before, text, after, rfl, fun t ht => ?_, hlast⟩
    rcases List.mem_cons.mp ht with h | h
    · cases h
    · exact hbefore t h

theorem deciding_cons_some {text : Bytes} : Deciding (some text :: confs) sel ↔
      (catchAlls text).getLast? = some sel ∨ (catchAlls text = [] ∧ Deciding confs sel) := by
  constructor
  · rintro ⟨before, text', after, hconfs, hbefore, hlast⟩
    cases before with
    | nil =>
      cases hconfs
      exact .inl hlast
    | cons conf before =>
      cases hconfs
      refine .inr ⟨hbefore text List.mem_cons_self, before, text', after, rfl, ?_, hlast⟩
      exact fun t ht => hbefore t (List.mem_cons_of_mem _ ht)
  · rintro (hlast | ⟨hnone, before, text', after, rfl, hbefore, hlast⟩)
    · exact ⟨[], text, confs, rfl, nofun, hlast⟩
    · refine ⟨some text :: before, text', after, rfl, fun t ht => ?_, hlast⟩
      rcases List.mem_cons.mp ht with h | h
      · rwa [Option.some.inj h]
      · exact hbefore t h

theorem excludedOf_eq_some_iff {excluded : List Str} :
    excludedOf confs = some excluded ↔ ∃ sel, Deciding confs sel ∧ exclusions sel = excluded := by
  induction confs with
  | nil =>
    refine iff_of_false nofun ?_
    rintro ⟨sel, ⟨before, text, after, hconfs, -⟩, -⟩
    exact absurd hconfs (by simp)
  | cons conf confs ih =>
    cases conf with
    | none =>
      simp only [deciding_cons_none]
      exact ih
    | some text =>
      rw [excludedOf, readConf_some]
      simp only [deciding_cons_some]
      cases hlast : (catchAlls text).getLast? with
      | none =>
        rw [List.getLast?_eq_none_iff] at hlast
        simpa [hlast] using ih
      | some =>
        have hne : catchAlls text ≠ [] := by
          intro hnil
          rw [hnil] at hlast
          cases hlast
        simp [hne]

/-! ## Copies -/

/-- A file is taken for a copy when its facility is not excluded by the selector that
decides. -/
theorem mem_syslogCopies {p : Str} (hp : p ∈ fac.files) :
    p ∈ syslogCopies confs ↔ ∃ sel, Deciding confs sel ∧ keeps (exclusions sel) fac = false := by
  unfold syslogCopies
  cases hex : excludedOf confs with
  | none =>
    refine iff_of_false List.not_mem_nil ?_
    rintro ⟨sel, hsel, -⟩
    rw [excludedOf_eq_some_iff.mpr ⟨sel, hsel, rfl⟩] at hex
    cases hex
  | some excluded =>
    have hmem : p ∈ (Facility.all.flatMap fun fac =>
        if keeps excluded fac then [] else fac.files) ↔ keeps excluded fac = false := by
      rw [List.mem_flatMap]
      constructor
      · rintro ⟨fac', hfac', hp'⟩
        split at hp'
        · cases hp'
        · next hkeeps =>
          have hsame := Facility.files_disjoint fac fac.mem_all fac' hfac' p hp hp'
          rw [hsame]
          exact Bool.eq_false_iff.mpr hkeeps
      · intro hkeeps
        exact ⟨fac, fac.mem_all, by simpa [hkeeps] using hp⟩
    show p ∈ (Facility.all.flatMap fun fac => if keeps excluded fac then [] else fac.files) ↔ _
    rw [hmem]
    constructor
    · intro hkeeps
      obtain ⟨sel, hsel, he⟩ := excludedOf_eq_some_iff.mp hex
      exact ⟨sel, hsel, he ▸ hkeeps⟩
    · rintro ⟨sel, hsel, hkeeps⟩
      have he := excludedOf_eq_some_iff.mpr ⟨sel, hsel, rfl⟩
      rw [hex] at he
      rwa [Option.some.inj he]

/-- The files of a facility are skipped only if they are copies if and only if the selector
that decides excludes it by name, or a line with the action of a catch-all selects all its
priorities. -/
theorem copies_routed_iff (confs : List (Option Bytes)) (fac : Facility) :
    CopiesRouted confs fac ↔
      ∀ sel, Deciding confs sel → keeps (exclusions sel) fac = true ∨
        ∃ text, some text ∈ confs ∧ ∃ line ∈ confLines text, ∃ sel', selectorOf line = some sel' ∧
          SelectsAll fac sel' := by
  have hrouted : Routed confs fac ↔ ∃ text, some text ∈ confs ∧ ∃ line ∈ confLines text,
      ∃ sel', selectorOf line = some sel' ∧ SelectsAll fac sel' := by
    simp only [Routed, routes_iff]
  rw [← hrouted]
  constructor
  · intro h sel hsel
    cases hkeeps : keeps (exclusions sel) fac with
    | true => exact Or.inl rfl
    | false =>
      obtain ⟨p, hp⟩ : ∃ p, p ∈ fac.files := by cases fac <;> exact ⟨_, List.mem_cons_self⟩
      exact Or.inr (h p hp ((mem_syslogCopies hp).mpr ⟨sel, hsel, hkeeps⟩))
  · intro h p hp hcopy
    obtain ⟨sel, hsel, hkeeps⟩ := (mem_syslogCopies hp).mp hcopy
    rcases h sel hsel with htrue | hr
    · rw [hkeeps] at htrue
      cases htrue
    · exact hr

/-- Everything but mail goes to the one file, and emergencies to the other. -/
def twoCatchAlls : Bytes :=
  toBytes "*.*;mail.none\t-/var/log/syslog\n*.emerg\t\t/var/log/messages\n".toList

/-- The second line forgets that the first excludes mail. -/
theorem mail_not_routed :
    "/var/log/mail.log".toList ∈ syslogCopies [some twoCatchAlls] ∧
      ¬ Routed [some twoCatchAlls] .mail := by
  constructor
  · decide +kernel
  · have hnone : ((confLines twoCatchAlls).all fun line =>
        (selectorOf line).all fun sel => !routes .mail .debug sel) = true := by decide +kernel
    rintro ⟨text, htext, line, hline, sel, hsel, hall⟩
    obtain rfl : text = twoCatchAlls := Option.some.inj (List.mem_singleton.mp htext)
    have hrow := List.all_eq_true.mp hnone line hline
    rw [hsel, Option.all_some, hall .debug] at hrow
    cases hrow

end YominsAgent.Logs
