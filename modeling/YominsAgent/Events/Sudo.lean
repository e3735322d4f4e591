import YominsAgent.Events.AuthLine

/- The records of sudo, from the journal and from the authentication log.

   In the log a record stands behind a time, a host and the tag `sudo:` or `sudo[pid]:`; the journal
   has it without a tag, and `parseJournalLine` puts `sudo: ` before it. The pattern looks for
   `sudo:` only, for the first `COMMAND=` behind it, and does not look at `USER=`. `sudo_alike_iff`
   says for which records both forms are read as they should. -/
namespace YominsAgent.Events
open Go Lib List

/-- `user : TTY=tty ; PWD=pwd ; USER=runas ; COMMAND=command` -/
structure SudoRecord where
  user : Str
  tty : Str
  pwd : Str
  runas : Str
  command : Str
  user_word : ∀ c ∈ user, isSpace c = false ∧ c ≠ ':'
  runas_word : ∀ c ∈ runas, isSpace c = false ∧ c ≠ ':'
  command_ne : command ≠ []
  command_line : '\n' ∉ command
  command_trimmed : trimSpace command = command

namespace SudoRecord
variable (r : SudoRecord)

/-- The record from ` ; USER=` on. -/
def ending : Str := " ; USER=".toList ++ r.runas ++ " ; ".toList ++ "COMMAND=".toList ++ r.command

/-- What stands between the colon behind the user and ` ; USER=`. -/
def places : Str := " TTY=".toList ++ r.tty ++ " ; PWD=".toList ++ r.pwd

def text : Str := r.user ++ " :".toList ++ r.places ++ r.ending

end SudoRecord

/-- The tag in the log, with the number of the process or without. -/
def sudoTag : Option Str → Str
  | none => "sudo: ".toList
  | some pid => "sudo[".toList ++ pid ++ "]: ".toList

/-- The line in the log, behind the time and the host. -/
def sudoLine (stamp : Str) (pid : Option Str) (r : SudoRecord) : Str :=
  stamp ++ " ".toList ++ sudoTag pid ++ r.text

def IsSudoOf (r : SudoRecord) (e : Event) : Prop :=
  e.type = .authSudo ∧ ∃ a, e.actor = some a ∧ a.user = r.user ∧ a.targetUser = r.runas ∧
    a.command = r.command

/-- Both forms of the record are read as they should, and alike. -/
def DecodedAlike (cfg : AuthConfig) (r : SudoRecord) (id id' : Str) (now now' : Int)
    (journal line : Str) : Prop :=
  ∃ e e', parseJournalLine cfg id now journal = some e ∧
    parseAuthLogLine cfg id' now' line = some e' ∧ IsSudoOf r e ∧ IsSudoOf r e' ∧
    { e' with id := e.id, timestamp := e.timestamp } = e

/-- `(.*)$` -/
def restTail : Regex Char := .seq (.group 3 (.star true (.set isAnyChar))) endText

/-- `sudo:\s+(\S+)\s*:(.*)$` -/
def sudoRest : Regex Char := .seq sudoFront restTail

/-- The first `sudo: x :` with no line break behind it stands before ` ; USER=`, `x` is
the user, and no `COMMAND=` stands between the two. -/
def NamedFirst (r : SudoRecord) (line : Str) : Prop :=
  ∃ m z, sudoRest.find [] line = some m ∧ trimSpace (m.group 1) = r.user ∧
    m.group 3 = z ++ r.ending ∧ ¬ "COMMAND=".toList <:+: z

/-- Neither login pattern finds anything in the line. -/
def noLogin (line : Str) : Bool :=
  (reLoginFailed.find [] line).isNone && (reInvalidUser.find [] line).isNone

/-! ## Where a word stands -/

variable {P z : Str}

section Infix
variable {w x y : Str} {c : Char}

theorem infix_append_cons (hc : c ∉ w) : w <:+: x ++ c :: y ↔ w <:+: x ∨ w <:+: y := by
  constructor
  · rintro ⟨u, v, h⟩
    rcases append_eq_append_iff.mp h with ⟨z, hz, -⟩ | ⟨z, hz, hv⟩
    · exact .inl ⟨u, z, hz.symm⟩
    · rcases append_eq_append_iff.mp hz with ⟨t, ht, hzt⟩ | ⟨t, ht, hzt⟩
      · cases z with
        | nil => exact .inl ⟨u, [], by simpa using hz⟩
        | cons =>
          obtain ⟨rfl, -⟩ := cons.inj hv
          exact absurd (hzt ▸ mem_append_right t mem_cons_self) hc
      · subst hzt
        cases t with
        | nil =>
          cases w with
          | nil => exact .inl (List.nil_infix)
          | cons =>
            obtain ⟨rfl, -⟩ := cons.inj hv
            exact absurd mem_cons_self hc
        | cons d t =>
          obtain ⟨-, hy⟩ := cons.inj hv
          exact .inr ⟨t, v, by simp [hy]⟩
  · rintro (⟨u, v, rfl⟩ | ⟨u, v, rfl⟩)
    · exact ⟨u, v ++ c :: y, by simp⟩
    · exact ⟨x ++ c :: u, v, by simp⟩

/-- A word does not begin where its first symbol does not stand. -/
theorem infix_append_of_notMem (hx : c ∉ x) : c :: w <:+: x ++ y ↔ c :: w <:+: y := by
  induction x with
  | nil => rfl
  | cons d x ih =>
    rw [mem_cons, not_or] at hx
    rw [cons_append, infix_cons_iff, ih hx.2]
    simp [hx.1]

/-- The word begins nowhere in the text, whatever follows. -/
def StartsNowhere (w x : Str) : Prop := ∀ u v y, x = u ++ v → v ≠ [] → ¬ w <+: v ++ y

theorem startsNowhere_of_last (hc : c ∉ w) (h : ¬ w <:+: x ++ [c]) :
    StartsNowhere w (x ++ [c]) := by
  intro u v y hx hv hp
  obtain ⟨t, ht⟩ := hp
  rcases append_eq_append_iff.mp ht with ⟨z, rfl, -⟩ | ⟨z, rfl, -⟩
  · exact h ⟨u, z, by rw [hx, append_assoc]⟩
  · -- the last symbol of the text would be in the word
    obtain ⟨v', d, rfl⟩ := (eq_nil_or_concat v).resolve_left hv
    rw [concat_eq_append, ← append_assoc] at hx
    obtain rfl : c = d := by simpa using (append_inj_right' hx rfl)
    exact hc (by simp)

theorem StartsNowhere.behind (hx : StartsNowhere w x) (h : x ++ y = P ++ z) (hz : w <+: z) :
    ∃ P', P = x ++ P' ∧ y = P' ++ z := by
  rcases append_eq_append_iff.mp h with ⟨t, ht, hrest⟩ | ⟨t, ht, hrest⟩
  · exact ⟨t, ht, hrest⟩
  · by_cases hne : t = []
    · subst hne
      exact ⟨[], by simpa using ht.symm, by simpa using hrest.symm⟩
    · exact absurd (hrest ▸ hz) (hx P t y ht hne)

end Infix

/-! ## What the pattern takes -/

/-- `sudo:\s+(\S+)\s*:` with the user `n`. -/
structure IsSudoFront (w s₁ n s₂ : Str) : Prop where
  text : w = "sudo:".toList ++ (s₁ ++ (n ++ (s₂ ++ ":".toList)))
  first : s₁ ≠ [] ∧ ∀ c ∈ s₁, isBlankChar c = true
  user : IsWord n
  second : ∀ c ∈ s₂, isBlankChar c = true

/-- What `(.+)` takes. -/
def IsLine (s : Str) : Prop := s ≠ [] ∧ '\n' ∉ s

theorem SudoRecord.command_isLine (r : SudoRecord) : IsLine r.command :=
  ⟨r.command_ne, r.command_line⟩

variable {s : Str}

theorem all_isAnyChar : (∀ c ∈ s, isAnyChar c = true) ↔ '\n' ∉ s := by
  simp only [isAnyChar, bne_iff_ne]
  exact ⟨fun h hn => h '\n' hn rfl, fun h c hc he => h (he ▸ hc)⟩

variable {p q : Lib.Place Char} {g h : Groups Char}

theorem mem_run_sudoFront (hm : (q, h) ∈ sudoFront.run p g) : ∃ w s₁ n s₂, p.after = w ++ q.after ∧
      IsSudoFront w s₁ n s₂ ∧ h.lookup 1 = some n := by
  have hn : 1 ∉ (Regex.seq (.star true (.set isBlankChar)) (.lit ":".toList)).groups := by
    simp [Regex.groups, lit_groups]
  obtain ⟨t, p1, j, ⟨htag, -⟩, ht, hm⟩ := mem_run_seq hm
  obtain ⟨s₁, p2, k, ⟨hs1, -⟩, hfirst, hm⟩ := mem_run_seq hm
  obtain ⟨n, p3, l, ⟨huser, -⟩, hword, hm, hgroup⟩ := mem_run_seq_group hn hm
  obtain ⟨v, ⟨hrest, -⟩, hv⟩ := mem_run hm
  obtain ⟨s₂, colon, rfl, hs2, hcolon⟩ := accepts_seq.mp hv
  rw [accepts_lit] at ht hcolon
  refine ⟨_, s₁, n, s₂, ?_, ⟨rfl, accepts_plus_set.mp hfirst, accepts_nonBlanks.mp hword,
    accepts_star_set.mp hs2⟩, hgroup⟩
  rw [htag, hs1, huser, hrest, ht, hcolon]
  simp only [append_assoc]

variable {b a : Str}

theorem accepts_sudoFront {w : Str} :
    Accepts sudoFront b w a ↔ ∃ s₁ n s₂, IsSudoFront w s₁ n s₂ := by
  constructor
  · intro h
    obtain ⟨k, hk⟩ := exists_run h []
    obtain ⟨w', s₁, n, s₂, hw, hfront, -⟩ := mem_run_sudoFront hk
    obtain rfl : w = w' := append_cancel_right hw
    exact ⟨s₁, n, s₂, hfront⟩
  · rintro ⟨s₁, n, s₂, rfl, hfirst, huser, hsecond⟩
    exact .seq (accepts_lit.mpr rfl) (.seq (accepts_plus_set.mpr hfirst)
      (.seq (.group (accepts_nonBlanks.mpr huser))
        (.seq (accepts_star_set.mpr hsecond) (accepts_lit.mpr rfl))))

theorem mem_run_sudoCommand (hm : (q, h) ∈ sudoCommand.run p g) :
    ∃ cmd, p.after = "COMMAND=".toList ++ cmd ∧ IsLine cmd ∧ h.lookup 2 = some cmd := by
  obtain ⟨t, p1, j, ⟨htag, -⟩, ht, hm⟩ := mem_run_seq hm
  obtain ⟨cmd, p2, k, ⟨hcmd, -⟩, hline, hm, hgroup⟩ := mem_run_seq_group (by simp [endText, Regex.groups]) hm
  obtain ⟨v, ⟨hrest, -⟩, hv⟩ := mem_run hm
  obtain ⟨rfl, hnone⟩ := accepts_look.mp hv
  have hend : q.after = [] := by simpa using hnone
  rw [accepts_lit] at ht
  obtain ⟨hne, hall⟩ := accepts_plus_set.mp hline
  refine ⟨cmd, ?_, ⟨hne, all_isAnyChar.mp hall⟩, hgroup⟩
  rw [htag, hcmd, hrest, hend, ht]
  simp

variable {cmd : Str}

theorem accepts_sudoCommand (h : IsLine cmd) :
    Accepts sudoCommand b ("COMMAND=".toList ++ cmd) [] := by
  have hend : Accepts sudoCommand b ("COMMAND=".toList ++ (cmd ++ [])) [] :=
    .seq (accepts_lit.mpr rfl) (.seq (.group (accepts_plus_set.mpr
      ⟨h.1, all_isAnyChar.mpr h.2⟩)) (.look rfl))
  simpa using hend

theorem command_head {j : Groups Char} (h : (commandTail.run p j).head? = some (q, g)) :
    ∃ d cmd, p.after = d ++ ("COMMAND=".toList ++ cmd) ∧ IsLine cmd ∧ g.lookup 2 = some cmd ∧
      ∀ d' cmd', p.after = d' ++ ("COMMAND=".toList ++ cmd') → IsLine cmd' →
        d.length ≤ d'.length := by
  obtain ⟨b, x⟩ := p
  obtain ⟨d, v, hx, -, hhead, hfirst⟩ := head?_run_lazy h
  obtain ⟨cmd, hv, hline, hgroup⟩ := mem_run_sudoCommand (mem_of_mem_head? hhead)
  obtain rfl : v = "COMMAND=".toList ++ cmd := hv
  refine ⟨d, cmd, hx, hline, hgroup, ?_⟩
  intro d' cmd' hx' hline'
  by_contra hlt
  have hnil := hfirst d' _ hx' (Nat.lt_of_not_le hlt)
  have hend : "COMMAND=".toList ++ cmd' = ("COMMAND=".toList ++ cmd') ++ [] := by simp
  rw [hend] at hnil
  exact run_eq_nil_iff.mp hnil _ [] rfl (accepts_sudoCommand hline')

theorem mem_run_restTail (hm : (q, h) ∈ restTail.run p g) : h.lookup 3 = some p.after := by
  obtain ⟨u, p1, j, ⟨hu, -⟩, -, hm, hgroup⟩ :=
    mem_run_seq_group (by simp [endText, Regex.groups]) hm
  obtain ⟨v, ⟨hrest, -⟩, hv⟩ := mem_run hm
  obtain ⟨rfl, hnone⟩ := accepts_look.mp hv
  have hend : q.after = [] := by simpa using hnone
  rw [hu, hrest, hend, append_nil, append_nil]
  exact hgroup

variable {t : Str}

/-- `(.*)$` takes the rest of the text where it is one line. -/
theorem accepts_restTail : Accepts restTail b t a ↔ '\n' ∉ t ∧ a = [] := by
  constructor
  · intro h
    obtain ⟨u, v, rfl, hu, hv⟩ := accepts_seq.mp h
    obtain ⟨rfl, hnone⟩ := accepts_look.mp hv
    rw [append_nil]
    exact ⟨all_isAnyChar.mp (accepts_star_set.mp (accepts_group.mp hu)), by simpa using hnone⟩
  · rintro ⟨ht, rfl⟩
    have hacc : Accepts restTail b (t ++ []) [] :=
      .seq (.group (accepts_star_set.mpr (all_isAnyChar.mpr ht))) (.look rfl)
    rwa [append_nil] at hacc

theorem accepts_restTail_of_command (h : Accepts commandTail b t a) : Accepts restTail b t a := by
  obtain ⟨d, v, rfl, hd, hv⟩ := accepts_seq.mp h
  obtain ⟨tag, y, rfl, htag, hy⟩ := accepts_seq.mp hv
  obtain ⟨cmd, e, rfl, hcmd, he⟩ := accepts_seq.mp hy
  obtain ⟨rfl, hnone⟩ := accepts_look.mp he
  rw [accepts_lit] at htag
  subst htag
  have hline := all_isAnyChar.mp (accepts_plus_set.mp (accepts_group.mp hcmd)).2
  refine accepts_restTail.mpr ⟨?_, by simpa using hnone⟩
  simp only [mem_append, append_nil, not_or]
  exact ⟨all_isAnyChar.mp (accepts_star_set.mp hd), by decide, hline⟩

variable {command : Str}

/-- Where a command ends the text, `.*?COMMAND=(.+)$` takes the same. -/
theorem accepts_tails (hcommand : IsLine command) (h : t ++ a = z ++ ("COMMAND=".toList ++ command)) :
    Accepts restTail b t a ↔ Accepts commandTail b t a := by
  refine ⟨fun hrest => ?_, accepts_restTail_of_command⟩
  obtain ⟨ht, rfl⟩ := accepts_restTail.mp hrest
  obtain rfl : t = z ++ ("COMMAND=".toList ++ command) := by simpa using h
  have hz : '\n' ∉ z := fun hn => ht (mem_append_left _ hn)
  exact .seq (accepts_star_set.mpr (all_isAnyChar.mpr hz)) (accepts_sudoCommand hcommand)

theorem accepts_sudoRest_of_sudo {w : Str} (h : Accepts reSudo b w a) : Accepts sudoRest b w a := by
  obtain ⟨u, v, rfl, hu, hv⟩ := accepts_seq.mp h
  exact .seq hu (accepts_restTail_of_command hv)

variable {s₁ n s₂ : Str}

theorem IsSudoFront.tag {w : Str} (hw : IsSudoFront w s₁ n s₂) : "sudo:".toList <+: w :=
  hw.text ▸ prefix_append _ _

/-! ## The command -/

/-- How much of a text is not white space. -/
def inkOf (s : Str) : Nat := s.countP fun c => !isSpace c

theorem inkOf_trimSpace (s : Str) : inkOf (trimSpace s) = inkOf s := countP_trimSpace s

theorem inkOf_append (s t : Str) : inkOf (s ++ t) = inkOf s + inkOf t := countP_append

/-- A command behind another `COMMAND=` is longer than the one it should be. -/
theorem command_ink {x : Str} (h : cmd = x ++ ("COMMAND=".toList ++ command)) :
    trimSpace cmd ≠ command := by
  intro htrim
  have hink := congrArg inkOf htrim
  rw [inkOf_trimSpace, h, inkOf_append, inkOf_append] at hink
  have htag : inkOf "COMMAND=".toList = 8 := by decide
  omega

variable {d : Str}

/-- The command found is the one of the record exactly when no `COMMAND=` stands before
it. -/
theorem command_iff {B : Str} (hB : '\n' ∉ B ++ [' ']) (hcommand : IsLine command)
    (htrim : trimSpace command = command)
    (hd : B ++ [' '] ++ ("COMMAND=".toList ++ command) = d ++ ("COMMAND=".toList ++ cmd))
    (hfirst : ∀ d' cmd', B ++ [' '] ++ ("COMMAND=".toList ++ command) =
      d' ++ ("COMMAND=".toList ++ cmd') → IsLine cmd' → d.length ≤ d'.length) :
    trimSpace cmd = command ↔ ¬ "COMMAND=".toList <:+: B ++ [' '] := by
  constructor
  · rintro htrim' ⟨x, z, hx⟩
    have hsplit : B ++ [' '] ++ ("COMMAND=".toList ++ command) =
        x ++ ("COMMAND=".toList ++ (z ++ ("COMMAND=".toList ++ command))) := by
      rw [← hx]
      simp
    have hz : '\n' ∉ z := fun hn => hB (hx ▸ mem_append_right _ hn)
    have hline : IsLine (z ++ ("COMMAND=".toList ++ command)) := by
      refine ⟨by simp, ?_⟩
      simp only [mem_append, not_or]
      exact ⟨hz, by decide, hcommand.2⟩
    have hle := hfirst _ _ hsplit hline
    -- the first one is no later than this one
    rw [hsplit, ← append_assoc, ← append_assoc d] at hd
    rcases append_eq_append_iff.mp hd with ⟨t, ht, hcmd⟩ | ⟨t, ht, hcmd⟩
    · have hlen := congrArg length ht
      simp only [length_append] at hlen
      obtain rfl : t = [] := length_eq_zero_iff.mp (by omega)
      exact command_ink (by simpa using hcmd.symm) htrim'
    · refine command_ink (x := t ++ z) ?_ htrim'
      rw [hcmd, append_assoc]
  · intro hno
    have hnowhere : StartsNowhere "COMMAND=".toList (B ++ [' ']) :=
      startsNowhere_of_last (by decide) hno
    have hle := hfirst _ _ rfl hcommand
    rcases append_eq_append_iff.mp hd with ⟨t, ht, hcmd⟩ | ⟨t, ht, hcmd⟩
    · have hlen := congrArg length ht
      rw [length_append] at hlen
      obtain rfl : t = [] := length_eq_zero_iff.mp (by omega)
      obtain rfl : command = cmd := by simpa using hcmd
      exact htrim
    · by_cases hne : t = []
      · subst hne
        obtain rfl : cmd = command := by simpa using hcmd
        exact htrim
      · exact absurd ⟨cmd, hcmd⟩ (hnowhere d t _ ht hne)

/-! ## The event of a line -/

/-- The line makes the event of the record: the three searches, one by one. -/
structure FoundSudo (r : SudoRecord) (line : Str) : Prop where
  failed : reLoginFailed.find [] line = none
  invalid : reInvalidUser.find [] line = none
  runas : r.runas = "root".toList
  found : ∃ m, reSudo.find [] line = some m ∧ trimSpace (m.group 1) = r.user ∧
    trimSpace (m.group 2) = r.command

section Events
variable {cfg : AuthConfig} {r : SudoRecord} {id : Str} {now : Int} {line : Str}

theorem FoundSudo.parse (h : FoundSudo r line) : parseAuthLogLine cfg id now line =
    some (sudoEvent cfg id now r.user r.command) := by
  obtain ⟨m, hm, huser, hcommand⟩ := h.found
  simp only [parseAuthLogLine, h.failed, h.invalid, hm, huser, hcommand]

theorem FoundSudo.isSudoOf (h : FoundSudo r line) :
    IsSudoOf r (sudoEvent cfg id now r.user r.command) :=
  ⟨rfl, _, rfl, rfl, h.runas.symm, rfl⟩

theorem foundSudo_of_parse {e : Event} (h : parseAuthLogLine cfg id now line = some e)
    (he : IsSudoOf r e) : FoundSudo r line := by
  obtain ⟨htype, a, hactor, huser, htarget, hcommand⟩ := he
  unfold parseAuthLogLine at h
  split at h
  · cases h
    cases htype
  · next hfailed =>
    split at h
    · cases h
      cases htype
    · next hinvalid =>
      split at h
      · next m hm =>
        cases h
        cases hactor
        exact ⟨hfailed, hinvalid, htarget.symm, m, hm, huser, hcommand⟩
      · cases h

end Events

theorem decodedAlike_iff {cfg : AuthConfig} {r : SudoRecord} {id id' : Str} {now now' : Int}
    {journal line : Str}
    (hjournal : JournalEntry.unmarshal journal = some ⟨r.text, "sudo".toList⟩) :
    DecodedAlike cfg r id id' now now' journal line ↔
      FoundSudo r ("sudo: ".toList ++ r.text) ∧ FoundSudo r line := by
  have hparse : parseJournalLine cfg id now journal =
      parseAuthLogLine cfg id now ("sudo: ".toList ++ r.text) := by
    rw [parseJournalLine, hjournal]
    rfl
  rw [DecodedAlike, hparse]
  constructor
  · rintro ⟨e, e', he, he', hsudo, hsudo', -⟩
    exact ⟨foundSudo_of_parse he hsudo, foundSudo_of_parse he' hsudo'⟩
  · rintro ⟨h, h'⟩
    exact ⟨_, _, h.parse, h'.parse, h.isSudoOf, h'.isSudoOf, rfl⟩

/-! ## The front of the pattern -/

theorem suffix_dropWhile {p : Char → Bool} {c : Char} {y : Str} (hc : p c = false)
    (h : c :: y <:+ z) : c :: y <:+ z.dropWhile p := by
  obtain ⟨t, rfl⟩ := h
  induction t with
  | nil =>
    simp [hc]
  | cons d t ih =>
    rw [cons_append]
    by_cases hd : p d = true
    · rw [dropWhile_cons_of_pos hd]
      exact ih
    · rw [dropWhile_cons_of_neg hd]
      exact suffix_append (d :: t) _

/-- Two words and the blanks behind them are dropped. -/
def dropTwoWords (s : Str) : Str :=
  (((s.dropWhile isNonBlank).dropWhile isBlankChar).dropWhile isNonBlank).dropWhile isBlankChar

/-- Behind `sudo:` and the user there is at most the colon. -/
theorem IsSudoFront.short {w : Str} (hw : IsSudoFront w s₁ n s₂) : (dropTwoWords w).length ≤ 1 := by
  obtain ⟨d, t, rfl⟩ := exists_cons_of_ne_nil hw.first.1
  obtain ⟨e, u, rfl⟩ := exists_cons_of_ne_nil hw.user.1
  have hd : isNonBlank d = false := by simp [isNonBlank, hw.first.2 d mem_cons_self]
  have he : isBlankChar e = false := by simpa [isNonBlank] using hw.user.2 e mem_cons_self
  have h1 : w.dropWhile isNonBlank = (d :: t) ++ ((e :: u) ++ (s₂ ++ ":".toList)) := by
    rw [hw.text, dropWhile_append_of_pos (forall_mem_of_all (by decide)), cons_append,
      dropWhile_cons_of_neg (by simp [hd])]
  have h2 : ((d :: t) ++ ((e :: u) ++ (s₂ ++ ":".toList))).dropWhile isBlankChar =
      (e :: u) ++ (s₂ ++ ":".toList) := by
    rw [dropWhile_append_of_pos hw.first.2, cons_append, dropWhile_cons_of_neg (by simp [he])]
  rw [dropTwoWords, h1, h2, dropWhile_append_of_pos hw.user.2]
  cases s₂ with
  | nil => decide
  | cons f =>
    have hf : isNonBlank f = false := by simp [isNonBlank, hw.second f mem_cons_self]
    rw [cons_append, dropWhile_cons_of_neg (by simp [hf]), ← cons_append,
      dropWhile_append_of_pos hw.second]
    decide

variable {v : Str}

/-- What the front of the pattern takes does not go on over ` ; U`. -/
theorem IsSudoFront.inside {w y : Str} (hw : IsSudoFront w s₁ n s₂)
    (h : w ++ a = v ++ (" ; U".toList ++ y)) : ∃ z, v = w ++ z := by
  rcases append_eq_append_iff.mp h with ⟨z, hz, -⟩ | ⟨z, hz, hrest⟩
  · exact ⟨z, hz⟩
  have hlast : w = ("sudo:".toList ++ (s₁ ++ (n ++ s₂))) ++ [':'] := by
    rw [hw.text]
    simp
  -- it ends in a colon
  have hcolon : ':' ∈ z ∨ z = [] := by
    rw [hz] at hlast
    refine (eq_nil_or_concat z).symm.imp_left ?_
    rintro ⟨z, c, rfl⟩
    rw [concat_eq_append, ← append_assoc] at hlast
    obtain rfl : c = ':' := by simpa using append_inj_right' hlast rfl
    simp
  rcases hcolon with hcolon | rfl
  swap
  · exact ⟨[], by simpa using hz.symm⟩
  rcases append_eq_append_iff.mp hrest with ⟨t, rfl, -⟩ | ⟨t, ht, -⟩
  · obtain ⟨c, t, rfl⟩ := exists_cons_of_ne_nil (l := t) (by rintro rfl; revert hcolon; decide)
    -- two words too many
    have hsuffix : 'U' :: c :: t <:+ dropTwoWords w := by
      refine suffix_dropWhile (by decide) (List.IsSuffix.trans (suffix_cons ' ' _) ?_)
      refine suffix_dropWhile (by decide) (List.IsSuffix.trans (suffix_cons ';' _) ?_)
      refine suffix_dropWhile (by decide) (List.IsSuffix.trans (suffix_cons ' ' _) ?_)
      refine suffix_dropWhile (by decide) ?_
      rw [hz]
      exact suffix_append v _
    have hlen := hsuffix.length_le
    have hshort := hw.short
    simp only [length_cons] at hlen
    omega
  · exact absurd (ht ▸ mem_append_left t hcolon) (by decide : ':' ∉ " ; U".toList)

section Front
variable {r : SudoRecord} (hroot : r.runas = "root".toList) {X : Str}
include hroot

theorem SudoRecord.ending_eq : r.ending =
    " ; USER=root ;".toList ++ [' '] ++ ("COMMAND=".toList ++ r.command) := by
  unfold SudoRecord.ending
  rw [hroot]
  simp only [append_assoc]
  rfl

theorem IsSudoFront.before_ending {w : Str} (hw : IsSudoFront w s₁ n s₂)
    (h : w ++ a = v ++ r.ending) : ∃ z, a = z ++ r.ending := by
  have hending : r.ending = " ; U".toList ++ ("SER=root ; COMMAND=".toList ++ r.command) := by
    rw [r.ending_eq hroot]
    simp only [append_assoc]
    rfl
  rw [hending] at h
  obtain ⟨z, rfl⟩ := hw.inside h
  rw [← hending, append_assoc] at h
  exact ⟨z, append_cancel_left h⟩

/-- Where the command of the record is found, the front begins before the ending. -/
theorem IsSudoFront.begins_before {w : Str} (hw : IsSudoFront w s₁ n s₂)
    (h : X ++ r.ending = P ++ (w ++ (d ++ ("COMMAND=".toList ++ cmd))))
    (hcommand : trimSpace cmd = r.command) :
    ∃ v, X = P ++ v ∧ w ++ (d ++ ("COMMAND=".toList ++ cmd)) = v ++ r.ending := by
  rcases append_eq_append_iff.mp h with ⟨t, ht, hrest⟩ | ⟨t, ht, hrest⟩
  · -- it would stand in the command
    have hstart : StartsNowhere "sudo:".toList (" ; USER=root ; COMMAND".toList ++ ['=']) := by
      refine startsNowhere_of_last (by decide) fun h => ?_
      exact absurd (contains_iff.mpr h) (by decide)
    have hending : (" ; USER=root ; COMMAND".toList ++ ['=']) ++ r.command =
        t ++ (w ++ (d ++ ("COMMAND=".toList ++ cmd))) := by
      rw [← hrest, r.ending_eq hroot]
      simp only [append_assoc]
      rfl
    obtain ⟨P', -, hcommand'⟩ := hstart.behind hending (hw.tag.trans (prefix_append w _))
    have hink := congrArg inkOf hcommand
    rw [inkOf_trimSpace, hcommand'] at hink
    simp only [inkOf_append] at hink
    have htag : inkOf "COMMAND=".toList = 8 := by decide
    omega
  · exact ⟨t, ht, hrest⟩

theorem accepts_reSudo_of_rest {w : Str} (h : Accepts sudoRest b w a) (hv : w ++ a = v ++ r.ending) :
    Accepts reSudo b w a := by
  obtain ⟨f, t, rfl, hf, ht⟩ := accepts_seq.mp h
  obtain ⟨s₁, n, s₂, hfront⟩ := accepts_sudoFront.mp hf
  rw [append_assoc] at hv
  obtain ⟨z, hz⟩ := hfront.before_ending hroot hv
  rw [r.ending_eq hroot, ← append_assoc] at hz
  exact .seq hf ((accepts_tails r.command_isLine hz).mp ht)

/-- Both patterns take the same front, and the command is that of the record when no
`COMMAND=` stands before the ending. -/
theorem first_alike {m m' : Match Char} (hm : IsFirst sudoRest [] P m)
    (hm' : IsFirst reSudo [] P m') (hx : m.text ++ m.after = v ++ r.ending)
    (hx' : m'.text ++ m'.after = v ++ r.ending) :
    m'.group 1 = m.group 1 ∧ ∃ z, m.group 3 = z ++ r.ending ∧
      (trimSpace (m'.group 2) = r.command ↔ ¬ "COMMAND=".toList <:+: z) := by
  have hhead := hm.head
  have hhead' := hm'.head
  rw [hm.before, hx] at hhead
  rw [hm'.before, hx'] at hhead'
  have hends : ∀ q j, (q, j) ∈ sudoFront.run ⟨P.reverse ++ [], v ++ r.ending⟩ [] →
      ∃ z, q.after = z ++ r.ending := by
    intro q j hq
    obtain ⟨w, s₁, n, s₂, hw, hfront, -⟩ := mem_run_sudoFront hq
    exact hfront.before_ending hroot hw.symm
  have hsame : ∀ q j, (q, j) ∈ sudoFront.run ⟨P.reverse ++ [], v ++ r.ending⟩ [] →
      (restTail.run q j = [] ↔ commandTail.run q j = []) := by
    rintro ⟨b, x⟩ j hq
    obtain ⟨z, hz⟩ := hends _ j hq
    obtain rfl : x = z ++ r.ending := hz
    rw [run_eq_nil_iff, run_eq_nil_iff]
    refine forall_congr' fun t => forall_congr' fun a => imp_congr_right fun hta => not_congr ?_
    rw [r.ending_eq hroot, ← append_assoc] at hta
    exact accepts_tails r.command_isLine hta.symm
  obtain ⟨q, j, hq, hrest, hcommand⟩ := head?_run_seq_alike hsame hhead
  have hcommand := hcommand.symm.trans hhead'
  obtain ⟨z, hz⟩ := hends q j hq
  have hone : ∀ {n : Nat} {t : Regex Char} {y : Lib.Place Char × Groups Char}, n ∉ t.groups →
      (t.run q j).head? = some y → y.2.lookup n = j.lookup n := fun hn hy =>
    lookup_run hn (mem_of_mem_head? hy)
  obtain ⟨d, cmd, hd, -, hcmd, hleast⟩ := command_head hcommand
  have hbody : q.after = z ++ " ; USER=root ;".toList ++ [' '] ++ ("COMMAND=".toList ++ r.command) := by
    rw [hz, r.ending_eq hroot]
    simp only [append_assoc]
  have hline : '\n' ∉ z ++ " ; USER=root ;".toList ++ [' '] := by
    obtain ⟨u, ⟨hu, -⟩, hacc⟩ := mem_run (mem_of_mem_head? hrest)
    obtain ⟨hnone, hnil⟩ := accepts_restTail.mp hacc
    rw [hnil, append_nil, hbody] at hu
    exact fun hn => hnone (hu ▸ mem_append_left _ hn)
  rw [hbody] at hd hleast
  refine ⟨?_, z, ?_, ?_⟩
  · rw [Match.group, Match.group, hone (by decide) hcommand, hone (by decide) hrest]
  · rw [Match.group, mem_run_restTail (mem_of_mem_head? hrest), hz]
    rfl
  · rw [Match.group, hcmd, Option.getD_some,
      command_iff hline r.command_isLine r.command_trimmed hd hleast]
    have hsplit : z ++ " ; USER=root ;".toList ++ [' '] = z ++ ' ' :: "; USER=root ; ".toList := by
      simp only [append_assoc]
      rfl
    have hfree : ¬ "COMMAND=".toList <:+: "; USER=root ; ".toList := fun h =>
      absurd (contains_iff.mpr h) (by decide)
    rw [hsplit, infix_append_cons (by decide)]
    simp only [hfree, or_false]

/-- The pattern finds the user and the command of the record in a text that ends in
it. -/
theorem found_iff :
    (∃ m, reSudo.find [] (X ++ r.ending) = some m ∧ trimSpace (m.group 1) = r.user ∧
      trimSpace (m.group 2) = r.command) ↔ NamedFirst r (X ++ r.ending) := by
  constructor
  · rintro ⟨m', hm', huser, hcommand⟩
    obtain ⟨P, hline, hfirst'⟩ := find_eq_some hm'
    obtain ⟨q, j, hq, hrest⟩ := head?_run_seq hfirst'.head
    obtain ⟨w, s₁, n, s₂, hw, hfront, -⟩ := mem_run_sudoFront hq
    obtain ⟨d, cmd, hd, -, hcmd, -⟩ := command_head hrest
    have hx : m'.text ++ m'.after = w ++ (d ++ ("COMMAND=".toList ++ cmd)) := hd ▸ hw
    obtain ⟨v, rfl, hv⟩ := hfront.begins_before hroot (hx ▸ hline) (by
      rwa [Match.group, hcmd, Option.getD_some] at hcommand)
    -- the other pattern takes something here, and nothing before
    have hacc : Accepts sudoRest (P.reverse ++ []) m'.text m'.after := by
      have hsudo := hfirst'.accepts
      rw [hfirst'.before] at hsudo
      exact accepts_sudoRest_of_sudo hsudo
    have hno : ∀ u v' w' a', P = u ++ v' → v' ≠ [] →
        v' ++ (m'.text ++ m'.after) = w' ++ a' → ¬ Accepts sudoRest (u.reverse ++ []) w' a' := by
      intro u v' w' a' hu hne hw' hacc'
      have hend : w' ++ a' = (v' ++ v) ++ r.ending := by rw [← hw', hx, hv, append_assoc]
      exact hfirst'.leftmost u v' w' a' hu hne hw' (accepts_reSudo_of_rest hroot hacc' hend)
    obtain ⟨m, hm, -, htext, hfirst⟩ := find_of_accepts hno hacc
    obtain ⟨hgroup, z, hz, hiff⟩ := first_alike hroot hfirst hfirst'
      (htext.trans (hx.trans hv)) (hx.trans hv)
    exact ⟨m, z, hline ▸ hm, hgroup ▸ huser, hz, hiff.mp hcommand⟩
  · rintro ⟨m, z, hm, huser, hz, hnone⟩
    obtain ⟨P, hline, hfirst⟩ := find_eq_some hm
    obtain ⟨q, j, hq, hrest⟩ := head?_run_seq hfirst.head
    obtain ⟨w, s₁, n, s₂, hw, hfront, -⟩ := mem_run_sudoFront hq
    have hafter : q.after = z ++ r.ending := by
      rw [← hz, Match.group, mem_run_restTail (mem_of_mem_head? hrest)]
      rfl
    have hx : m.text ++ m.after = (w ++ z) ++ r.ending := by
      rw [append_assoc, ← hafter]
      exact hw
    have hacc : Accepts reSudo (P.reverse ++ []) m.text m.after := by
      have hsudo := hfirst.accepts
      rw [hfirst.before] at hsudo
      exact accepts_reSudo_of_rest hroot hsudo hx
    have hno : ∀ u v' w' a', P = u ++ v' → v' ≠ [] →
        v' ++ (m.text ++ m.after) = w' ++ a' → ¬ Accepts reSudo (u.reverse ++ []) w' a' :=
      fun u v' w' a' hu hne hw' hacc' =>
        hfirst.leftmost u v' w' a' hu hne hw' (accepts_sudoRest_of_sudo hacc')
    obtain ⟨m', hm', -, htext, hfirst'⟩ := find_of_accepts hno hacc
    obtain ⟨hgroup, z', hz', hiff⟩ := first_alike hroot hfirst hfirst' hx (htext.trans hx)
    obtain rfl : z' = z := append_cancel_right (hz'.symm.trans hz)
    exact ⟨m', hline ▸ hm', hgroup ▸ huser, hiff.mpr hnone⟩

end Front

/-! ## Both forms -/

variable {pre : Str}

theorem noLogin_iff {line : Str} : noLogin line = true ↔
    reLoginFailed.find [] line = none ∧ reInvalidUser.find [] line = none := by
  simp [noLogin]

/-- A login in a line stands in any line that ends with it, and does not begin in
`sudo: `. -/
theorem find_tagged {re r1 r2 : Regex Char} {c : Char} {tag : Str}
    (hre : re = .seq (.seq (.lit (c :: tag)) r1) r2) (hblind : re.blind = true)
    (hfree : c ∉ "sudo: ".toList) {text : Str} (h : re.find [] (pre ++ text) = none) :
    re.find [] ("sudo: ".toList ++ text) = none := by
  by_contra hsome
  obtain ⟨w, hw, hacc⟩ := (find_ne_none_iff hblind).mp hsome
  obtain ⟨v, rfl⟩ : ∃ v, w = c :: v := by
    rw [hre] at hacc
    obtain ⟨u, v, rfl, hu, -⟩ := accepts_seq.mp hacc
    obtain ⟨t, y, rfl, ht, -⟩ := accepts_seq.mp hu
    rw [accepts_lit.mp ht]
    exact ⟨_, rfl⟩
  have hin := (infix_append_of_notMem hfree).mp hw
  exact (find_ne_none_iff hblind).mpr ⟨c :: v, hin.trans (suffix_append pre text).isInfix, hacc⟩ h

theorem noLogin_tagged {text : Str} (h : noLogin (pre ++ text) = true) :
    noLogin ("sudo: ".toList ++ text) = true := by
  rw [noLogin_iff] at h ⊢
  exact ⟨find_tagged rfl rfl (by decide) h.1, find_tagged rfl rfl (by decide) h.2⟩

theorem foundSudo_iff (r : SudoRecord) (pre : Str) : FoundSudo r (pre ++ r.text) ↔
    r.runas = "root".toList ∧ noLogin (pre ++ r.text) = true ∧ NamedFirst r (pre ++ r.text) := by
  have hline : pre ++ r.text = (pre ++ r.user ++ " :".toList ++ r.places) ++ r.ending := by
    simp only [SudoRecord.text, append_assoc]
  rw [hline, noLogin_iff]
  constructor
  · rintro ⟨hfailed, hinvalid, hroot, hfound⟩
    exact ⟨hroot, ⟨hfailed, hinvalid⟩, (found_iff hroot).mp hfound⟩
  · rintro ⟨hroot, ⟨hfailed, hinvalid⟩, hnamed⟩
    exact ⟨hfailed, hinvalid, hroot, (found_iff hroot).mpr hnamed⟩

/-- Both forms of a record are read as they should exactly when the command ran as root,
the line is not taken for a login, and both name the user first. -/
theorem sudo_alike_iff (cfg : AuthConfig) (r : SudoRecord) (id id' : Str) (now now' : Int)
    (stamp : Str) (pid : Option Str) (journal : Str)
    (hjournal : JournalEntry.unmarshal journal = some ⟨r.text, "sudo".toList⟩) :
    DecodedAlike cfg r id id' now now' journal (sudoLine stamp pid r) ↔
      r.runas = "root".toList ∧ noLogin (sudoLine stamp pid r) = true ∧
        NamedFirst r ("sudo: ".toList ++ r.text) ∧ NamedFirst r (sudoLine stamp pid r) := by
  rw [decodedAlike_iff hjournal, foundSudo_iff, sudoLine, foundSudo_iff]
  constructor
  · rintro ⟨⟨-, -, htext⟩, hroot, hlogin, hnamed⟩
    exact ⟨hroot, hlogin, htext, hnamed⟩
  · rintro ⟨hroot, hlogin, htext, hnamed⟩
    exact ⟨⟨hroot, noLogin_tagged hlogin, htext⟩, hroot, hlogin, hnamed⟩

/-- `bob : TTY=pts/0 ; PWD=… ; USER=… ; COMMAND=/bin/ls -l` -/
def bobRecord (pwd runas : Str) (hrunas : ∀ c ∈ runas, isSpace c = false ∧ c ≠ ':') :
    SudoRecord where
  user := "bob".toList
  tty := "pts/0".toList
  pwd := pwd
  runas := runas
  command := "/bin/ls -l".toList
  user_word := forall_mem_of_all (by decide)
  runas_word := hrunas
  command_ne := by decide
  command_line := by decide
  command_trimmed := by decide

/-- Run as root in an ordinary directory. -/
theorem bob_alike : ∃ r : SudoRecord,
    JournalEntry.unmarshal (JournalEntry.marshal ⟨r.text, "sudo".toList⟩) =
      some ⟨r.text, "sudo".toList⟩ ∧
    DecodedAlike plainConfig r [] [] 0 0 (JournalEntry.marshal ⟨r.text, "sudo".toList⟩)
      (sudoLine "Jan  1 00:00:00 h".toList none r) := by
  let r := bobRecord "/".toList "root".toList (forall_mem_of_all (by decide))
  have hnamed : ∀ line, (sudoRest.find [] line).map (fun m => (trimSpace (m.group 1), m.group 3)) =
      some (r.user, r.places ++ r.ending) → NamedFirst r line := by
    intro line h
    obtain ⟨m, hm, hgroups⟩ := Option.map_eq_some_iff.mp h
    obtain ⟨hone, hthree⟩ := Prod.mk.inj hgroups
    exact ⟨m, r.places, hm, hone, hthree, fun h => absurd (contains_iff.mpr h) (by decide)⟩
  have hjournal := JournalEntry.unmarshal_marshal ⟨r.text, "sudo".toList⟩
  exact ⟨r, hjournal, (sudo_alike_iff plainConfig r [] [] 0 0 _ none _ hjournal).mpr
    ⟨rfl, by decide +kernel, hnamed _ (by decide +kernel), hnamed _ (by decide +kernel)⟩⟩

/-- A command run as another user is reported as run as root, one from a directory with
`COMMAND=` in its name as another command, and one behind a tag with a number not at
all. -/
theorem sudo_misread :
    (parseAuthLogLine plainConfig [] 0 (sudoLine "Jan  1 00:00:00 h".toList none
      (bobRecord "/".toList "www".toList (forall_mem_of_all (by decide))))).map
        (fun e => e.actor.map (·.targetUser)) = some (some "root".toList) ∧
    (parseAuthLogLine plainConfig [] 0 (sudoLine "Jan  1 00:00:00 h".toList none
      (bobRecord "/COMMAND=x".toList "root".toList (forall_mem_of_all (by decide))))).map
        (fun e => e.actor.map (·.command)) =
          some (some "x ; USER=root ; COMMAND=/bin/ls -l".toList) ∧
    (parseAuthLogLine plainConfig [] 0 (sudoLine "Jan  1 00:00:00 h".toList (some "7".toList)
      (bobRecord "/".toList "root".toList (forall_mem_of_all (by decide))))).isNone = true := by
  decide +kernel

end YominsAgent.Events
