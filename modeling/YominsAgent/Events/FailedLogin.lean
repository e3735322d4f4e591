import YominsAgent.Events.AuthLine

/- Failed logins in the authentication log.

   A line of sshd is `T from a port n`, with a text `T` whose end the client chose as its
   user name. Both login patterns take the leftmost report in the line. A report that
   ends in `T` comes before the one of the line itself, and that one is only found when
   `T` ends in `Failed … for …` or `Invalid user …` with a name without blanks: so `T`
   decides which address is reported (`login_reported_iff`). -/
namespace YominsAgent.Events
open Go Lib List

/-! ## The lines -/

/-- The three forms of a failed attempt. -/
inductive AttemptForm where
  /-- `Failed M for u from a port n ssh2` -/
  | failed (method : Str)
  /-- `Failed M for invalid user u from a port n ssh2` -/
  | failedInvalid (method : Str)
  /-- `Invalid user u from a port n` -/
  | invalid

def AttemptForm.front : AttemptForm → Str
  | .failed method => "Failed ".toList ++ method ++ " for ".toList
  | .failedInvalid method => "Failed ".toList ++ method ++ " for invalid user ".toList
  | .invalid => "Invalid user ".toList

def AttemptForm.tail : AttemptForm → Str
  | .invalid => []
  | _ => " ssh2".toList

def attemptText (syslog : Str) (form : AttemptForm) (user : Str) : Str :=
  syslog ++ form.front ++ user

def attemptLine (syslog : Str) (form : AttemptForm) (user addr port : Str) : Str :=
  attemptText syslog form user ++ " from ".toList ++ addr ++ " port ".toList ++ port ++ form.tail

/-- The line makes a `login_failed` event with the address. -/
def Reports (cfg : AuthConfig) (id : Str) (now : Int) (line addr : Str) : Prop :=
  ∃ e, parseAuthLogLine cfg id now line = some e ∧ e.type = .authLoginFailed ∧
    e.actor.map (·.ip) = some addr

/-- `[\d.]+`: an address of IPv4 is one. -/
def IsAddress (s : Str) : Prop := s ≠ [] ∧ ∀ c ∈ s, isAddressChar c = true

/-- `\d+` -/
def IsNumber (s : Str) : Prop := s ≠ [] ∧ ∀ c ∈ s, c.isDigit = true

/-- The text ends in what `front` takes. -/
def endsIn (front : Regex Char) (text : Str) : Bool :=
  ((Regex.seq front endText).find [] text).isSome

/-- In the text before ` from a port n`: a complete report is one of the address, or
there is none and the text ends in an attempt; first for `reLoginFailed`, then for
`reInvalidUser`. -/
def namedFirst (addr text : Str) : Bool :=
  match reLoginFailed.find [] text with
  | some m => m.group 3 == addr
  | none =>
    endsIn failedFront text ||
      match reInvalidUser.find [] text with
      | some m => m.group 2 == addr
      | none => endsIn invalidFront text

/-! ## Words behind spaces -/

def spaced (ws : List Str) : Str := ws.flatMap (' ' :: ·)

theorem prefix_spaced {ws : List Str} {y t : Str} (hne : y ≠ []) (h : y ++ t = spaced ws) :
    ∃ ws1 w ws2 v, ws = ws1 ++ w :: ws2 ∧ y = spaced ws1 ++ ' ' :: v ∧ v <+: w := by
  induction ws generalizing y with
  | nil => exact absurd (append_eq_nil_iff.mp h).1 hne
  | cons w ws ih =>
    have hcons : y ++ t = (' ' :: w) ++ spaced ws := h
    rcases append_eq_append_iff.mp hcons with ⟨v, hv, -⟩ | ⟨z, hz, ht⟩
    · obtain ⟨c, y, rfl⟩ := exists_cons_of_ne_nil hne
      obtain ⟨rfl, hw⟩ := cons.inj hv
      exact ⟨[], w, ws, y, rfl, rfl, ⟨v, hw.symm⟩⟩
    · by_cases hznil : z = []
      · subst hznil
        exact ⟨[], w, ws, w, rfl, by simpa [spaced] using hz, prefix_refl w⟩
      · obtain ⟨ws1, w', ws2, v, rfl, rfl, hv⟩ := ih hznil ht.symm
        exact ⟨w :: ws1, w', ws2, v, rfl, by rw [hz]; simp [spaced], hv⟩

variable {s : Str}

theorem IsNumber.no_space (h : IsNumber s) : ' ' ∉ s := fun hc => nomatch h.2 ' ' hc

theorem IsAddress.no_space (h : IsAddress s) : ' ' ∉ s := fun hc => nomatch h.2 ' ' hc

theorem IsWord.no_space (h : IsWord s) : ' ' ∉ s := fun hc => nomatch h.2 ' ' hc

variable {w : Str}

theorem IsNumber.not_prefix {c : Char} (h : IsNumber s) (hc : c.isDigit = false) :
    ¬ s <+: c :: w := by
  intro hp
  obtain ⟨d, s, rfl⟩ := exists_cons_of_ne_nil h.1
  obtain rfl := (cons_prefix_cons.mp hp).1
  rw [h.2 d mem_cons_self] at hc
  cases hc

/-! ## Reports -/

/-- The end of a report. -/
def reportEnd (ip port : Str) : Str := spaced ["from".toList, ip, "port".toList, port]

/-- What both patterns take: a report of the address `ip` behind `front`. -/
structure IsReport (front : Regex Char) (w F ip port : Str) : Prop where
  text : w = F ++ reportEnd ip port
  front : Accepts front [] F []
  ip : IsAddress ip
  port : IsNumber port

variable {p q : Lib.Place Char} {g h : Groups Char}

theorem mem_run_reportTail {n : Nat} (hm : (q, h) ∈ (reportTail n).run p g) :
    ∃ ip port, p.after = reportEnd ip port ++ q.after ∧
      IsAddress ip ∧ IsNumber port ∧ h.lookup n = some ip := by
  have hn : n ∉ (Regex.seq (.lit " port ".toList) (.plus (.set Char.isDigit))).groups := by
    simp [Regex.groups, lit_groups, Regex.plus]
  obtain ⟨u, p1, j, ⟨hfrom, -⟩, hu, hm⟩ := mem_run_seq hm
  obtain ⟨ip, p2, k, ⟨haddr, -⟩, hip, hm, hgroup⟩ := mem_run_seq_group hn hm
  obtain ⟨v, ⟨hport, -⟩, hv⟩ := mem_run hm
  obtain ⟨v, port, rfl, hword, hd⟩ := accepts_seq.mp hv
  rw [accepts_lit] at hu hword
  refine ⟨ip, port, ?_, accepts_plus_set.mp hip, accepts_plus_set.mp hd, hgroup⟩
  rw [hfrom, haddr, hport, hu, hword]
  simp [reportEnd, spaced]

variable {b a : Str} {m : Match Char}

section Report
variable {front : Regex Char} {n : Nat}

theorem mem_run_report (hblind : front.blind = true)
    (hm : (q, h) ∈ (Regex.seq front (reportTail n)).run p g) :
    ∃ w F ip port, p.after = w ++ q.after ∧ IsReport front w F ip port ∧ h.lookup n = some ip := by
  obtain ⟨F, m, j, ⟨hF, -⟩, hacc, hrest⟩ := mem_run_seq hm
  obtain ⟨ip, port, hafter, hip, hport, hgroup⟩ := mem_run_reportTail hrest
  refine ⟨_, F, ip, port, ?_, ⟨rfl, hacc.anywhere hblind _ _, hip, hport⟩, hgroup⟩
  rw [hF, hafter, append_assoc]

theorem accepts_report (hblind : front.blind = true) :
    Accepts (.seq front (reportTail n)) b w a ↔ ∃ F ip port, IsReport front w F ip port := by
  constructor
  · intro h
    obtain ⟨k, hk⟩ := exists_run h []
    obtain ⟨w', F, ip, port, hw, hrep, -⟩ := mem_run_report hblind hk
    obtain rfl : w = w' := append_cancel_right hw
    exact ⟨F, ip, port, hrep⟩
  · rintro ⟨F, ip, port, rfl, hF, hip, hport⟩
    refine .seq (hF.anywhere hblind _ _) ?_
    have hsplit : reportEnd ip port =
        " from ".toList ++ (ip ++ (" port ".toList ++ port)) := by simp [reportEnd, spaced]
    rw [hsplit]
    exact .seq (accepts_lit.mpr rfl) (.seq (.group (accepts_plus_set.mpr hip))
      (.seq (accepts_lit.mpr rfl) (accepts_plus_set.mpr hport)))

/-! ## A report in a longer text -/

/-- What is known of the text in front of the address: two ways to go cannot differ in
it, and a whole report does not fit into it. -/
structure IsFront (front : Regex Char) (k : Nat) : Prop where
  blind : front.blind = true
  unique : ∀ F F' y y', Accepts front [] F [] → Accepts front [] F' [] →
    F ++ " from ".toList ++ y = F' ++ " from ".toList ++ y' → F = F'
  spaces : ∀ F, Accepts front [] F [] → k ≤ F.count ' ' ∧ F.count ' ' < k + 4

variable {text addr port rest : Str} {u z F ip num F' : Str}

/-- A report in a line ends before the address of the line, or it is a report of this
address. -/
theorem report_place (hrest : rest = [] ∨ rest = " ssh2".toList) (haddr : ' ' ∉ addr)
    (hport : ' ' ∉ port) (hw : IsReport front w F ip num)
    (h : u ++ (w ++ z) = text ++ (reportEnd addr port ++ rest)) :
    (∃ z', text = u ++ (w ++ z')) ∨ text = u ++ F ∧ ip = addr := by
  rw [← append_assoc] at h
  rcases append_eq_append_iff.mp h with ⟨z', hz, -⟩ | ⟨y, hy, hyz⟩
  · exact .inl ⟨z', by rw [hz, append_assoc]⟩
  · by_cases hyne : y = []
    · exact .inl ⟨[], by simpa [hyne] using hy.symm⟩
    obtain ⟨more, hmore, hwords⟩ : ∃ more, (more = [] ∨ more = ["ssh2".toList]) ∧
        reportEnd addr port ++ rest =
          spaced (["from".toList, addr, "port".toList, port] ++ more) := by
      rcases hrest with rfl | rfl
      · exact ⟨[], .inl rfl, by simp [reportEnd]⟩
      · exact ⟨["ssh2".toList], .inr rfl, by simp [reportEnd, spaced]⟩
    obtain ⟨ws1, x, ws2, v, hws, rfl, hv⟩ := prefix_spaced hyne (hyz.symm.trans hwords)
    -- the line is cut inside the word `x`, and the report ends there
    have hcut : u ++ F ++ spaced ["from".toList, ip, "port".toList] ++ ' ' :: num =
        text ++ spaced ws1 ++ ' ' :: v := by
      rw [hw.text] at hy
      simpa [reportEnd, spaced] using hy
    have hvs : ' ' ∉ x → num = v ∧
        u ++ F ++ spaced ["from".toList, ip] ++ ' ' :: "port".toList = text ++ spaced ws1 := by
      intro hx
      obtain ⟨hfront, hnum⟩ := last_unique hw.port.no_space
        (fun hc => hx (hv.subset hc)) hcut
      exact ⟨hnum, by simpa [spaced] using hfront⟩
    -- so `x` is the port: the other words are no numbers, or have another word before them
    rcases ws1 with _ | ⟨w1, _ | ⟨w2, _ | ⟨w3, _ | ⟨w4, ws1⟩⟩⟩⟩
    · obtain ⟨rfl, -⟩ := cons.inj hws
      obtain ⟨rfl, -⟩ := hvs (by decide)
      exact absurd hv (hw.port.not_prefix rfl)
    · simp only [cons_append, nil_append, cons.injEq] at hws
      obtain ⟨rfl, rfl, -⟩ := hws
      obtain ⟨-, hlast⟩ := hvs haddr
      have hword := (last_unique (by decide) (by decide) hlast).2
      exact absurd hword (by decide)
    · simp only [cons_append, nil_append, cons.injEq] at hws
      obtain ⟨rfl, rfl, rfl, -⟩ := hws
      obtain ⟨rfl, -⟩ := hvs (by decide)
      exact absurd hv (hw.port.not_prefix rfl)
    · simp only [cons_append, nil_append, cons.injEq] at hws
      obtain ⟨rfl, rfl, rfl, rfl, -⟩ := hws
      obtain ⟨-, hlast⟩ := hvs hport
      have hsame : (u ++ F ++ spaced ["from".toList] ++ ' ' :: ip) ++ ' ' :: "port".toList =
          (text ++ spaced ["from".toList] ++ ' ' :: addr) ++ ' ' :: "port".toList := by
        simpa [spaced] using hlast
      obtain ⟨hfrom, hip⟩ := last_unique hw.ip.no_space haddr (append_cancel_right hsame)
      refine .inr ⟨?_, hip⟩
      exact (append_cancel_right hfrom).symm
    · simp only [cons_append, nil_append, cons.injEq] at hws
      obtain ⟨rfl, rfl, rfl, rfl, hmore'⟩ := hws
      rcases hmore with rfl | rfl
      · simp at hmore'
      · rcases ws1 with _ | ⟨w5, ws1⟩
        · obtain ⟨rfl, -⟩ := cons.inj hmore'
          obtain ⟨rfl, -⟩ := hvs (by decide)
          exact absurd hv (hw.port.not_prefix rfl)
        · simp at hmore'

theorem report_unique {k : Nat} (hfront : IsFront front k) {w' ip' num' z' : Str}
    (hw : IsReport front w F ip num) (hw' : IsReport front w' F' ip' num') (h : w ++ z = w' ++ z') :
    ip = ip' := by
  rw [hw.text, hw'.text] at h
  have hfrom : F ++ " from ".toList ++ (ip ++ ' ' :: ("port ".toList ++ num ++ z)) =
      F' ++ " from ".toList ++ (ip' ++ ' ' :: ("port ".toList ++ num' ++ z')) := by
    simpa [reportEnd, spaced] using h
  obtain rfl := hfront.unique _ _ _ _ hw.front hw'.front hfrom
  exact (first_unique hw.ip.no_space hw'.ip.no_space (append_cancel_left hfrom)).1

theorem report_notMem_front {k : Nat} (hfront : IsFront front k) (hF : Accepts front [] F [])
    (hw : IsReport front w F' ip num) : F ≠ u ++ (w ++ z) := by
  rintro rfl
  have hlt := (hfront.spaces _ hF).2
  have hle := (hfront.spaces _ hw.front).1
  have hcount : 4 ≤ (reportEnd ip num).count ' ' := by
    simp [reportEnd, spaced]
    omega
  rw [hw.text] at hlt
  simp only [count_append] at hlt
  omega

theorem report_found (hblind : front.blind = true) {pre : Str}
    (hfirst : IsFirst (.seq front (reportTail n)) b pre m) :
    ∃ F num, IsReport front m.text F (m.group n) num := by
  obtain ⟨w, F, ip, num, hw, hrep, hgroup⟩ := mem_run_report hblind hfirst.mem
  obtain rfl : m.text = w := append_cancel_right hw
  refine ⟨F, num, ?_⟩
  rwa [Match.group, hgroup, Option.getD_some]

theorem endsIn_iff (hblind : front.blind = true) :
    endsIn front text = true ↔ ∃ u F, text = u ++ F ∧ Accepts front [] F [] := by
  rw [endsIn, Option.isSome_iff_ne_none, ne_eq, find_eq_none_iff]
  constructor
  · intro h
    by_contra hno
    refine h fun u w a htext hacc => hno ?_
    obtain ⟨F, e, rfl, hF, hend⟩ := accepts_seq.mp hacc
    obtain ⟨rfl, hnone⟩ := accepts_look.mp hend
    obtain rfl : a = [] := by simpa using hnone
    exact ⟨u, F, by simpa using htext, hF.anywhere hblind _ _⟩
  · rintro ⟨u, F, rfl, hF⟩ h
    refine h u F [] (by simp) ?_
    have hacc : Accepts (.seq front endText) (u.reverse ++ []) (F ++ []) [] :=
      .seq (hF.anywhere hblind _ _) (.look rfl)
    simpa using hacc

variable {k : Nat} (hfront : IsFront front k) (hrest : rest = [] ∨ rest = " ssh2".toList)
  (haddr : ' ' ∉ addr) (hport : ' ' ∉ port)

include hfront hrest haddr hport

theorem find_report_some (hm : (Regex.seq front (reportTail n)).find [] text = some m) :
    ∃ m', (Regex.seq front (reportTail n)).find [] (text ++ (reportEnd addr port ++ rest)) =
      some m' ∧ m'.group n = m.group n := by
  obtain ⟨pre, htext, hfirst⟩ := find_eq_some hm
  obtain ⟨F, num, hrep⟩ := report_found hfront.blind hfirst
  have hacc : Accepts (.seq front (reportTail n)) (pre.reverse ++ []) m.text
      (m.after ++ (reportEnd addr port ++ rest)) :=
    (accepts_report hfront.blind).mpr ⟨F, _, num, hrep⟩
  have hno : ∀ u v w' a', pre = u ++ v → v ≠ [] →
      v ++ (m.text ++ (m.after ++ (reportEnd addr port ++ rest))) = w' ++ a' →
      ¬ Accepts (.seq front (reportTail n)) (u.reverse ++ []) w' a' := by
    intro u v w' a' hpre hv hw' hacc'
    obtain ⟨F', ip', num', hrep'⟩ := (accepts_report hfront.blind).mp hacc'
    have hline : u ++ (w' ++ a') = text ++ (reportEnd addr port ++ rest) := by
      rw [← hw', htext, hpre]
      simp
    rcases report_place hrest haddr hport hrep' hline with ⟨z', hz⟩ | ⟨hz, -⟩
    · -- it is a report in the text, further left
      have hcut : v ++ (m.text ++ m.after) = w' ++ z' := by
        rw [htext, hpre, append_assoc] at hz
        exact append_cancel_left hz
      exact hfirst.leftmost u v w' z' hpre hv hcut
        ((accepts_report hfront.blind).mpr ⟨F', ip', num', hrep'⟩)
    · -- the first report would be in its front
      have hcut : F' = v ++ (m.text ++ m.after) := by
        rw [htext, hpre, append_assoc] at hz
        exact (append_cancel_left hz).symm
      exact report_notMem_front hfront hrep'.front hrep hcut
  obtain ⟨m', hm', -, htext', hfirst'⟩ := find_of_accepts hno hacc
  obtain ⟨F', num', hrep'⟩ := report_found hfront.blind hfirst'
  refine ⟨m', ?_, report_unique hfront hrep' hrep htext'⟩
  rw [← hm', htext]
  simp

/-- Without one the report of the line itself is found, if there is one. -/
theorem find_report_none (hnone : (Regex.seq front (reportTail n)).find [] text = none) :
    (∀ m, (Regex.seq front (reportTail n)).find [] (text ++ (reportEnd addr port ++ rest)) = some m →
      m.group n = addr ∧ IsAddress addr ∧ endsIn front text = true) ∧
    (IsAddress addr → IsNumber port → endsIn front text = true →
      (Regex.seq front (reportTail n)).find [] (text ++ (reportEnd addr port ++ rest)) ≠ none) := by
  constructor
  · intro m hm
    obtain ⟨pre, htext, hfirst⟩ := find_eq_some hm
    obtain ⟨F, num, hrep⟩ := report_found hfront.blind hfirst
    rcases report_place hrest haddr hport hrep htext.symm with ⟨z', hz⟩ | ⟨hz, hip⟩
    · exact absurd ((accepts_report hfront.blind).mpr ⟨F, _, num, hrep⟩)
        (find_eq_none hnone pre m.text z' hz)
    · exact ⟨hip, hip ▸ hrep.ip, (endsIn_iff hfront.blind).mpr ⟨pre, F, hz, hrep.front⟩⟩
  · intro hip hnum hends
    obtain ⟨u, F, rfl, hF⟩ := (endsIn_iff hfront.blind).mp hends
    intro hno
    have hrep : IsReport front (F ++ reportEnd addr port) F addr port := ⟨rfl, hF, hip, hnum⟩
    refine find_eq_none hno u (F ++ reportEnd addr port) rest (by simp) ?_
    exact (accepts_report hfront.blind).mpr ⟨F, addr, port, hrep⟩

end Report

/-! ## The fronts of the two patterns -/

theorem accepts_failedFront : Accepts failedFront b w a ↔
    ∃ method inv user, w = "Failed ".toList ++ (method ++ (" for ".toList ++ (inv ++ user))) ∧
      (inv = "invalid user ".toList ∨ inv = []) ∧ IsWord method ∧ IsWord user := by
  simp only [failedFront, accepts_seq, accepts_lit, accepts_group, accepts_opt, accepts_nonBlanks]
  constructor
  · rintro ⟨_, _, rfl, rfl, method, _, rfl, hmethod, _, _, rfl, rfl, inv, user, rfl, hinv, huser⟩
    exact ⟨method, inv, user, rfl, hinv, hmethod, huser⟩
  · rintro ⟨method, inv, user, rfl, hinv, hmethod, huser⟩
    exact ⟨_, _, rfl, rfl, method, _, rfl, hmethod, _, _, rfl, rfl, inv, user, rfl, hinv, huser⟩

theorem accepts_invalidFront : Accepts invalidFront b w a ↔
    ∃ user, w = "Invalid user ".toList ++ user ∧ IsWord user := by
  simp only [invalidFront, accepts_seq, accepts_lit, accepts_group, accepts_nonBlanks]
  constructor
  · rintro ⟨_, user, rfl, rfl, huser⟩
    exact ⟨user, rfl, huser⟩
  · rintro ⟨user, rfl, huser⟩
    exact ⟨_, user, rfl, rfl, huser⟩

theorem isFront_failed : IsFront failedFront 3 where
  blind := rfl
  unique F F' y y' hF hF' h := by
    obtain ⟨method, inv, user, rfl, hinv, hmethod, huser⟩ := accepts_failedFront.mp hF
    obtain ⟨method', inv', user', rfl, hinv', hmethod', huser'⟩ := accepts_failedFront.mp hF'
    have hword : method ++ ' ' :: ("for ".toList ++ (inv ++ (user ++ " from ".toList ++ y))) =
        method' ++ ' ' :: ("for ".toList ++ (inv' ++ (user' ++ " from ".toList ++ y'))) := by
      simpa using h
    obtain ⟨rfl, hfor⟩ := first_unique hmethod.no_space hmethod'.no_space hword
    have huserWord : inv ++ (user ++ ' ' :: ("from ".toList ++ y)) =
        inv' ++ (user' ++ ' ' :: ("from ".toList ++ y')) := by
      simpa using hfor
    rcases hinv with rfl | rfl <;> rcases hinv' with rfl | rfl
    · rw [(first_unique huser.no_space huser'.no_space (append_cancel_left huserWord)).1]
    · -- `invalid` is the name here, and not followed by `from`
      have hname : "invalid".toList ++ ' ' :: ("user ".toList ++ (user ++ ' ' :: ("from ".toList ++ y))) =
          user' ++ ' ' :: ("from ".toList ++ y') := by simpa using huserWord
      have hnext := (first_unique (by decide) huser'.no_space hname).2
      exact absurd (cons.inj hnext).1 (by decide)
    · have hname : user ++ ' ' :: ("from ".toList ++ y) =
          "invalid".toList ++ ' ' :: ("user ".toList ++ (user' ++ ' ' :: ("from ".toList ++ y'))) := by
        simpa using huserWord
      have hnext := (first_unique huser.no_space (by decide) hname).2
      exact absurd (cons.inj hnext).1 (by decide)
    · rw [(first_unique huser.no_space huser'.no_space huserWord).1]
  spaces F hF := by
    obtain ⟨method, inv, user, rfl, hinv, hmethod, huser⟩ := accepts_failedFront.mp hF
    have h1 := count_eq_zero.mpr hmethod.no_space
    have h2 := count_eq_zero.mpr huser.no_space
    simp only [count_append, h1, h2]
    rcases hinv with rfl | rfl <;> decide

theorem isFront_invalid : IsFront invalidFront 2 where
  blind := rfl
  unique F F' y y' hF hF' h := by
    obtain ⟨user, rfl, huser⟩ := accepts_invalidFront.mp hF
    obtain ⟨user', rfl, huser'⟩ := accepts_invalidFront.mp hF'
    have hname : user ++ ' ' :: ("from ".toList ++ y) = user' ++ ' ' :: ("from ".toList ++ y') := by
      simpa using h
    rw [(first_unique huser.no_space huser'.no_space hname).1]
  spaces F hF := by
    obtain ⟨user, rfl, huser⟩ := accepts_invalidFront.mp hF
    simp only [count_append, count_eq_zero.mpr huser.no_space]
    decide

/-! ## The event of a line -/

variable {cfg : AuthConfig} {id : Str} {now : Int} {text addr port rest : Str}

/-- The address of the event is that of the first report. -/
theorem reports_iff {line : Str} : Reports cfg id now line addr ↔
    match reLoginFailed.find [] line with
    | some m => m.group 3 = addr
    | none =>
      match reInvalidUser.find [] line with
      | some m => m.group 2 = addr
      | none => False := by
  unfold Reports parseAuthLogLine
  cases reLoginFailed.find [] line with
  | some => simp [loginFailedEvent]
  | none =>
    cases reInvalidUser.find [] line with
    | some => simp [loginFailedEvent]
    | none =>
      cases reSudo.find [] line with
      | some => simp [sudoEvent]
      | none => simp

theorem isAddress_group {front : Regex Char} {n : Nat} (hblind : front.blind = true)
    (hm : (Regex.seq front (reportTail n)).find [] text = some m) : IsAddress (m.group n) := by
  obtain ⟨pre, -, hfirst⟩ := find_eq_some hm
  obtain ⟨F, num, hrep⟩ := report_found hblind hfirst
  exact hrep.ip

theorem reports_line_iff (hrest : rest = [] ∨ rest = " ssh2".toList) (haddr : ' ' ∉ addr)
    (hport : IsNumber port) :
    Reports cfg id now (text ++ (reportEnd addr port ++ rest)) addr ↔
      IsAddress addr ∧ namedFirst addr text = true := by
  have hspace := hport.no_space
  rw [reports_iff, namedFirst]
  cases hT : reLoginFailed.find [] text with
  | some m =>
    obtain ⟨m', hL, hgroup⟩ := find_report_some isFront_failed hrest haddr hspace hT
    have hip : IsAddress (m.group 3) := isAddress_group isFront_failed.blind hT
    simp only [show reLoginFailed.find [] (text ++ (reportEnd addr port ++ rest)) = some m' from hL,
      hgroup, beq_iff_eq]
    exact ⟨fun h => ⟨h ▸ hip, h⟩, fun h => h.2⟩
  | none =>
    obtain ⟨hfound, hmust⟩ := find_report_none isFront_failed hrest haddr hspace hT
    cases hL : reLoginFailed.find [] (text ++ (reportEnd addr port ++ rest)) with
    | some m' =>
      obtain ⟨hgroup, hip, hends⟩ := hfound m' hL
      simp [hgroup, hip, hends]
    | none =>
      -- no attempt of the first pattern; the second one decides
      have hno : IsAddress addr → endsIn failedFront text = false := by
        intro hip
        rw [Bool.eq_false_iff]
        exact fun hends => hmust hip hport hends hL
      cases hT2 : reInvalidUser.find [] text with
      | some m =>
        obtain ⟨m', hL2, hgroup⟩ := find_report_some isFront_invalid hrest haddr hspace hT2
        have hip : IsAddress (m.group 2) := isAddress_group isFront_invalid.blind hT2
        simp only [show reInvalidUser.find [] (text ++ (reportEnd addr port ++ rest)) = some m'
          from hL2, hgroup, Bool.or_eq_true, beq_iff_eq]
        constructor
        · exact fun h => ⟨h ▸ hip, .inr h⟩
        · rintro ⟨haddress, hends | h⟩
          · rw [hno haddress] at hends
            cases hends
          · exact h
      | none =>
        obtain ⟨hfound2, hmust2⟩ := find_report_none isFront_invalid hrest haddr hspace hT2
        cases hL2 : reInvalidUser.find [] (text ++ (reportEnd addr port ++ rest)) with
        | some m' =>
          obtain ⟨hgroup, hip, hends⟩ := hfound2 m' hL2
          simp [hgroup, hip, hends]
        | none =>
          simp only [Bool.or_eq_true, false_iff, not_and, not_or]
          intro hip
          refine ⟨by simp [hno hip], fun hends => hmust2 hip hport hends hL2⟩

theorem attemptLine_eq (syslog : Str) (form : AttemptForm) (user addr port : Str) :
    attemptLine syslog form user addr port =
      attemptText syslog form user ++ (reportEnd addr port ++ form.tail) := by
  simp [attemptLine, reportEnd, spaced]

/-- A failed attempt is reported with its address exactly when that address is of
digits and dots, and the text before it names no other address first and ends in an
attempt. -/
theorem login_reported_iff (cfg : AuthConfig) (id : Str) (now : Int) (syslog : Str)
    (form : AttemptForm) (user addr port : Str) (haddr : ' ' ∉ addr) (hport : IsNumber port) :
    Reports cfg id now (attemptLine syslog form user addr port) addr ↔
      IsAddress addr ∧ namedFirst addr (attemptText syslog form user) = true := by
  rw [attemptLine_eq]
  refine reports_line_iff ?_ haddr hport
  cases form with
  | invalid => exact Or.inl rfl
  | _ => exact Or.inr rfl

/-- The example of the source, behind a syslog prefix. -/
theorem alice_reported : ' ' ∉ "1.2.3.4".toList ∧ IsNumber "22".toList ∧
    Reports plainConfig [] 0 (attemptLine "Jan  1 00:00:00 h sshd[7]: ".toList
      (.failedInvalid "password".toList) "alice".toList "1.2.3.4".toList "22".toList)
      "1.2.3.4".toList := by
  have hport : IsNumber "22".toList := ⟨by decide, forall_mem_of_all (by decide)⟩
  refine ⟨by decide, hport, (login_reported_iff plainConfig [] 0 _ _ _ _ _ (by decide) hport).mpr ?_⟩
  exact ⟨⟨by decide, forall_mem_of_all (by decide)⟩, by decide +kernel⟩

/-- A user name makes the agent report another address, one with a space hides the
attempt, and an attempt from an IPv6 address is not seen. -/
theorem login_spoofed :
    (parseAuthLogLine plainConfig [] 0 (attemptLine [] .invalid "x from 1.2.3.4 port 22".toList
      "5.6.7.8".toList "22".toList)).map (fun e => (e.type, e.actor.map (·.ip))) =
        some (.authLoginFailed, some "1.2.3.4".toList) ∧
    (parseAuthLogLine plainConfig [] 0 (attemptLine [] .invalid "a b".toList
      "5.6.7.8".toList "22".toList)).isNone = true ∧
    (parseAuthLogLine plainConfig [] 0 (attemptLine [] (.failed "password".toList) "root".toList
      "2001:db8::1".toList "22".toList)).isNone = true := by
  decide +kernel

end YominsAgent.Events
