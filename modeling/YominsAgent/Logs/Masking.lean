import YominsAgent.Lib.Marks
import YominsAgent.Logs.Redact

/- The default rules on marked texts.

   Every rule keeps the front of its match and puts the mask in the place of a value; between the
   two, blanks may become one space, and the last rule keeps the `@` behind the value. `Hides` says
   so for one match, with what the value is made of and what cannot follow it. On marked texts
   (`Masking.apply`) the rules show what they make of the plain text, and the source stays. -/
namespace YominsAgent.Logs
open Go Lib List Option

abbrev Marked := List (Mark Char)

/-- Blanks, as one space. -/
def spaceOver : Marked → Marked
  | [] => []
  | x :: t => standIn [' '] (x :: t)

/-- Keeps the first `n` marks and the last `tail`, and masks the value in between. -/
def cover (n tail : Nat) (text : Marked) : Marked :=
  let rest := text.drop n
  let value := rest.dropWhile fun x => isBlankChar x.shown
  text.take n ++ (spaceOver (rest.takeWhile fun x => isBlankChar x.shown) ++
    (standIn mask (value.take (value.length - tail)) ++ value.drop (value.length - tail)))

@[simp] theorem source_spaceOver (t : Marked) : source (spaceOver t) = source t := by
  cases t with
  | nil => rfl
  | cons => exact source_standIn

@[simp] theorem source_mask (t : Marked) : source (standIn mask t) = source t := source_standIn

theorem source_cover (n tail : Nat) (text : Marked) : source (cover n tail text) = source text := by
  simp only [cover, source_append, source_spaceOver, source_mask]
  rw [← source_append (t := take _ _), take_append_drop, ← source_append,
    takeWhile_append_dropWhile, ← source_append, take_append_drop]

theorem cover_eq {kept blanks value tail : Marked} (hb : ∀ x ∈ blanks, isBlankChar x.shown = true)
    (hv : ∃ x ∈ value.head?, isBlankChar x.shown = false) :
    cover kept.length tail.length (kept ++ (blanks ++ (value ++ tail))) =
      kept ++ (spaceOver blanks ++ (standIn mask value ++ tail)) := by
  obtain ⟨x, hx, hblank⟩ := hv
  obtain ⟨value, rfl⟩ := head?_eq_some_iff.mp (mem_def.mp hx)
  have htake : (blanks ++ (x :: value ++ tail)).takeWhile (fun x => isBlankChar x.shown) = blanks := by
    rw [takeWhile_append_of_pos hb, cons_append, takeWhile_cons, if_neg (by simp [hblank]),
      append_nil]
  have hdrop : (blanks ++ (x :: value ++ tail)).dropWhile (fun x => isBlankChar x.shown) =
      x :: value ++ tail := by
    rw [dropWhile_append_of_pos hb, cons_append, dropWhile_cons, if_neg (by simp [hblank])]
  have hlen : (x :: value ++ tail).length - tail.length = (x :: value).length := by
    rw [length_append, Nat.add_sub_cancel]
  simp only [cover, take_left, drop_left, htake, hdrop, hlen]

/-- A rule on marked texts: how much of a match it keeps in front and behind. -/
structure Masking where
  rule : RedactRule
  keeps : Match (Mark Char) → Nat
  tail : Nat

def Masking.re (k : Masking) : Regex (Mark Char) := k.rule.re.comap Mark.shown

def Masking.repl (k : Masking) (m : Match (Mark Char)) : Marked := cover (k.keeps m) k.tail m.text

def Masking.apply (k : Masking) (t : Marked) : Marked := k.re.replaceAll k.repl t

def Masking.hinted (k : Masking) (lower : Str) (t : Marked) : Marked :=
  if k.rule.runs lower then k.apply t else t

def authorizationMasking : Masking := ⟨authorization, fun m => (m.group 1 ++ m.group 2).length, 0⟩
def bearerMasking : Masking := ⟨bearer, fun m => (m.group 1).length, 0⟩
def keyValueMasking : Masking := ⟨keyValue, fun m => (m.group 1).length, 0⟩
def credentialsMasking : Masking := ⟨credentials, fun m => (m.group 1).length, 1⟩

def defaultMaskings : List Masking :=
  [authorizationMasking, bearerMasking, keyValueMasking, credentialsMasking]

theorem mem_defaultMaskings : authorizationMasking ∈ defaultMaskings ∧
    bearerMasking ∈ defaultMaskings ∧ keyValueMasking ∈ defaultMaskings ∧
    credentialsMasking ∈ defaultMaskings := by
  simp [defaultMaskings]

/-! ## What a match hides -/

/-- What the first two rules keep in front of the value. -/
def authorizationFront : Regex Char :=
  .seq (.seq (word "authorization".toList) assign) (.opt schemes)

def bearerFront : Regex Char := .seq wordBoundary (word "bearer".toList)

/-- The last mark in front of what is put in shows no digit and no mask, and before a
space no space. -/
def Opens (kept blanks : Marked) : Prop :=
  ∃ p x, kept = p ++ [x] ∧ x.shown.isDigit = false ∧ x.shown ≠ '*' ∧ (blanks ≠ [] → x.shown ≠ ' ')

/-- The match `m` is replaced by `out`: behind `kept`, which `front` accepts, the
blanks become a space and the value the mask. The value is made of `g`, and what
follows it is not in `f`. -/
structure Hides (front : Regex Char) (f g : Char → Bool) (m : Match (Mark Char)) (out : Marked)
    (kept blanks value tail : Marked) : Prop where
  text : m.text = kept ++ (blanks ++ (value ++ tail))
  out_eq : out = kept ++ (spaceOver blanks ++ (standIn mask value ++ tail))
  front : Accepts front (m.before.map Mark.shown) (kept.map Mark.shown)
    ((blanks ++ (value ++ tail) ++ m.after).map Mark.shown)
  opens : Opens kept blanks
  blanks : ∀ x ∈ blanks, isBlankChar x.shown = true
  ne_nil : value ≠ []
  value : ∀ x ∈ value, g x.shown = true
  left : Left f ((tail ++ m.after).map Mark.shown)

/-- The head of what follows a greedy value is outside of it. -/
theorem IsFirst.left {r : Regex Char} {f : Char → Bool} (hr : EndsGreedy f r) {b pre : Marked}
    {m : Match (Mark Char)} (h : IsFirst (r.comap Mark.shown) b pre m) :
    Left f (m.after.map Mark.shown) := by
  have hleft := (hr.comap Mark.shown).left h.head
  intro c hc
  rw [head?_map] at hc
  obtain ⟨x, hx, rfl⟩ := map_eq_some_iff.mp (mem_def.mp hc)
  exact hleft x hx

theorem lookup_group {m : Match (Mark Char)} {n : Nat} {u : Marked} (h : m.groups.lookup n = some u) :
    m.group n = u := by
  rw [Match.group, h]
  rfl

theorem cover_group (tail : Marked) {n : Nat} {m : Match (Mark Char)} {kept blanks value : Marked}
    {g : Char → Bool} (hg : ∀ c, g c = true → isBlankChar c = false)
    (htext : m.text = kept ++ (blanks ++ (value ++ tail))) (hn : n = kept.length)
    (hb : ∀ x ∈ blanks, isBlankChar x.shown = true) (hne : value ≠ [])
    (hv : ∀ x ∈ value, g x.shown = true) :
    cover n tail.length m.text = kept ++ (spaceOver blanks ++ (standIn mask value ++ tail)) := by
  obtain ⟨x, t, rfl⟩ := exists_cons_of_ne_nil hne
  rw [htext, hn]
  exact cover_eq hb ⟨x, rfl, hg _ (hv x mem_cons_self)⟩

theorem opens_of_front {r : Regex Char} (htakes : r.takes = true)
    (hd : "0123456789".toList.any r.uses = false) (hstar : r.uses '*' = false)
    {b a : Str} {kept : Marked} (h : Accepts r b (kept.map Mark.shown) a) (blanks : Marked)
    (hspace : blanks ≠ [] → r.uses ' ' = false) : Opens kept blanks := by
  have hne : kept ≠ [] := by
    rintro rfl
    exact solid_of_takes htakes _ _ _ h rfl
  obtain ⟨p, x, rfl⟩ := eq_nil_or_concat' kept |>.resolve_left hne
  have hmem : x.shown ∈ (p ++ [x]).map Mark.shown :=
    mem_map_of_mem (mem_append_right p mem_cons_self)
  exact ⟨p, x, rfl, not_digit hd (h.uses hmem), h.ne_of_mem hmem hstar,
    fun hb => h.ne_of_mem hmem (hspace hb)⟩

theorem credentialsFront_last {b w a : Str} (h : Accepts credentialsFront b w a) :
    ∃ p, w = p ++ [':'] := by
  obtain ⟨u1, w, rfl, -, h⟩ := accepts_seq.mp h
  obtain ⟨u2, w, rfl, -, h⟩ := accepts_seq.mp h
  obtain ⟨u3, w, rfl, -, h⟩ := accepts_seq.mp h
  obtain ⟨u4, w, rfl, -, h⟩ := accepts_seq.mp h
  obtain ⟨u5, w, rfl, -, h⟩ := accepts_seq.mp h
  obtain ⟨u6, w, rfl, -, h⟩ := accepts_seq.mp h
  obtain ⟨c, hc, rfl⟩ := accepts_anyOf.mp h
  rw [mem_singleton.mp hc]
  exact ⟨u1 ++ (u2 ++ (u3 ++ (u4 ++ (u5 ++ u6)))), by simp only [append_assoc]⟩

theorem accepts_marked_plus {f : Char → Bool} {b v a : Marked}
    (h : Accepts ((Regex.plus (.set f)).comap Mark.shown) b v a) :
    v ≠ [] ∧ ∀ x ∈ v, f x.shown = true := by
  have h := (accepts_comap Mark.shown).mp h
  simpa using h

section Shapes

variable {b pre : Marked} {m : Match (Mark Char)}

theorem keyValue_hides (h : IsFirst keyValueMasking.re b pre m) :
    ∃ value, Hides keyValueFront isValueChar isValueChar m (keyValueMasking.repl m)
      (m.group 1) [] value [] := by
  obtain ⟨u, v, j, htext, hu, hv, hlookup⟩ := mem_run_group (by decide) h.mem
  have hfront := (accepts_comap Mark.shown).mp (accepts_of_mem_run hu)
  have hvalue := accepts_marked_plus (accepts_group.mp (accepts_of_mem_run hv))
  rw [lookup_group hlookup]
  have hkeeps : keyValueMasking.keeps m = u.length := congrArg length (lookup_group hlookup)
  refine ⟨v, ⟨by simpa using htext, ?_, by simpa using hfront,
    opens_of_front (by decide) (by decide) (by decide) hfront [] (absurd rfl ·), nofun, hvalue.1,
    hvalue.2, IsFirst.left (.seq (.group .plus)) h⟩⟩
  exact cover_group [] (fun _ => not_blank (by decide)) (by simpa using htext) hkeeps nofun
    hvalue.1 hvalue.2

theorem credentials_hides (h : IsFirst credentialsMasking.re b pre m) :
    ∃ value x, x.shown = '@' ∧ Hides credentialsFront isTokenChar isPassChar m
      (credentialsMasking.repl m) (m.group 1) [] value [x] := by
  obtain ⟨u, v, j, htext, hu, hv, hlookup⟩ := mem_run_group (by decide) h.mem
  have hfront := (accepts_comap Mark.shown).mp (accepts_of_mem_run hu)
  obtain ⟨value, tail, rfl, hvalue, htail⟩ := accepts_seq.mp (accepts_of_mem_run hv)
  obtain ⟨x, rfl, hx⟩ := accepts_set.mp htail
  have hvalue := accepts_marked_plus hvalue
  have hx : x.shown = '@' := by simpa using hx
  rw [lookup_group hlookup]
  have hkeeps : credentialsMasking.keeps m = u.length := congrArg length (lookup_group hlookup)
  refine ⟨value, x, hx, ⟨by simpa using htext, ?_, by simpa using hfront, ?_, nofun, hvalue.1,
    hvalue.2, ?_⟩⟩
  · exact cover_group [x] (fun _ => not_blank (by decide)) (by simpa using htext) hkeeps nofun
      hvalue.1 hvalue.2
  · obtain ⟨p, hp⟩ := credentialsFront_last hfront
    obtain ⟨p, z, rfl, -, hz⟩ := map_eq_append_iff.mp hp
    obtain ⟨y, rfl, hy⟩ := map_eq_singleton_iff.mp hz
    exact ⟨p, y, rfl, by rw [hy]; decide, by rw [hy]; decide, absurd rfl⟩
  · intro c hc
    obtain rfl : x.shown = c := some.inj (mem_def.mp hc)
    rw [hx]
    decide

theorem bearer_hides (h : IsFirst bearerMasking.re b pre m) :
    ∃ blanks value, blanks ≠ [] ∧ Hides bearerFront isTokenChar isTokenChar m
      (bearerMasking.repl m) (m.group 1) blanks value [] := by
  have hleft := IsFirst.left (f := isTokenChar) (.seq (.seq (.seq (.seq .star)))) h
  obtain ⟨hlook, hmem⟩ := mem_run_look_seq h.mem
  obtain ⟨u, v, j, htext, hu, hv, hlookup⟩ := mem_run_group (by decide) hmem
  have hword := (accepts_comap Mark.shown).mp (accepts_of_mem_run hu)
  obtain ⟨blanks, value, rfl, hblanks, hvalue⟩ := accepts_seq.mp (accepts_of_mem_run hv)
  have hblanks := accepts_marked_plus hblanks
  have hvalue := (accepts_comap Mark.shown).mp hvalue
  obtain ⟨v1, v2, hsplit, h1, h2⟩ := accepts_seq.mp hvalue
  rw [accepts_times_set] at h1
  rw [accepts_star_set] at h2
  have htokens : ∀ x ∈ value, isTokenChar x.shown = true := by
    rw [← forall_mem_map (f := Mark.shown) (P := fun c => isTokenChar c = true), hsplit]
    exact forall_mem_append.mpr ⟨h1.2, h2⟩
  have hne : value ≠ [] := by
    rintro rfl
    rw [map_nil, eq_comm, append_eq_nil_iff] at hsplit
    rw [hsplit.1] at h1
    cases h1.1
  rw [lookup_group hlookup]
  have hkeeps : bearerMasking.keeps m = u.length := congrArg length (lookup_group hlookup)
  refine ⟨blanks, value, hblanks.1, ⟨by simpa using htext, ?_, ?_,
    opens_of_front (by decide) (by decide) (by decide) hword blanks fun _ => by decide, hblanks.2, hne,
    htokens, hleft⟩⟩
  · exact cover_group [] (fun _ => not_blank (by decide)) (by simpa using htext) hkeeps hblanks.2
      hne htokens
  · have hboundary : Accepts (wordBoundary.comap Mark.shown) m.before [] (m.text ++ m.after) :=
      .look hlook
    rw [accepts_comap, htext] at hboundary
    exact .seq (u := []) (by simpa using hboundary) (by simpa using hword)

theorem authorization_hides (h : IsFirst authorizationMasking.re b pre m) :
    ∃ blanks value, (blanks = [] ↔ m.group 2 = []) ∧ Hides authorizationFront isValueChar isValueChar m
      (authorizationMasking.repl m) (m.group 1 ++ m.group 2) blanks value [] := by
  have hleft := IsFirst.left (f := isValueChar) (.seq (.seq (.group .plus))) h
  obtain ⟨u, v, j, htext, hu, hv, hlookup⟩ := mem_run_group (by decide) h.mem
  have hword := (accepts_comap Mark.shown).mp (accepts_of_mem_run hu)
  obtain hu1 : m.group 1 = u := lookup_group hlookup
  have hkeeps : authorizationMasking.keeps m = (m.group 1 ++ m.group 2).length := rfl
  rcases mem_run_opt_seq hv with hv | hv
  · -- with a scheme
    obtain ⟨scheme, v, j', rfl, hs, hv, hlookup2⟩ := mem_run_group (by decide) hv
    have hscheme := (accepts_comap Mark.shown).mp (accepts_of_mem_run hs)
    obtain ⟨blanks, value, rfl, hblanks, hvalue⟩ := accepts_seq.mp (accepts_of_mem_run hv)
    have hblanks := accepts_marked_plus hblanks
    have hvalue := accepts_marked_plus (accepts_group.mp hvalue)
    obtain hu2 : m.group 2 = scheme := lookup_group hlookup2
    have hne : scheme ≠ [] := by
      rintro rfl
      exact absurd hscheme (by simp [schemes, accepts_oneOf])
    have htext : m.text = (u ++ scheme) ++ (blanks ++ (value ++ [])) := by simpa using htext
    rw [hu1, hu2]
    refine ⟨blanks, value, by simp [hblanks.1, hne], ⟨htext, ?_, ?_, ?_, hblanks.2, hvalue.1,
      hvalue.2, hleft⟩⟩
    · exact cover_group [] (fun _ => not_blank (by decide)) htext
        (by rw [hkeeps, hu1, hu2]) hblanks.2 hvalue.1 hvalue.2
    · rw [map_append]
      exact .seq (by simpa using hword) (.left (by simpa using hscheme))
    · obtain ⟨p, x, rfl, hx⟩ := opens_of_front (by decide) (by decide) (by decide) hscheme
        blanks fun _ => by decide
      exact ⟨u ++ p, x, by rw [append_assoc], hx⟩
  · have hvalue := accepts_marked_plus (accepts_group.mp (accepts_of_mem_run hv))
    have hnone : m.groups.lookup 2 = none := by
      rw [lookup_run (n := 2) (by decide) hv]
      have := lookup_run (n := 2) (by decide) hu
      simpa using this
    have hu2 : m.group 2 = [] := by
      rw [Match.group, hnone]
      rfl
    have htext : m.text = u ++ ([] ++ (v ++ [])) := by simpa using htext
    rw [hu1, hu2, append_nil]
    refine ⟨[], v, by simp, ⟨htext, ?_, ?_,
      opens_of_front (by decide) (by decide) (by decide) hword [] (absurd rfl ·), forall_mem_nil _, hvalue.1,
      hvalue.2, hleft⟩⟩
    · exact cover_group [] (fun _ => not_blank (by decide)) htext
        (by rw [hkeeps, hu1, hu2, append_nil]) (forall_mem_nil _) hvalue.1 hvalue.2
    · rw [← append_nil (u.map Mark.shown)]
      exact .seq (by simpa using hword) (.right .empty)

end Shapes

/-! ## What the marks show -/

theorem authorization_inner : authorizationRe.inner = true := by decide

/-- What the first rule makes of a match, from the groups of the match itself. -/
theorem maskCredential_eq {b x : Str} {m : Match Char} (h : authorizationRe.find b x = some m) :
    maskCredential m = if m.group 2 ≠ [] then m.group 1 ++ m.group 2 ++ ' ' :: mask
      else m.group 1 ++ mask := by
  rw [maskCredential, find_self authorization_inner h]
  rfl

theorem shown_apply {k : Masking}
    (h : ∀ b pre m, IsFirst k.re b pre m → k.rule.re.find (b.map Mark.shown)
      ((pre ++ (m.text ++ m.after)).map Mark.shown) = some (m.map Mark.shown) →
      (k.repl m).map Mark.shown = k.rule.repl (m.map Mark.shown)) (t : Marked) :
    (k.apply t).map Mark.shown = k.rule.apply (t.map Mark.shown) := by
  refine map_replaceAll Mark.shown (fun b x m hm => ?_) t
  obtain ⟨pre, rfl, hfirst⟩ := find_eq_some hm
  refine h b pre m hfirst ?_
  rw [← map_find, hm]
  rfl

theorem shown_spaceOver {t : Marked} (h : t ≠ []) : (spaceOver t).map Mark.shown = [' '] := by
  obtain ⟨x, t, rfl⟩ := exists_cons_of_ne_nil h
  rfl

theorem shown_maskings : ∀ k ∈ defaultMaskings, ∀ t : Marked,
    (k.apply t).map Mark.shown = k.rule.apply (t.map Mark.shown) := by
  simp only [defaultMaskings, forall_mem_cons, not_mem_nil, false_imp_iff, implies_true, and_true]
  refine ⟨shown_apply fun b pre m h hfind => ?_, shown_apply fun b pre m h _ => ?_,
    shown_apply fun b pre m h _ => ?_, shown_apply fun b pre m h _ => ?_⟩
  · obtain ⟨blanks, value, hblanks, hides⟩ := authorization_hides h
    have hrepl : authorizationMasking.rule.repl (m.map Mark.shown) = _ := maskCredential_eq hfind
    rw [hrepl, hides.out_eq, group_map, group_map]
    by_cases hne : m.group 2 = []
    · rw [hblanks.mpr hne, hne]
      simp [spaceOver]
    · rw [if_pos (by simpa using hne)]
      simp [shown_spaceOver (mt hblanks.mp hne)]
  · obtain ⟨blanks, value, hne, hides⟩ := bearer_hides h
    rw [hides.out_eq]
    simp [shown_spaceOver hne, bearerMasking, bearer, group_map]
  · obtain ⟨value, hides⟩ := keyValue_hides h
    rw [hides.out_eq]
    simp [spaceOver, keyValueMasking, keyValue, group_map]
  · obtain ⟨value, x, hx, hides⟩ := credentials_hides h
    rw [hides.out_eq]
    simp [spaceOver, credentialsMasking, credentials, group_map, hx]

theorem shown_hinted {k : Masking} (hk : k ∈ defaultMaskings) (lower : Str) (t : Marked) :
    (k.hinted lower t).map Mark.shown = k.rule.hinted lower (t.map Mark.shown) := by
  rw [Masking.hinted, RedactRule.hinted]
  split
  · exact shown_maskings k hk t
  · rfl

theorem shown_foldl (lower : Str) (ks : List Masking) (hks : ∀ k ∈ ks, k ∈ defaultMaskings)
    (t : Marked) :
    (ks.foldl (fun t k => k.hinted lower t) t).map Mark.shown =
      (ks.map Masking.rule).foldl (fun s rule => rule.hinted lower s) (t.map Mark.shown) := by
  induction ks generalizing t with
  | nil => rfl
  | cons k ks ih =>
    rw [forall_mem_cons] at hks
    rw [foldl_cons, ih hks.2, shown_hinted hks.1]
    rfl

/-! ## What the marks stand for -/

theorem takes_maskings : ∀ k ∈ defaultMaskings, k.rule.re.takes = true := by decide

theorem Masking.subst {k : Masking} (hk : k ∈ defaultMaskings) (t : Marked) :
    Subst k.re k.repl [] t (k.apply t) :=
  replaceAll_subst ((solid_of_takes (takes_maskings k hk)).comap Mark.shown) t

theorem source_hinted {k : Masking} (hk : k ∈ defaultMaskings) (lower : Str) (t : Marked) :
    source (k.hinted lower t) = source t := by
  rw [Masking.hinted]
  split
  · exact (Masking.subst hk t).source_eq fun _ _ m _ => source_cover _ _ m.text
  · rfl

theorem source_foldl (lower : Str) (ks : List Masking) (hks : ∀ k ∈ ks, k ∈ defaultMaskings)
    (t : Marked) : source (ks.foldl (fun t k => k.hinted lower t) t) = source t := by
  induction ks generalizing t with
  | nil => rfl
  | cons k ks ih =>
    rw [forall_mem_cons] at hks
    rw [foldl_cons, ih hks.2, source_hinted hks.1]

end YominsAgent.Logs
