import YominsAgent.Lib.Search
import YominsAgent.Logs.Traced

/- The hints of the redaction rules (`redact.go`).

   A rule with a hint is not run on a line in whose lower-cased text the hint misses its words. That
   changes nothing as long as the expression matches only lines the hint accepts. Expressions under
   `(?i)` fold the long s (U+017F) to `s`, and `strings.ToLower` leaves it alone, so a key that is
   written with it is found by the expression and missed by the hint. The other rules look for words
   without `s`, or for `://` and `@`, and a match in the line as the rules before left it was there
   when the line came (`bearer_source`, `keyValue_source`). -/
namespace YominsAgent.Logs
open Go Lib List Option

/-- Every rule in order, whatever its hint says, and the card pass. -/
def Redactor.redactAll (r : Redactor) (s : Str) : Str :=
  maskCards (r.rules.foldl (fun s rule => rule.apply s) s)

/-! ## A rule and its hint -/

section Rule
variable {rule : RedactRule} {lower s : Str}

theorem RedactRule.apply_eq_self (htakes : rule.re.takes = true) (h : rule.re.find [] s = none) :
    rule.apply s = s :=
  (replaceAll_subst (solid_of_takes htakes) s).eq_self (find_eq_none h)

/-- A hint that accepts the line wherever the rule matches is harmless. -/
theorem RedactRule.hinted_eq_apply (htakes : rule.re.takes = true)
    (h : rule.re.find [] s ≠ none → rule.runs lower = true) : rule.hinted lower s = rule.apply s := by
  rw [RedactRule.hinted]
  split
  · rfl
  · next hruns =>
    have hnone : rule.re.find [] s = none := by
      by_contra hsome
      exact hruns (h hsome)
    exact (RedactRule.apply_eq_self htakes hnone).symm

end Rule

/-- An expression finds something exactly where it takes a part of the text. -/
theorem finds_iff {α : Type} {r : Regex α} {s : List α} :
    r.find [] s ≠ none ↔ ∃ l w a, s = l ++ (w ++ a) ∧ Accepts r l.reverse w a := by
  constructor
  · intro h
    obtain ⟨m, hm⟩ := ne_none_iff_exists'.mp h
    obtain ⟨pre, hx, hfirst⟩ := find_eq_some hm
    have hacc := hfirst.accepts
    rw [hfirst.before, append_nil] at hacc
    exact ⟨pre, m.text, m.after, hx, hacc⟩
  · rintro ⟨l, w, a, rfl, hacc⟩ hnone
    exact find_eq_none hnone l w a rfl (by rwa [append_nil])

/-- What a rule finds in a line shown by marks, it finds in the marks. -/
theorem Masking.find_shown {k : Masking} {t : Marked}
    (h : k.rule.re.find [] (t.map Mark.shown) ≠ none) :
    ∃ l w r, t = l ++ (w ++ r) ∧ Accepts k.re l.reverse w r := by
  rw [← map_nil (f := Mark.shown), ← map_find] at h
  exact finds_iff.mp fun hnone => h (congrArg _ hnone)

/-! ## What the hints see -/

theorem foldsTo_longS {x : Char} (hx : x ∈ letters) (h : foldsTo x longS = true) : x = 's' := by
  have hall : letters.all (fun x => !foldsTo x longS || x == 's') = true := by decide
  simpa [h] using all_eq_true.mp hall x hx

theorem longS_notMem {w u : Str} (hw : ∀ x ∈ w, x ∈ letters) (hs : 's' ∉ w) (h : Folds w u) :
    longS ∉ u := by
  induction h with
  | nil => exact not_mem_nil
  | cons hxc _ ih =>
    rw [forall_mem_cons] at hw
    rw [mem_cons, not_or] at hs ⊢
    refine ⟨fun hc => hs.1 ?_, ih hw.2 hs.2⟩
    rw [← hc] at hxc
    exact (foldsTo_longS hw.1 hxc).symm

/-- A word without `s` is seen in the lower-cased text, however it is written. -/
theorem word_seen {w u s : Str} (hw : (w.all fun c => c ∈ letters) = true) (hs : 's' ∉ w)
    (h : Folds w u) (hin : u <:+: s) : contains (toLower s) w = true :=
  contains_toLower (forall_mem_of_all hw) h (longS_notMem (forall_mem_of_all hw) hs h) hin

section Hints
variable {s : Str}

theorem authorization_hint (h : authorizationRe.find [] s ≠ none) :
    authorization.runs (toLower s) = true := by
  obtain ⟨pre, u, after, rfl, hacc⟩ := finds_iff.mp h
  obtain ⟨u, v, rfl, hfront, -⟩ := accepts_seq.mp hacc
  obtain ⟨key, eq, rfl, hkey, -⟩ := accepts_seq.mp (accepts_group.mp hfront)
  have hsee := word_seen (by decide) (by decide) (accepts_word.mp hkey)
    (⟨pre, eq ++ v ++ after, by simp⟩ : key <:+: pre ++ (key ++ eq ++ v ++ after))
  simpa [RedactRule.runs, authorization, hasAny] using hsee

theorem folds_append {w w' u : Str} (h : Folds (w ++ w') u) :
    ∃ v v', u = v ++ v' ∧ Folds w v ∧ Folds w' v' := by
  induction w generalizing u with
  | nil => exact ⟨[], u, rfl, .nil, h⟩
  | cons x w ih =>
    obtain ⟨c, u, hc, hu, rfl⟩ := forall₂_cons_left_iff.mp h
    obtain ⟨v, v', rfl, hv, hv'⟩ := ih hu
    exact ⟨c :: v, v', rfl, .cons hc hv, hv'⟩

theorem secretKey_word {b u a : Str} (h : Accepts secretKey b u a) :
    ∃ w ∈ secretWords, ∃ v, v <:+: u ∧ Folds w v := by
  have hfirst : ∀ {w r}, w ∈ secretWords → Accepts (.seq (word w) r) b u a →
      ∃ w ∈ secretWords, ∃ v, v <:+: u ∧ Folds w v := by
    intro w r hw hu
    obtain ⟨v, y, rfl, hv, -⟩ := accepts_seq.mp hu
    exact ⟨w, hw, v, (prefix_append v y).isInfix, accepts_word.mp hv⟩
  have hthird : ∀ {w r r'}, w ∈ secretWords → Accepts (.seq r (.seq r' (word w))) b u a →
      ∃ w ∈ secretWords, ∃ v, v <:+: u ∧ Folds w v := by
    intro w r r' hw hu
    obtain ⟨v, y, rfl, -, hy⟩ := accepts_seq.mp hu
    obtain ⟨y, z, rfl, -, hz⟩ := accepts_seq.mp hy
    rw [← append_assoc]
    exact ⟨w, hw, z, (suffix_append _ z).isInfix, accepts_word.mp hz⟩
  have hword : ∀ {w : Str} (x : Str), w ∈ secretWords → Folds (x ++ w) u →
      ∃ w ∈ secretWords, ∃ v, v <:+: u ∧ Folds w v := by
    intro w x hw hu
    obtain ⟨v, v', rfl, -, hv'⟩ := folds_append hu
    exact ⟨w, hw, v', (suffix_append v v').isInfix, hv'⟩
  simp only [secretKey, accepts_oneOf, exists_mem_cons_iff, not_mem_nil, false_and,
    exists_false, or_false, accepts_word] at h
  rcases h with h | h | h | h | h | h | h | h | h | h | h | h | h | h | h
  · exact hfirst (by decide) h
  · exact hword [] (by decide) h
  · exact hword [] (by decide) h
  · exact hword [] (by decide) h
  · exact hword "access_".toList (by decide : "token".toList ∈ _) h
  · exact hword "refresh_".toList (by decide : "token".toList ∈ _) h
  · exact hword "id_".toList (by decide : "token".toList ∈ _) h
  · exact hthird (by decide) h
  · exact hword "api".toList (by decide : "key".toList ∈ _) h
  · exact hfirst (by decide) h
  · exact hthird (by decide) h
  · exact hword "client_".toList (by decide : "secret".toList ∈ _) h
  · exact hfirst (by decide) h
  · exact hword [] (by decide) h
  · exact hword [] (by decide) h

/-- Without the long s the hint of the key and value rule misses nothing. -/
theorem keyValue_hint (hs : longS ∉ s) (h : keyValueRe.find [] s ≠ none) :
    keyValue.runs (toLower s) = true := by
  obtain ⟨pre, u, after, hx, hacc⟩ := finds_iff.mp h
  obtain ⟨u, v, rfl, hfront, -⟩ := accepts_seq.mp hacc
  obtain ⟨d, y, rfl, -, hy⟩ := accepts_seq.mp (accepts_group.mp hfront)
  obtain ⟨key, eq, rfl, hkey, -⟩ := accepts_seq.mp hy
  obtain ⟨w, hw, t, ht, hfolds⟩ := secretKey_word hkey
  have hin : key <:+: s := ⟨pre ++ d, eq ++ v ++ after, by simp [hx]⟩
  have hletters : ∀ x ∈ w, x ∈ letters := by
    have hall : secretWords.all (fun w => w.all letters.contains) = true := by decide
    simpa using all_eq_true.mp hall w hw
  have hsee := contains_toLower hletters hfolds (fun hmem => hs ((ht.trans hin).subset hmem))
    (ht.trans hin)
  exact any_eq_true.mpr ⟨w, hw, hsee⟩

theorem bearer_hint (h : bearerRe.find [] s ≠ none) : bearer.runs (toLower s) = true := by
  obtain ⟨pre, u, after, rfl, hacc⟩ := finds_iff.mp h
  obtain ⟨e, u, rfl, -, hrest⟩ := accepts_seq.mp hacc
  obtain ⟨key, v, rfl, hkey, -⟩ := accepts_seq.mp hrest
  have hsee := word_seen (by decide) (by decide) (accepts_word.mp (accepts_group.mp hkey))
    (⟨pre ++ e, v ++ after, by simp⟩ : key <:+: pre ++ (e ++ (key ++ v) ++ after))
  simpa [RedactRule.runs, bearer, hasAny] using hsee

/-- A character that is neither a space nor a mask is still that of the line. -/
theorem source_char {d : Char} (hd : d ≠ ' ' ∧ d ≠ '*') {g : Char → Bool} {t b a : Marked}
    (ht : ∀ x ∈ t, Stands g x) (h : Accepts ((anyOf [d]).comap Mark.shown) b t a) :
    source t = [d] := by
  obtain ⟨c, hc, hshown⟩ := accepts_anyOf.mp ((accepts_comap Mark.shown).mp h)
  rw [mem_singleton.mp hc] at hshown
  obtain ⟨x, rfl, rfl⟩ := map_eq_singleton_iff.mp hshown
  rw [(ht x mem_cons_self).kept hd.1 hd.2]
  rfl

theorem credentials_hint {t : Marked} {g : Char → Bool} (ht : ∀ x ∈ t, Stands g x)
    (h : credentialsRe.find [] (t.map Mark.shown) ≠ none) :
    credentials.runs (toLower (source t)) = true := by
  obtain ⟨l, w, r, rfl, hacc⟩ := Masking.find_shown (k := credentialsMasking) h
  obtain ⟨front, rest, rfl, hfront, hrest⟩ := accepts_seq.mp hacc
  obtain ⟨first, v, rfl, -, hv⟩ := accepts_seq.mp (accepts_group.mp hfront)
  obtain ⟨scheme, v, rfl, -, hv⟩ := accepts_seq.mp hv
  obtain ⟨colon, v, rfl, hcolon, hv⟩ := accepts_seq.mp hv
  obtain ⟨slash, v, rfl, hslash, hv⟩ := accepts_seq.mp hv
  obtain ⟨slash', user, rfl, hslash', -⟩ := accepts_seq.mp hv
  obtain ⟨pass, sign, rfl, -, hsign⟩ := accepts_seq.mp hrest
  simp only [forall_mem_append] at ht
  obtain ⟨-, ⟨⟨-, -, hc, hs, hs', -⟩, -, ha⟩, -⟩ := ht
  -- the four characters are still those of the line
  have hcolon := source_char (by decide) hc hcolon
  have hslash := source_char (by decide) hs hslash
  have hslash' := source_char (by decide) hs' hslash'
  have hsign := source_char (by decide) ha hsign
  have hurl : "://".toList <:+: source (l ++ (first ++ (scheme ++ (colon ++ (slash ++
      (slash' ++ user)))) ++ (pass ++ sign) ++ r)) := by
    refine ⟨source l ++ source first ++ source scheme,
      source user ++ source pass ++ source sign ++ source r, ?_⟩
    simp only [source_append, hcolon, hslash, hslash', append_assoc]
    rfl
  have hat : ['@'] <:+: source (l ++ (first ++ (scheme ++ (colon ++ (slash ++
      (slash' ++ user)))) ++ (pass ++ sign) ++ r)) := by
    refine ⟨source l ++ source first ++ source scheme ++ source colon ++ source slash ++
      source slash' ++ source user ++ source pass, source r, ?_⟩
    simp only [source_append, hsign, append_assoc]
  have hsee : contains (toLower _) "://".toList = true := contains_iff.mpr (hurl.map lowerRune)
  have hsee' : contains (toLower _) ['@'] = true := contains_iff.mpr (hat.map lowerRune)
  exact Bool.and_eq_true_iff.mpr ⟨hsee, hsee'⟩

end Hints

/-! ## The rules in order -/

section Rules
variable {s : Str}

theorem bearer_back {t : Marked} {g : Char → Bool} (ht : Traced isValueChar g t)
    (h : bearerRe.find [] (t.map Mark.shown) ≠ none) : bearerRe.find [] (source t) ≠ none := by
  obtain ⟨l, w, r, rfl, hacc⟩ := Masking.find_shown (k := bearerMasking) h
  rw [source_append, source_append]
  exact finds_iff.mpr ⟨_, _, _, rfl, bearer_source ht hacc⟩

theorem keyValue_back {t : Marked} {f : Char → Bool} (ht : Traced f isValueChar t)
    (h : keyValueRe.find [] (t.map Mark.shown) ≠ none) : keyValueRe.find [] (source t) ≠ none := by
  obtain ⟨l, w, r, rfl, hacc⟩ := Masking.find_shown (k := keyValueMasking) h
  rw [source_append, source_append]
  exact finds_iff.mpr ⟨_, _, _, rfl, keyValue_source ht hacc⟩

/-- The four rules with their hints do what they do without. -/
theorem defaultRules_hinted (h : keyValueRe.find [] s ≠ none → keyValue.runs (toLower s) = true) :
    defaultRedactRules.foldl (fun t rule => rule.hinted (toLower s) t) s =
      defaultRedactRules.foldl (fun t rule => rule.apply t) s := by
  have hmem := mem_defaultMaskings
  simp only [defaultRedactRules, foldl_cons, foldl_nil]
  have h1 : authorization.hinted (toLower s) s = authorization.apply s :=
    RedactRule.hinted_eq_apply (by decide) authorization_hint
  -- the line behind each rule, with where its characters come from
  have ht1 := traced_authorization (toLower s) (traced_mark s)
  have hs1 := (source_hinted hmem.1 (toLower s) (mark s)).trans source_mark
  have hw1 := shown_hinted hmem.1 (toLower s) (mark s)
  rw [shown_mark] at hw1
  replace hw1 := hw1.trans h1
  rw [h1]
  generalize authorizationMasking.hinted (toLower s) (mark s) = t1 at ht1 hs1 hw1
  generalize authorization.apply s = s1 at hw1 ⊢
  have h2 : bearer.hinted (toLower s) s1 = bearer.apply s1 := by
    refine RedactRule.hinted_eq_apply (by decide) fun hfind => bearer_hint ?_
    rw [← hs1]
    exact bearer_back ht1 (hw1.symm ▸ hfind)
  have ht2 := traced_bearer (toLower s) (ht1.mono (fun _ => value_of_token) fun _ h => h)
  have hs2 := (source_hinted hmem.2.1 (toLower s) t1).trans hs1
  have hw2 := shown_hinted hmem.2.1 (toLower s) t1
  rw [hw1] at hw2
  replace hw2 := hw2.trans h2
  rw [h2]
  generalize bearerMasking.hinted (toLower s) t1 = t2 at ht2 hs2 hw2
  generalize bearer.apply s1 = s2 at hw2 ⊢
  have h3 : keyValue.hinted (toLower s) s2 = keyValue.apply s2 := by
    refine RedactRule.hinted_eq_apply (by decide) fun hfind => h ?_
    rw [← hs2]
    exact keyValue_back ht2 (hw2.symm ▸ hfind)
  have ht3 := traced_keyValue (toLower s) ht2
  have hs3 := (source_hinted hmem.2.2.1 (toLower s) t2).trans hs2
  have hw3 := shown_hinted hmem.2.2.1 (toLower s) t2
  rw [hw2] at hw3
  replace hw3 := hw3.trans h3
  rw [h3]
  refine RedactRule.hinted_eq_apply (by decide) fun hfind => ?_
  rw [← hs3]
  exact credentials_hint ht3.stands (hw3.symm ▸ hfind)

theorem extraRules_hinted (res : List (Regex Char)) (lower t : Str) :
    (res.map extraRule).foldl (fun t rule => rule.hinted lower t) t =
      (res.map extraRule).foldl (fun t rule => rule.apply t) t := by
  induction res generalizing t with
  | nil => rfl
  | cons re res ih => exact ih (re.replaceAll (fun _ => mask) t)

/-- The hints change nothing in a line without the long s, in one with a secret word in
ASCII, and in one where the expression for pairs matches nowhere. -/
theorem hints_harmless (compile : Str → Option (Regex Char)) (extra : List Str) (r : Redactor)
    (hr : newRedactor compile extra = some r) (s : Str)
    (h : longS ∉ s ∨ hasAny secretWords (toLower s) = true ∨ keyValueRe.find [] s = none) :
    r.redact s = r.redactAll s := by
  have hpairs : keyValueRe.find [] s ≠ none → keyValue.runs (toLower s) = true := by
    intro hfind
    rcases h with hs | hsee | hnone
    · exact keyValue_hint hs hfind
    · exact hsee
    · exact absurd hnone hfind
  obtain ⟨res, -, rfl⟩ := map_eq_some_iff.mp hr
  rw [Redactor.redact, Redactor.redactAll]
  simp only [foldl_append]
  rw [defaultRules_hinted hpairs, extraRules_hinted]

end Rules

/-- A plain pair. -/
theorem password_hint_harmless :
    newRedactor (fun _ => none) [] = some defaultRedactor ∧
    hasAny secretWords (toLower "password=hunter2".toList) = true ∧
    defaultRedactor.redact "password=hunter2".toList =
      defaultRedactor.redactAll "password=hunter2".toList := by
  have hr : newRedactor (fun _ => none) [] = some defaultRedactor := rfl
  have hsee : hasAny secretWords (toLower "password=hunter2".toList) = true := by decide
  exact ⟨hr, hsee, hints_harmless _ _ _ hr _ (.inr (.inl hsee))⟩

/-- A key with a long s passes the hint by. -/
theorem long_s_unmasked :
    newRedactor (fun _ => none) [] = some defaultRedactor ∧
    defaultRedactor.redact (longS :: "ecret=x".toList) = longS :: "ecret=x".toList ∧
    defaultRedactor.redactAll (longS :: "ecret=x".toList) = longS :: "ecret=***".toList := by
  refine ⟨rfl, ?_, ?_⟩
  · decide +kernel
  · decide +kernel

end YominsAgent.Logs
