import Mathlib.Data.List.Chain
import YominsAgent.Logs.Masking

/- What is known of a line between the rules.

   A character that a rule put in is a space in the place of blanks, or belongs to a
   mask in the place of a value (`Stands`). Next to it stands what the rules leave
   there (`Linked`): a space is followed by a mask, a mask by nothing the value could
   have gone on with. So what a rule finds in the line as the rules before left it,
   it would have found in the line as it came (`keyValue_source`, `bearer_source`). -/
namespace YominsAgent.Logs
open Go Lib List Option

/-- A space stands for blanks, a mask for characters of `g`. -/
def Stands (g : Char → Bool) : Mark Char → Prop
  | .kept _ => True
  | .put c h => (c = ' ' ∧ h ≠ [] ∧ ∀ d ∈ h, isBlankChar d = true) ∨ (c = '*' ∧ ∀ d ∈ h, g d = true)

/-- What can stand next to each other; `f` is what cannot follow a mask. -/
structure Linked (f : Char → Bool) (x y : Mark Char) : Prop where
  goesOn : y = .put '*' [] → ∃ h, x = .put '*' h
  space : ∀ h, x = .put ' ' h → y.shown = '*'
  opens : ∀ c h, y = .put c h → h ≠ [] → x.shown.isDigit = false
  ends : ∀ h, x = .put '*' h → y = .put '*' [] ∨ f y.shown = false

structure Traced (f g : Char → Bool) (t : Marked) : Prop where
  stands : ∀ x ∈ t, Stands g x
  linked : t.IsChain (Linked f)

section Traced

variable {f g : Char → Bool} {t u : Marked} {g' g₀ f₀ : Char → Bool} {x y : Mark Char} {k : Masking}
  {b a l w : Marked} {r : Regex Char}

theorem Stands.mono (hg : ∀ c, g c = true → g' c = true) (h : Stands g x) : Stands g' x := by
  cases x with
  | kept => trivial
  | put => exact h.imp_right fun h => ⟨h.1, fun d hd => hg d (h.2 d hd)⟩

theorem Traced.mono {f' : Char → Bool} (hf : ∀ c, f' c = true → f c = true)
    (hg : ∀ c, g c = true → g' c = true) (h : Traced f g t) : Traced f' g' t where
  stands x hx := (h.stands x hx).mono hg
  linked := h.linked.imp fun x y hxy => ⟨hxy.goesOn, hxy.space, hxy.opens, fun l hl =>
    (hxy.ends l hl).imp_right fun hy => by
      rw [Bool.eq_false_iff] at hy ⊢
      exact mt (hf _) hy⟩

theorem Traced.left (h : Traced f g (t ++ u)) : Traced f g t :=
  ⟨fun x hx => h.stands x (mem_append_left u hx), h.linked.left_of_append⟩

theorem Traced.right (h : Traced f g (t ++ u)) : Traced f g u :=
  ⟨fun x hx => h.stands x (mem_append_right t hx), h.linked.right_of_append⟩

theorem Traced.append (ht : Traced f g t) (hu : Traced f g u)
    (hlink : ∀ x ∈ t.getLast?, ∀ y ∈ u.head?, Linked f x y) : Traced f g (t ++ u) :=
  ⟨forall_mem_append.mpr ⟨ht.stands, hu.stands⟩, ht.linked.append hu.linked hlink⟩

theorem Traced.link (h : Traced f g (t ++ u)) : ∀ x ∈ t.getLast?, ∀ y ∈ u.head?, Linked f x y :=
  (isChain_append.mp h.linked).2.2

theorem traced_mark (s : Str) : Traced f g (mark s) := by
  refine ⟨fun x hx => ?_, ?_⟩
  · obtain ⟨c, -, rfl⟩ := mem_map.mp hx
    trivial
  · have hlink : ∀ c d : Char, Linked f (.kept c) (.kept d) := fun c d =>
      ⟨nofun, nofun, nofun, nofun⟩
    induction s with
    | nil => exact .nil
    | cons c s ih =>
      refine isChain_cons.mpr ⟨fun y hy => ?_, ih⟩
      simp only [head?_map] at hy
      obtain ⟨d, -, rfl⟩ := map_eq_some_iff.mp (mem_def.mp hy)
      exact hlink c d

/-! ## What marks stand for -/

theorem Stands.kept (h : Stands g x) (hs : x.shown ≠ ' ') (hm : x.shown ≠ '*') :
    x = .kept x.shown := by
  cases x with
  | kept => rfl
  | put => exact absurd h (by rintro (h | h); exacts [hs h.1, hm h.1])

section
variable (h : ∀ x ∈ t, Stands g x) (hb : ∀ x ∈ t, isBlankChar x.shown = true)
include h hb

theorem source_blanks :
    ∀ c ∈ source t, isBlankChar c = true := by
  intro c hc
  obtain ⟨x, hx, hc⟩ := mem_flatMap.mp hc
  have hblank := hb x hx
  cases x with
  | kept =>
    rw [Mark.source_kept, mem_singleton] at hc
    rwa [hc]
  | put =>
    rcases h _ hx with ⟨-, -, hl⟩ | ⟨rfl, -⟩
    · exact hl c hc
    · exact absurd hblank (by decide : ¬ isBlankChar '*' = true)

theorem source_blanks_ne_nil (hne : t ≠ []) : source t ≠ [] := by
  obtain ⟨x, t, rfl⟩ := exists_cons_of_ne_nil hne
  have hblank := hb x mem_cons_self
  rw [source_cons, ne_eq, append_eq_nil_iff, not_and_or]
  left
  cases x with
  | kept => exact cons_ne_nil _ _
  | put =>
    rcases h _ mem_cons_self with ⟨-, hl, -⟩ | ⟨rfl, -⟩
    · exact hl
    · exact absurd hblank (by decide : ¬ isBlankChar '*' = true)

end

theorem source_value (hg : ∀ c, g₀ c = true → g c = true) (hspace : g₀ ' ' = false)
    (h : ∀ x ∈ t, Stands g x) (hv : ∀ x ∈ t, g₀ x.shown = true) : ∀ c ∈ source t, g c = true := by
  intro c hc
  obtain ⟨x, hx, hc⟩ := mem_flatMap.mp hc
  have hshown := hv x hx
  cases x with
  | kept d =>
    rw [Mark.source_kept, mem_singleton] at hc
    rw [hc]
    exact hg d hshown
  | put =>
    rcases h _ hx with ⟨rfl, -⟩ | ⟨-, hl⟩
    · rw [Mark.shown_put, hspace] at hshown
      cases hshown
    · exact hl c hc

/-- A mask that does not go on another stands for something. -/
theorem source_ne_nil (h : Traced f g (t ++ u)) (hu : u ≠ [])
    (hlast : ∃ x ∈ t.getLast?, x.shown ≠ '*') : source u ≠ [] := by
  obtain ⟨x, hx, hstar⟩ := hlast
  obtain ⟨y, u, rfl⟩ := exists_cons_of_ne_nil hu
  have hlink := h.link x hx y rfl
  rw [source_cons, ne_eq, append_eq_nil_iff, not_and_or]
  left
  cases y with
  | kept => exact cons_ne_nil _ _
  | put d l =>
    rcases h.stands _ (mem_append_right t mem_cons_self) with ⟨-, hl, -⟩ | ⟨rfl, -⟩
    · exact hl
    · rintro rfl
      obtain ⟨l, rfl⟩ := hlink.goesOn rfl
      exact hstar rfl

/-! ## Through a rule -/

theorem linked_goesOn {h : Str} : Linked f (.put '*' h) (.put '*' []) where
  goesOn _ := ⟨h, rfl⟩
  space := nofun
  opens := by
    rintro c l ⟨⟩ hl
    exact absurd rfl hl
  ends _ _ := .inl rfl

theorem traced_mask {value : Marked} (hv : ∀ c ∈ source value, g c = true) :
    Traced f g (standIn mask value) := by
  refine ⟨?_, ?_⟩
  · show ∀ x ∈ [.put '*' (source value), .put '*' [], .put '*' []], Stands g x
    simp only [forall_mem_cons, not_mem_nil, false_imp_iff, implies_true, and_true]
    exact ⟨.inr ⟨rfl, hv⟩, .inr ⟨rfl, nofun⟩, .inr ⟨rfl, nofun⟩⟩
  · show [.put '*' (source value), .put '*' [], .put '*' []].IsChain (Linked f)
    exact .cons_cons linked_goesOn (.cons_cons linked_goesOn (.singleton _))

theorem traced_inserted {kept blanks value : Marked} (hopens : Opens kept blanks)
    (ht : Traced f g (t ++ kept)) (hblanks : ∀ x ∈ blanks, Stands g x)
    (hb : ∀ x ∈ blanks, isBlankChar x.shown = true) (hne : source value ≠ [])
    (hv : ∀ c ∈ source value, g c = true) :
    Traced f g (t ++ kept ++ (spaceOver blanks ++ standIn mask value)) := by
  obtain ⟨p, x, rfl, hdigit, hstar, hspace⟩ := hopens
  have hlast : ∀ y ∈ (t ++ (p ++ [x])).getLast?, y = x := by
    intro y hy
    rw [← append_assoc, getLast?_concat] at hy
    exact (some.inj (mem_def.mp hy)).symm
  cases blanks with
  | nil =>
    refine ht.append (traced_mask hv) fun y hy z hz => ?_
    rw [hlast y hy]
    obtain rfl : Mark.put '*' (source value) = z := some.inj hz
    refine ⟨?_, fun h _ => rfl, fun _ _ _ _ => hdigit, ?_⟩
    · intro he
      exact absurd (Mark.put.inj he).2 hne
    · rintro h rfl
      exact absurd rfl hstar
  | cons b blanks =>
    have hsource := source_blanks_ne_nil hblanks hb (cons_ne_nil b blanks)
    have hspaced : Traced f g (spaceOver (b :: blanks) ++ standIn mask value) := by
      refine Traced.append ⟨?_, .singleton _⟩ (traced_mask hv) fun y hy z hz => ?_
      · simp only [spaceOver, standIn, map_nil, forall_mem_singleton]
        exact .inl ⟨rfl, hsource, source_blanks hblanks hb⟩
      · obtain rfl : Mark.put ' ' (source (b :: blanks)) = y := some.inj hy
        obtain rfl : Mark.put '*' (source value) = z := some.inj hz
        refine ⟨?_, fun _ _ => rfl, fun _ _ _ _ => rfl, by simp⟩
        intro he
        exact absurd (Mark.put.inj he).2 hne
    refine ht.append hspaced fun y hy z hz => ?_
    rw [hlast y hy]
    obtain rfl : Mark.put ' ' (source (b :: blanks)) = z := some.inj hz
    refine ⟨by simp, ?_, fun _ _ _ _ => hdigit, ?_⟩
    · rintro h rfl
      exact absurd rfl (hspace (cons_ne_nil b blanks))
    · rintro h rfl
      exact absurd rfl hstar

theorem linked_ends (h : f y.shown = false) : Linked f (.put '*' []) y where
  goesOn _ := ⟨[], rfl⟩
  space := nofun
  opens _ _ _ _ := by decide
  ends _ _ := .inr h

/-- One match. -/
theorem Hides.traced {front : Regex Char} (hf : ∀ c, f c = true → f₀ c = true)
    (hg : ∀ c, g₀ c = true → g c = true) (hspace : g₀ ' ' = false) {m : Match (Mark Char)}
    {out kept blanks value tail pre rest : Marked}
    (h : Hides front f₀ g₀ m out kept blanks value tail)
    (ht : Traced f g (pre ++ (m.text ++ m.after))) (hrest : Traced f g rest)
    (hhead : rest.head? = m.after.head?) : Traced f g (pre ++ (out ++ rest)) := by
  rw [h.text] at ht
  have hfront : Traced f g ((pre ++ kept) ++ (blanks ++ (value ++ (tail ++ m.after)))) := by
    simpa only [append_assoc] using ht
  have hmid := hfront.right
  have hvalue : Traced f g ((((pre ++ kept) ++ blanks) ++ value) ++ (tail ++ m.after)) := by
    simpa only [append_assoc] using hfront
  have hlast : ∃ x ∈ ((pre ++ kept) ++ blanks).getLast?, x.shown ≠ '*' := by
    obtain ⟨p, x, rfl, -, hstar, -⟩ := h.opens
    by_cases hb : blanks = []
    · exact ⟨x, by simp [hb, ← append_assoc], hstar⟩
    · obtain ⟨q, y, rfl⟩ := (eq_nil_or_concat' blanks).resolve_left hb
      refine ⟨y, by simp [← append_assoc], fun hy => ?_⟩
      have := h.blanks y (mem_append_right q mem_cons_self)
      rw [hy] at this
      exact absurd this (by decide)
  have hne : source value ≠ [] := source_ne_nil hvalue.left h.ne_nil hlast
  have hins := traced_inserted h.opens hfront.left hmid.left.stands h.blanks hne
    (source_value hg hspace hmid.right.left.stands h.value)
  have htail : Traced f g (tail ++ rest) := by
    have hin := hmid.right.right
    refine hin.left.append hrest fun x hx y hy => ?_
    rw [hhead] at hy
    exact hin.link x hx y hy
  have hall := hins.append htail fun x hx y hy => ?_
  · rw [h.out_eq]
    simpa only [append_assoc] using hall
  · obtain rfl : Mark.put '*' [] = x := by
      have : (pre ++ kept ++ (spaceOver blanks ++ standIn mask value)).getLast? = some (.put '*' []) := by
        rw [getLast?_append, getLast?_append]
        rfl
      rw [this] at hx
      exact some.inj hx
    rw [head?_append, hhead, ← head?_append] at hy
    have hleft : f₀ y.shown = false := by
      refine h.left _ ?_
      rw [head?_map]
      exact mem_map_of_mem _ hy
    rw [Bool.eq_false_iff] at hleft
    exact linked_ends (Bool.eq_false_iff.mpr (mt (hf _) hleft))

theorem Subst.traced (front : Regex Char) (hf : ∀ c, f c = true → f₀ c = true)
    (hg : ∀ c, g₀ c = true → g c = true) (hspace : g₀ ' ' = false)
    (hk : ∀ b pre m, IsFirst k.re b pre m →
      ∃ kept blanks value tail, Hides front f₀ g₀ m (k.repl m) kept blanks value tail)
    (h : Subst k.re k.repl b t u) (ht : Traced f g t) : Traced f g u := by
  have hkeep : ∀ b pre m, IsFirst k.re b pre m → m.text ≠ [] ∧ (k.repl m).head? = m.text.head? := by
    intro b pre m hm
    obtain ⟨kept, blanks, value, tail, hides⟩ := hk b pre m hm
    obtain ⟨p, x, hkept, -⟩ := hides.opens
    rw [hides.text, hides.out_eq, hkept]
    refine ⟨by simp, ?_⟩
    simp [head?_append]
  induction h with
  | done => exact ht
  | next hm hrest ih =>
    obtain ⟨kept, blanks, value, tail, hides⟩ := hk _ _ _ hm
    exact hides.traced hf hg hspace ht (ih ht.right.right) (hrest.head?_eq hkeep)

theorem value_of_token {c : Char} (h : isTokenChar c = true) : isValueChar c = true := by
  have hblank : isBlankChar c = false := not_blank (by decide) h
  have hne : ∀ d, isTokenChar d = false → (c == d) = false := by
    intro d hd
    rw [beq_eq_false_iff_ne]
    rintro rfl
    rw [h] at hd
    cases hd
  simp [isValueChar, hblank, hne '"' (by decide), hne '\'' (by decide), hne ',' (by decide),
    hne ';' (by decide), hne '}' (by decide), hne '&' (by decide)]

theorem hinted_traced (lower : Str) (h : Traced f g t) (happly : Traced f g (k.apply t)) :
    Traced f g (k.hinted lower t) := by
  rw [Masking.hinted]
  split
  · exact happly
  · exact h

theorem traced_authorization (lower : Str) (h : Traced isValueChar isValueChar t) :
    Traced isValueChar isValueChar (authorizationMasking.hinted lower t) := by
  refine hinted_traced lower h (Subst.traced authorizationFront (fun _ h => h) (fun _ h => h) (by decide) ?_
    (Masking.subst mem_defaultMaskings.1 t) h)
  intro b pre m hm
  obtain ⟨blanks, value, -, hides⟩ := authorization_hides hm
  exact ⟨_, _, _, _, hides⟩

theorem traced_bearer (lower : Str) (h : Traced isTokenChar isValueChar t) :
    Traced isTokenChar isValueChar (bearerMasking.hinted lower t) := by
  refine hinted_traced lower h (Subst.traced bearerFront (fun _ h => h) (fun _ => value_of_token) (by decide) ?_
    (Masking.subst mem_defaultMaskings.2.1 t) h)
  intro b pre m hm
  obtain ⟨blanks, value, -, hides⟩ := bearer_hides hm
  exact ⟨_, _, _, _, hides⟩

theorem traced_keyValue (lower : Str) (h : Traced isTokenChar isValueChar t) :
    Traced isTokenChar isValueChar (keyValueMasking.hinted lower t) := by
  refine hinted_traced lower h (Subst.traced keyValueFront (fun _ => value_of_token) (fun _ h => h) (by decide) ?_
    (Masking.subst mem_defaultMaskings.2.2.1 t) h)
  intro b pre m hm
  obtain ⟨value, hides⟩ := keyValue_hides hm
  exact ⟨_, _, _, _, hides⟩

theorem traced_credentials (lower : Str) (h : Traced isTokenChar (fun _ => true) t) :
    Traced isTokenChar (fun _ => true) (credentialsMasking.hinted lower t) := by
  have hg : ∀ c, isPassChar c = true → (fun _ => true) c = true := fun _ _ => rfl
  refine hinted_traced lower h (Subst.traced credentialsFront (fun _ h => h) hg (by decide) ?_
    (Masking.subst mem_defaultMaskings.2.2.2 t) h)
  intro b pre m hm
  obtain ⟨value, x, -, hides⟩ := credentials_hides hm
  exact ⟨_, _, _, _, hides⟩

/-! ## Back to the line as it came -/

/-- A text that shows neither spaces nor masks is still the one that came. -/
theorem source_of_uses (h : ∀ x ∈ t, Stands g x) {b a : Str}
    (hacc : Accepts r b (t.map Mark.shown) a) (hspace : r.uses ' ' = false)
    (hstar : r.uses '*' = false) : source t = t.map Mark.shown :=
  source_eq_shown fun x hx => ⟨x.shown, (h x hx).kept
    (hacc.ne_of_mem (mem_map_of_mem hx) hspace) (hacc.ne_of_mem (mem_map_of_mem hx) hstar)⟩

/-- An expression without spaces and masks that does not look around takes the text
that came. -/
theorem accepts_source (hinner : r.inner = true) (hspace : r.uses ' ' = false)
    (hstar : r.uses '*' = false) (h : ∀ x ∈ t, Stands g x)
    (hacc : Accepts (r.comap Mark.shown) b t a) (b' a' : Str) : Accepts r b' (source t) a' := by
  rw [accepts_comap] at hacc
  rw [source_of_uses h hacc hspace hstar]
  exact hacc.elsewhere hinner b' a'

theorem blanks_source (h : ∀ x ∈ t, Stands g x) (hacc : Accepts (blanks.comap Mark.shown) b t a)
    (b' a' : Str) : Accepts blanks b' (source t) a' := by
  have hblanks := accepts_star_set.mp ((accepts_comap Mark.shown).mp hacc)
  rw [List.forall_mem_map] at hblanks
  exact accepts_star_set.mpr (source_blanks h hblanks)

theorem assign_source (h : ∀ x ∈ t, Stands g x) (hacc : Accepts (assign.comap Mark.shown) b t a)
    (b' a' : Str) : Accepts assign b' (source t) a' := by
  obtain ⟨q1, t, rfl, hq1, hacc⟩ := accepts_seq.mp hacc
  obtain ⟨b1, t, rfl, hb1, hacc⟩ := accepts_seq.mp hacc
  obtain ⟨e, t, rfl, he, hacc⟩ := accepts_seq.mp hacc
  obtain ⟨b2, q2, rfl, hb2, hq2⟩ := accepts_seq.mp hacc
  simp only [forall_mem_append] at h
  simp only [source_append]
  exact .seq (accepts_source (by decide) (by decide) (by decide) h.1 hq1 _ _)
    (.seq (blanks_source h.2.1 hb1 _ _)
      (.seq (accepts_source (by decide) (by decide) (by decide) h.2.2.1 he _ _)
        (.seq (blanks_source h.2.2.2.1 hb2 _ _)
          (accepts_source (by decide) (by decide) (by decide) h.2.2.2.2 hq2 _ _))))

/-- A character that a mask would have hidden has the same neighbour on the left. -/
theorem getLast?_source (h : Traced f g (t ++ u)) (hy : y ∈ u.head?) (hstar : y.shown ≠ '*')
    (hf : f y.shown = true) : (source t).getLast? = t.getLast?.map Mark.shown := by
  rcases eq_nil_or_concat' t with rfl | ⟨p, x, rfl⟩
  · rfl
  · have hlink := h.link x (by simp) y hy
    cases x with
    | kept => simp
    | put c l =>
      exfalso
      rcases h.stands (.put c l) (by simp) with ⟨rfl, -⟩ | ⟨rfl, -⟩
      · exact hstar (hlink.space l rfl)
      · rcases hlink.ends l rfl with rfl | hend
        · exact hstar rfl
        · rw [hf] at hend
          cases hend

theorem head?_source (h : Traced f g (t ++ u)) (hx : x ∈ t.getLast?)
    (hdigit : x.shown.isDigit = true) : (source u).head? = u.head?.map Mark.shown := by
  cases u with
  | nil => rfl
  | cons y =>
    have hlink := h.link x hx y rfl
    cases y with
    | kept => rfl
    | put c l =>
      exfalso
      by_cases hl : l = []
      · subst hl
        rcases h.stands (.put c []) (by simp) with ⟨-, hl, -⟩ | ⟨rfl, -⟩
        · exact hl rfl
        · obtain ⟨l, rfl⟩ := hlink.goesOn rfl
          exact absurd hdigit (by decide : ¬ '*'.isDigit = true)
      · rw [hlink.opens c l rfl hl] at hdigit
        cases hdigit

theorem delimiter_source {d : Marked} (ht : Traced f g (l ++ (d ++ u)))
    (hu : ∃ k ∈ u.head?, k.shown ≠ '*')
    (hd : Accepts (Regex.comap Mark.shown (.alt beginText (.set isDelimiter))) l.reverse d a)
    (a' : Str) : Accepts (.alt beginText (.set isDelimiter)) (source l).reverse (source d) a' := by
  obtain ⟨k, hk, hstar⟩ := hu
  cases hd with
  | left hbegin =>
    obtain ⟨rfl, hnone⟩ := accepts_look.mp hbegin
    obtain rfl : l = [] := by simpa using hnone
    exact .left (.look rfl)
  | right hset =>
    obtain ⟨x, rfl, hx⟩ := accepts_set.mp hset
    rw [← append_assoc] at ht
    have hlink := ht.link x (by simp) k hk
    cases x with
    | kept => exact .right (.set hx)
    | put c hid =>
      -- a space that was put in is followed by a mask, not by a key
      exfalso
      rcases ht.stands (.put c hid) (by simp) with ⟨rfl, -⟩ | ⟨rfl, -⟩
      · exact hstar (hlink.space hid rfl)
      · exact absurd hx (by decide : ¬ isDelimiter '*' = true)

/-- Where the key and value rule matches, it matched the line as it came. -/
theorem keyValue_source {r : Marked} (ht : Traced f isValueChar (l ++ (w ++ r)))
    (h : Accepts keyValueMasking.re l.reverse w r) :
    Accepts keyValueRe (source l).reverse (source w) (source r) := by
  obtain ⟨front, value, rfl, hfront, hv⟩ := accepts_seq.mp h
  obtain ⟨d, rest, rfl, hd, hrest⟩ := accepts_seq.mp (accepts_group.mp hfront)
  obtain ⟨key, eq, rfl, hkey, heq⟩ := accepts_seq.mp hrest
  have hvalue := accepts_marked_plus (accepts_group.mp hv)
  have hstands := ht.stands
  simp only [forall_mem_append] at hstands
  obtain ⟨-, ⟨⟨-, hkeyst, heqst⟩, hvaluest⟩, -⟩ := hstands
  have hkeyhead : ∃ k ∈ (key ++ (eq ++ (value ++ r))).head?, k.shown ≠ '*' := by
    obtain ⟨k, key, rfl⟩ := exists_cons_of_ne_nil
      (((solid_of_takes (by decide)).comap Mark.shown) _ _ _ hkey)
    exact ⟨k, rfl, ((accepts_comap Mark.shown).mp hkey).ne_of_mem mem_cons_self (by decide)⟩
  have hlast : ∃ x ∈ (l ++ (d ++ (key ++ eq))).getLast?, x.shown ≠ '*' := by
    obtain ⟨p, x, rfl, -, hstar, -⟩ := opens_of_front (by decide) (by decide) (by decide)
      ((accepts_comap Mark.shown).mp heq) [] (absurd rfl ·)
    exact ⟨x, by simp [getLast?_append], hstar⟩
  have hne : source value ≠ [] := by
    have ht' : Traced f isValueChar ((l ++ (d ++ (key ++ eq))) ++ value ++ r) := by
      simpa only [append_assoc] using ht
    exact source_ne_nil ht'.left hvalue.1 hlast
  have ht' : Traced f isValueChar (l ++ (d ++ (key ++ (eq ++ (value ++ r))))) := by
    simpa only [append_assoc] using ht
  rw [source_append, source_append, source_append]
  exact .seq (.group (.seq (delimiter_source ht' hkeyhead hd _)
      (.seq (accepts_source (by decide) (by decide) (by decide) hkeyst hkey _ _)
        (assign_source heqst heq _ _))))
    (.group (accepts_plus_set.mpr ⟨hne, source_value (fun _ h => h) (by decide) hvaluest hvalue.2⟩))

theorem bearer_head {b a u : Str} (h : Accepts (word "bearer".toList) b u a) :
    ∃ c v, u = c :: v ∧ (c = 'b' ∨ c = 'B') := by
  have hfolds := accepts_word.mp h
  obtain ⟨c, v, hc, -, rfl⟩ := forall₂_cons_left_iff.mp hfolds
  have hb : foldsTo 'b' c = true := hc
  exact ⟨c, v, rfl, by simpa [foldsTo] using hb⟩

/-- Where the bearer rule matches, it matched the line as it came. -/
theorem bearer_source {r : Marked} (ht : Traced isValueChar g (l ++ (w ++ r)))
    (h : Accepts bearerMasking.re l.reverse w r) :
    Accepts bearerRe (source l).reverse (source w) (source r) := by
  obtain ⟨e, w, rfl, hlook, h⟩ := accepts_seq.mp h
  obtain ⟨rfl, hboundary⟩ := accepts_look.mp hlook
  obtain ⟨key, w, rfl, hkey, h⟩ := accepts_seq.mp h
  obtain ⟨blanks, value, rfl, hblanks, hvalue⟩ := accepts_seq.mp h
  have hstands := ht.stands
  simp only [nil_append, forall_mem_append] at hstands
  obtain ⟨-, ⟨hkeyst, hblanksst, hvaluest⟩, -⟩ := hstands
  have hblanks' := accepts_marked_plus hblanks
  have hkey' := accepts_source (by decide) (by decide) (by decide) hkeyst (accepts_group.mp hkey)
    (source l).reverse (source blanks ++ source value ++ source r)
  obtain ⟨c, v, hc, hb⟩ := bearer_head ((accepts_comap Mark.shown).mp (accepts_group.mp hkey))
  obtain ⟨k, key, rfl, rfl, rfl⟩ := map_eq_cons_iff.mp hc
  have hk : k = .kept k.shown :=
    (hkeyst k mem_cons_self).kept (by rcases hb with h | h <;> rw [h] <;> decide)
      (by rcases hb with h | h <;> rw [h] <;> decide)
  have hlast : (source l).reverse.head? = l.reverse.head?.map Mark.shown := by
    rw [head?_reverse, head?_reverse]
    exact getLast?_source ht rfl (by rcases hb with h | h <;> rw [h] <;> decide)
      (by rcases hb with h | h <;> rw [h] <;> decide)
  have hboundary' : Accepts wordBoundary (source l).reverse []
      (source (k :: key) ++ (source blanks ++ source value) ++ source r) := by
    refine .look ?_
    rw [hlast]
    rw [hk]
    exact hboundary
  simp only [nil_append, source_append]
  exact .seq (u := []) hboundary' (.seq (.group (by simpa using hkey'))
    (.seq (accepts_plus_set.mpr ⟨source_blanks_ne_nil hblanksst hblanks'.2 hblanks'.1,
      source_blanks hblanksst hblanks'.2⟩)
      (accepts_source (by decide) (by decide) (by decide) hvaluest hvalue _ _)))

end Traced

end YominsAgent.Logs
