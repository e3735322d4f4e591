import YominsAgent.Logs.Cards
import YominsAgent.Logs.Traced

/- Card numbers in a line.

   The rules before the card pass put no digits in, and next to a digit they leave the
   characters that came (`getLast?_source`, `head?_source`). So a card number in the line
   as they leave it stood in the line as it came (`card_back`). One with no further digit
   next to it is a candidate of its own and masked (`lone_card_found`); with another
   number one space away it may be swallowed by a candidate that fails the check. -/
namespace YominsAgent.Logs
open Go Lib List

def Redactor.afterRules (r : Redactor) (s : Str) : Str :=
  r.rules.foldl (fun t rule => rule.hinted (toLower s) t) s

/-- The same, with where each character comes from. -/
def rulesMarked (s : Str) : Marked :=
  defaultMaskings.foldl (fun t k => k.hinted (toLower s) t) (mark s)

theorem shown_rulesMarked (s : Str) :
    (rulesMarked s).map Mark.shown = defaultRedactor.afterRules s := by
  rw [rulesMarked, shown_foldl _ _ fun _ h => h, shown_mark]
  rfl

theorem source_rulesMarked (s : Str) : source (rulesMarked s) = s := by
  rw [rulesMarked, source_foldl _ _ fun _ h => h, source_mark]

theorem traced_rulesMarked (s : Str) : Traced isTokenChar (fun _ => true) (rulesMarked s) := by
  have h1 := traced_authorization (toLower s) (traced_mark s)
  have h2 := traced_bearer (toLower s) (h1.mono (fun _ => value_of_token) fun _ h => h)
  have h3 := traced_keyValue (toLower s) h2
  exact traced_credentials (toLower s) (h3.mono (fun _ h => h) fun _ _ => rfl)

/-! ## Rows of digits -/

/-- Inside a row stands a digit, or a separator behind one. -/
theorem Spelled.cut {n : Nat} {v z : Str} (h : Spelled n (v ++ z)) (hv : v ≠ []) (hz : z ≠ []) :
    (∃ y d, v = y ++ [d] ∧ d.isDigit = true) ∨
      ∃ y d c, v = y ++ [d, c] ∧ d.isDigit = true ∧ isSep c = true := by
  generalize hw : v ++ z = w at h
  induction h generalizing v with
  | one =>
    obtain ⟨e, v, rfl⟩ := exists_cons_of_ne_nil hv
    obtain ⟨-, hnil⟩ := cons.inj hw
    exact absurd (append_eq_nil_iff.mp hnil).2 hz
  | @digit _ d w hd h ih =>
    obtain ⟨e, v, rfl⟩ := exists_cons_of_ne_nil hv
    obtain ⟨rfl, hw'⟩ := cons.inj hw
    by_cases hne : v = []
    · exact .inl ⟨[], e, by rw [hne]; rfl, hd⟩
    · rcases ih hne hw' with ⟨y, d', rfl, hd'⟩ | ⟨y, d', c, rfl, hd', hc⟩
      · exact .inl ⟨e :: y, d', rfl, hd'⟩
      · exact .inr ⟨e :: y, d', c, rfl, hd', hc⟩
  | @sep _ d c w hd hc h ih =>
    obtain ⟨e, v, rfl⟩ := exists_cons_of_ne_nil hv
    obtain ⟨rfl, hw'⟩ := cons.inj hw
    rcases v with _ | ⟨c', v⟩
    · exact .inl ⟨[], e, rfl, hd⟩
    obtain ⟨rfl, hw''⟩ := cons.inj hw'
    by_cases hne : v = []
    · exact .inr ⟨[], e, c', by rw [hne]; rfl, hd, hc⟩
    · rcases ih hne hw'' with ⟨y, d', rfl, hd'⟩ | ⟨y, d', c, rfl, hd', hc⟩
      · exact .inl ⟨e :: c' :: y, d', rfl, hd'⟩
      · exact .inr ⟨e :: c' :: y, d', c, rfl, hd', hc⟩

/-- No row of digits from further left goes on into a number that stands alone. -/
theorem Spelled.ends_before {n : Nat} {u u' v w w' a a' : Str} (h : Spelled n w')
    (hu : u = u' ++ v) (hv : v ≠ []) (hx : v ++ (w ++ a) = w' ++ a') (hedge : Edge u.reverse)
    (halone : ¬ RowGoesOn u.reverse) : w'.length ≤ v.length := by
  by_contra hlt
  obtain ⟨z, rfl⟩ : ∃ z, w' = v ++ z := by
    rcases append_eq_append_iff.mp hx with ⟨z, hz, -⟩ | ⟨z, hz, -⟩
    · exact ⟨z, hz⟩
    · rw [hz, length_append] at hlt
      omega
  have hz : z ≠ [] := by
    rintro rfl
    simp at hlt
  rcases h.cut hv hz with ⟨y, d, rfl, hd⟩ | ⟨y, d, c, rfl, hd, hc⟩
  · refine not_edge_of_digit ?_ hedge
    rw [hu]
    simpa using hd
  · refine halone ⟨c, d, y.reverse ++ u'.reverse, ?_, hc, hd⟩
    rw [hu]
    simp

/-- A card number with no digit next to it is a candidate of its own. -/
theorem lone_card_found {t u w a : Str} (ht : t = u ++ (w ++ a)) (hcard : IsCard u.reverse w a)
    (hleft : ¬ RowGoesOn u.reverse) (hright : ¬ RowGoesOn a) :
    ∃ m, Found cardCandidate [] t m ∧ m.before = u.reverse ∧ m.text = w ∧ m.after = a := by
  obtain ⟨n, hlo, hhi, hspelled⟩ := hcard.row
  have hsub : Subst cardCandidate Match.text [] t (cardCandidate.replaceAll Match.text t) :=
    replaceAll_subst (solid_of_takes (by decide : cardCandidate.takes = true)) t
  obtain ⟨m, hm, hbefore, htext⟩ := Found.of_accepts hsub ht
    (by simpa using hcard.accepts : Accepts cardCandidate (u.reverse ++ []) w a) (by
      intro u' v w' a' hu hx hacc hv
      obtain ⟨⟨n', -, -, hspelled'⟩, -, -⟩ := accepts_cardCandidate.mp hacc
      exact hspelled'.ends_before hu hv hx hcard.left hleft)
  obtain ⟨b, pre, hfirst⟩ := hm.isFirst
  obtain ⟨n', hle, hspelled'⟩ := candidate_longest hfirst hhi hspelled hcard.right htext
  obtain rfl : n' = n :=
    Nat.le_antisymm (hspelled.le_of_alone hcard.right hright hspelled' htext.symm) hle
  have hw := hspelled'.eq_of_length hspelled htext
  refine ⟨m, hm, by simpa using hbefore, hw, ?_⟩
  rw [hw] at htext
  exact append_cancel_left htext

/-! ## Back to the line as it came -/

section Back
variable {f g : Char → Bool} {t u a : Marked}

theorem Stands.kept_digit {x : Mark Char} (h : Stands g x) (hd : x.shown.isDigit = true) :
    x = .kept x.shown :=
  h.kept (fun he => by rw [he] at hd; cases hd) (fun he => by rw [he] at hd; cases hd)

/-- A separator with a digit behind it is still the one that came. -/
theorem Traced.kept_sep {x y : Mark Char} (ht : Traced f g (x :: y :: t))
    (hx : isSep x.shown = true) (hy : y.shown.isDigit = true) : x = .kept x.shown := by
  have hlink : Linked f x y := (isChain_cons_cons.mp ht.linked).1
  cases x with
  | kept => rfl
  | put c h =>
    rcases ht.stands _ mem_cons_self with ⟨rfl, -⟩ | ⟨rfl, -⟩
    · rw [hlink.space h rfl] at hy
      cases hy
    · cases hx

theorem Traced.kept_row {n : Nat} {w : Str} (h : Spelled n w) (ht : Traced f g t)
    (hw : t.map Mark.shown = w) : ∀ x ∈ t, ∃ c, x = .kept c := by
  induction h generalizing t with
  | one hd =>
    obtain ⟨x, rfl, rfl⟩ := map_eq_singleton_iff.mp hw
    exact forall_mem_singleton.mpr ⟨_, (ht.stands x mem_cons_self).kept_digit hd⟩
  | digit hd _ ih =>
    obtain ⟨x, t, rfl, rfl, ht'⟩ := map_eq_cons_iff.mp hw
    exact forall_mem_cons.mpr ⟨⟨_, (ht.stands x mem_cons_self).kept_digit hd⟩,
      ih (ht.right (t := [x])) ht'⟩
  | sep hd hc h ih =>
    obtain ⟨x, t, rfl, rfl, hrest⟩ := map_eq_cons_iff.mp hw
    obtain ⟨y, t, rfl, rfl, hrow⟩ := map_eq_cons_iff.mp hrest
    have ht' := ht.right (t := [x])
    refine forall_mem_cons.mpr ⟨⟨_, (ht.stands x mem_cons_self).kept_digit hd⟩,
      forall_mem_cons.mpr ⟨?_, ih (ht'.right (t := [y])) hrow⟩⟩
    obtain ⟨d, v, hdv, hdigit⟩ := h.head
    rw [hdv] at hrow
    obtain ⟨z, t, rfl, rfl, -⟩ := map_eq_cons_iff.mp hrow
    exact ⟨_, ht'.kept_sep hc hdigit⟩

/-- What goes on before a digit went on before it in the line as it came. -/
theorem rowGoesOn_before {x : Mark Char} (ht : Traced f g (u ++ x :: a))
    (hx : x.shown.isDigit = true)
    (h : RowGoesOn (u.map Mark.shown).reverse) : RowGoesOn (source u).reverse := by
  obtain ⟨c, d, y, hy, hc, hd⟩ := h
  have hu : u.map Mark.shown = (y.reverse ++ [d]) ++ [c] := by
    rw [← reverse_reverse (u.map Mark.shown), hy]
    simp
  obtain ⟨u1, u2, rfl, hu1, hu2⟩ := map_eq_append_iff.mp hu
  obtain ⟨u0, u3, rfl, -, hu3⟩ := map_eq_append_iff.mp hu1
  obtain ⟨z, rfl, rfl⟩ := map_eq_singleton_iff.mp hu2
  obtain ⟨v, rfl, rfl⟩ := map_eq_singleton_iff.mp hu3
  have hz : z = .kept z.shown := by
    rw [append_assoc] at ht
    exact ht.right.kept_sep hc hx
  have hv : v = .kept v.shown := (ht.stands v (by simp)).kept_digit hd
  refine ⟨z.shown, v.shown, (source u0).reverse, ?_, hc, hd⟩
  rw [hz, hv]
  simp

/-- What goes on behind a digit went on behind it in the line as it came. -/
theorem rowGoesOn_behind (ht : Traced f g a) (h : RowGoesOn (a.map Mark.shown)) :
    RowGoesOn (source a) := by
  obtain ⟨c, d, y, hy, hc, hd'⟩ := h
  obtain ⟨z, a, rfl, rfl, ha⟩ := map_eq_cons_iff.mp hy
  obtain ⟨v, a, rfl, rfl, -⟩ := map_eq_cons_iff.mp ha
  have hz := ht.kept_sep hc hd'
  have hv : v = .kept v.shown := (ht.stands v (by simp)).kept_digit hd'
  refine ⟨z.shown, v.shown, source a, ?_, hc, hd'⟩
  rw [hz, hv]
  rfl

end Back

/-- A card number in the line as the rules leave it stood in the line as it came, with
what goes on next to it. -/
theorem card_back {g : Char → Bool} {t : Marked} (ht : Traced isTokenChar g t) {u w a : Str}
    (hx : t.map Mark.shown = u ++ (w ++ a)) (hcard : IsCard u.reverse w a) :
    ∃ u' a', source t = u' ++ (w ++ a') ∧ IsCard u'.reverse w a' ∧
      (RowGoesOn u.reverse → RowGoesOn u'.reverse) ∧ (RowGoesOn a → RowGoesOn a') := by
  obtain ⟨n, -, -, hspelled⟩ := hcard.row
  obtain ⟨U, V, rfl, rfl, hV⟩ := map_eq_append_iff.mp hx
  obtain ⟨W, A, rfl, rfl, rfl⟩ := map_eq_append_iff.mp hV
  have hkept : source W = W.map Mark.shown :=
    source_eq_shown (ht.right.left.kept_row hspelled rfl)
  obtain ⟨d, v, hv, hd⟩ := hspelled.head
  obtain ⟨x, W', hW, rfl, -⟩ := map_eq_cons_iff.mp hv
  obtain ⟨v, e, hv, he⟩ := hspelled.last
  obtain ⟨W'', y, hW'', -, hy⟩ := map_eq_append_iff.mp hv
  obtain ⟨y, rfl, rfl⟩ := map_eq_singleton_iff.mp hy
  have hlast : y ∈ (U ++ W).getLast? := by
    rw [hW'']
    simp
  have htoken : isTokenChar x.shown = true := by simp [isTokenChar, Char.isAlphanum, hd]
  have hstar : x.shown ≠ '*' := fun h => by rw [h] at hd; cases hd
  have hleft : (source U).getLast? = U.getLast?.map Mark.shown :=
    getLast?_source ht (by rw [hW]; rfl) hstar htoken
  have ht' : Traced isTokenChar g ((U ++ W) ++ A) := by rwa [append_assoc]
  have hright : (source A).head? = A.head?.map Mark.shown := head?_source ht' hlast he
  refine ⟨source U, source A, by rw [source_append, source_append, hkept],
    ⟨hcard.row, hcard.luhn, ?_, ?_⟩, ?_, rowGoesOn_behind ht'.right⟩
  · have hedge := hcard.left
    rw [Edge, head?_reverse] at hedge ⊢
    rwa [hleft, ← getLast?_map]
  · have hedge := hcard.right
    rw [Edge] at hedge ⊢
    rwa [hright, ← head?_map]
  · rw [hW] at ht
    exact rowGoesOn_before ht hd

/-- No card number in the line has a further digit next to it. -/
def LoneCards (s : Str) : Prop :=
  ∀ u w a, s = u ++ (w ++ a) → IsCard u.reverse w a → ¬ RowGoesOn u.reverse ∧ ¬ RowGoesOn a

theorem cardsMet_of_lone {s : Str} (h : LoneCards s) : CardsMet (defaultRedactor.afterRules s) := by
  intro u w a ht hcard
  have hshown := (shown_rulesMarked s).trans ht
  obtain ⟨u', a', hs, hcard', hbefore, hbehind⟩ := card_back (traced_rulesMarked s) hshown hcard
  rw [source_rulesMarked] at hs
  obtain ⟨hleft, hright⟩ := h u' w a' hs hcard'
  obtain ⟨m, hm, hu, hw, -⟩ := lone_card_found ht hcard (mt hbefore hleft) (mt hbehind hright)
  refine ⟨m, hm, ?_, ?_⟩
  · rw [Passes, hw]
    exact hcard.luhn
  · have hne : 0 < w.length := by
      obtain ⟨n, -, -, hspelled⟩ := hcard.row
      obtain ⟨d, v, rfl, -⟩ := hspelled.head
      exact Nat.succ_pos _
    rw [Match.Meets, hu, hw]
    omega

/-- A line keeps no card number exactly when, before the card pass, each one shares a
digit with a candidate that passes the check. That is so when no card number in the line
has a further digit next to it. On the line as it came this is only enough: a rule may mask
the further digit and leave the card number, or mask both. -/
theorem no_card_survives_iff (s : Str) :
    (NoCard (defaultRedactor.redact s) ↔ CardsMet (defaultRedactor.afterRules s)) ∧
      (LoneCards s → NoCard (defaultRedactor.redact s)) := by
  have hiff : NoCard (defaultRedactor.redact s) ↔ CardsMet (defaultRedactor.afterRules s) :=
    noCard_maskCards_iff _
  exact ⟨hiff, fun h => hiff.mpr (cardsMet_of_lone h)⟩

-- the `1` is gone before the card pass
example : defaultRedactor.redact ("password=1 4".toList ++ List.replicate 15 '1') =
    "password=*** ***".toList := by decide +kernel

theorem spelled_replicate (n : Nat) : Spelled (n + 1) (List.replicate (n + 1) '1') := by
  induction n with
  | zero => exact .one rfl
  | succ n ih => exact .digit rfl ih

/-- A quantity before a card number takes it into a candidate that fails. -/
theorem card_survives :
    defaultRedactor.redact ("1 4".toList ++ List.replicate 15 '1') =
      "1 4".toList ++ List.replicate 15 '1' ∧
    ¬ NoCard (defaultRedactor.redact ("1 4".toList ++ List.replicate 15 '1')) := by
  have hsame : defaultRedactor.redact ("1 4".toList ++ replicate 15 '1') =
      "1 4".toList ++ replicate 15 '1' := by decide +kernel
  refine ⟨hsame, fun hnone => ?_⟩
  rw [hsame] at hnone
  exact hnone "1 ".toList ('4' :: replicate 15 '1') [] rfl
    ⟨⟨16, by decide, by decide, .digit rfl (spelled_replicate 14)⟩, by decide, rfl, rfl⟩

end YominsAgent.Logs
