import YominsAgent.Collector.Registry

/- Collectors that answered in one pass and are called stuck in the next
   (`internal/collector/collector.go`).

   The goroutine of a call hands its result over and clears the mark of its collector afterwards, in
   a deferred call. In between the pass may return and the next one come to the collector
   (`answered_called_stuck`). No collector that answered is called stuck exactly if the mark is
   cleared by then (`answered_not_stuck_iff`).

   One pass follows the other here (`successive`); what a call does goes on beyond its pass. -/
namespace YominsAgent.Collector
open Go Lib List Option

variable {π : Type} {reg : Registry} {P : Pass π} {a : Label π} {α : Type} {p q i : Nat}

/-- A pass begins when those before it have returned. -/
def successive (s : State π) : Label π → Bool
  | .begin => s.passes.all fun P => P.ended.isSome
  | .pass _ _ => true

/-- The call a pass has made of a collector. -/
def State.call? (s : State π) (p i : Nat) : Option (Call π) :=
  (s.passes[p]?).bind fun P => P.calls[i]?.join

/-- The points or the error of the call are in the results of its pass. -/
def Call.answered (c : Call π) : Bool :=
  match c.watcher with
  | .received _ => true
  | _ => false

/-- The pass has not called the collector and reports the previous collection as still
running. -/
def State.calledStuck (s : State π) (p i : Nat) : Prop :=
  ∃ P, s.passes[p]? = some P ∧ P.calls[i]? = some none

/-- No collector that answered in a pass is called stuck in the next. -/
def NotStuck (s : State π) : Prop :=
  ∀ p i c, s.call? p i = some c → c.answered = true → ¬ s.calledStuck (p + 1) i

/-- When a pass comes to a collector that answered in the one before, the goroutine of
that call has cleared its mark. -/
def cleared (s : State π) : Label π → Bool
  | .pass (p + 1) .next =>
    s.passes[p + 1]?.all fun P =>
      (s.call? p P.calls.length).all fun c => !c.answered || !c.holds
  | _ => true

/-! ## Steps -/

theorem Pass.step_calls {P' : Pass π} {busy busy' : List Str} {a : PassLabel π}
    (hs : P.step reg busy a = some (busy', P')) :
    (a = .next ∧ P'.ended = P.ended ∧ ∃ name, reg.names[P.calls.length]? = some name ∧
      ((name ∈ busy ∧ P'.calls = P.calls ++ [none]) ∨
        (name ∉ busy ∧ P'.calls = P.calls ++ [some ({} : Call π)]))) ∨
    (P'.ended = P.ended ∧ ∃ i b c c', P.calls[i]? = some (some c) ∧ c.step b = some c' ∧
      P'.calls = P.calls.set i (some c')) ∨
    (P'.ended.isSome = true ∧ P'.calls = P.calls) := by
  cases a with
  | next =>
    simp only [Pass.step] at hs
    split at hs
    · cases hs
    · next name hname =>
      unfold start at hs
      by_cases hbusy : name ∈ busy
      · rw [if_pos hbusy] at hs
        cases hs
        exact .inl ⟨rfl, rfl, name, hname, .inl ⟨hbusy, rfl⟩⟩
      · rw [if_neg hbusy] at hs
        cases hs
        exact .inl ⟨rfl, rfl, name, hname, .inr ⟨hbusy, rfl⟩⟩
  | call i b =>
    simp only [Pass.step] at hs
    split at hs
    · next c name hc hname =>
      obtain ⟨c', hc', he⟩ := map_eq_some_iff.mp hs
      cases he
      exact .inr (.inl ⟨rfl, i, b, c, c', hc, hc', rfl⟩)
    · cases hs
  | gather =>
    obtain ⟨-, ⟨⟩⟩ := ite_none_right_eq_some.mp hs
    exact .inr (.inr ⟨rfl, rfl⟩)

theorem step_cases {s s' : State π} (hs : step reg s a = some s') :
    (a = .begin ∧ s'.busy = s.busy ∧ s'.passes = s.passes ++
      [{ results := List.replicate reg.names.length ⟨[], none⟩ }]) ∨
    ∃ p b P P', a = .pass p b ∧ s.passes[p]? = some P ∧
      P.step reg s.busy b = some (s'.busy, P') ∧ s'.passes = s.passes.set p P' := by
  cases a with
  | begin =>
    cases hs
    exact .inl ⟨rfl, rfl, rfl⟩
  | pass p b =>
    simp only [step] at hs
    split at hs
    · cases hs
    · next P hP =>
      obtain ⟨⟨busy', P'⟩, hstep, he⟩ := map_eq_some_iff.mp hs
      cases he
      exact .inr ⟨p, b, P, P', rfl, hP, hstep, rfl⟩

/-- A step leaves a call of a pass as it is, begins it or takes it further. -/
theorem call?_step {s s' : State π} (hs : step reg s a = some s') (q i : Nat) :
    s'.call? q i = s.call? q i ∨
    (∃ P name, a = .pass q .next ∧ s.passes[q]? = some P ∧ i = P.calls.length ∧
      reg.names[i]? = some name ∧ name ∉ s.busy ∧ s'.call? q i = some {}) ∨
    ∃ b c c', s.call? q i = some c ∧ c.step b = some c' ∧ s'.call? q i = some c' := by
  rcases step_cases hs with ⟨-, -, hpasses⟩ | ⟨p, b, P, P', rfl, hP, hstep, hpasses⟩
  · left
    simp only [State.call?, hpasses, getElem?_append, getElem?_singleton]
    split
    · rfl
    · rw [getElem?_eq_none (by omega)]
      split <;> rfl
  · have hlt := (List.getElem?_eq_some_iff.mp hP).1
    by_cases hq : q = p
    · subst hq
      have hnew : s'.call? q i = P'.calls[i]?.join := by
        simp only [State.call?, hpasses, getElem?_set_self hlt, bind_some]
      have hold : s.call? q i = P.calls[i]?.join := by
        simp only [State.call?, hP, bind_some]
      rw [hnew, hold]
      rcases Pass.step_calls hstep with ⟨rfl, -, name, hname, hcalls⟩ |
        ⟨-, j, d, c, c', hc, hc', hcalls⟩ | ⟨-, hcalls⟩
      · by_cases hi : i = P.calls.length
        · subst hi
          rcases hcalls with ⟨-, hcalls⟩ | ⟨hfree, hcalls⟩
          · left
            rw [hcalls, getElem?_concat_length, getElem?_eq_none (Nat.le_refl _)]
            rfl
          · refine .inr (.inl ⟨P, name, rfl, hP, rfl, hname, hfree, ?_⟩)
            rw [hcalls, getElem?_concat_length]
            rfl
        · left
          obtain ⟨x, hcalls⟩ : ∃ x, P'.calls = P.calls ++ [x] :=
            hcalls.elim (fun h => ⟨_, h.2⟩) (fun h => ⟨_, h.2⟩)
          rw [hcalls]
          rcases Nat.lt_or_gt_of_ne hi with hi | hi
          · rw [getElem?_append_left hi]
          · rw [getElem?_eq_none (by simp; omega), getElem?_eq_none (by omega)]
      · rw [hcalls]
        by_cases hi : j = i
        · subst hi
          rw [getElem?_set_self (List.getElem?_eq_some_iff.mp hc).1, hc]
          exact .inr (.inr ⟨d, c, c', rfl, hc', rfl⟩)
        · rw [getElem?_set_ne hi]
          exact .inl rfl
      · rw [hcalls]
        exact .inl rfl
    · left
      simp only [State.call?, hpasses, getElem?_set_ne (Ne.symm hq)]

/-- A pass calls a collector stuck when it comes to it and finds it busy. -/
theorem calledStuck_step {s s' : State π} (hs : step reg s a = some s') (h : s'.calledStuck q i) :
    s.calledStuck q i ∨ ∃ P name, a = .pass q .next ∧ s.passes[q]? = some P ∧
      i = P.calls.length ∧ reg.names[i]? = some name ∧ name ∈ s.busy := by
  obtain ⟨Q, hQ, hi⟩ := h
  rcases step_cases hs with ⟨-, -, hpasses⟩ | ⟨p, b, P, P', rfl, hP, hstep, hpasses⟩
  · rw [hpasses, getElem?_append, getElem?_singleton] at hQ
    split at hQ
    · exact .inl ⟨Q, hQ, hi⟩
    · split at hQ
      · cases hQ
        cases hi
      · cases hQ
  · have hlt := (List.getElem?_eq_some_iff.mp hP).1
    by_cases hq : p = q
    · subst hq
      rw [hpasses, getElem?_set_self hlt] at hQ
      obtain rfl : P' = Q := some.inj hQ
      rcases Pass.step_calls hstep with ⟨rfl, -, name, hname, hcalls⟩ |
        ⟨-, j, d, c, c', hc, -, hcalls⟩ | ⟨-, hcalls⟩
      · rcases hcalls with ⟨hbusy, hcalls⟩ | ⟨-, hcalls⟩
        · rw [hcalls, getElem?_append, getElem?_singleton] at hi
          split at hi
          · exact .inl ⟨P, hP, hi⟩
          · split at hi
            · obtain rfl : i = P.calls.length := by omega
              exact .inr ⟨P, name, rfl, hP, rfl, hname, hbusy⟩
            · cases hi
        · rw [hcalls, getElem?_append, getElem?_singleton] at hi
          split at hi
          · exact .inl ⟨P, hP, hi⟩
          · split at hi <;> cases hi
      · rw [hcalls, getElem?_set] at hi
        split at hi
        · split at hi <;> cases hi
        · exact .inl ⟨P, hP, hi⟩
      · rw [hcalls] at hi
        exact .inl ⟨P, hP, hi⟩
    · rw [hpasses, getElem?_set_ne hq] at hQ
      exact .inl ⟨Q, hQ, hi⟩

/-! ## Successive passes -/

theorem State.holds_iff {s : State π} :
    s.holds p i ↔ ∃ c, s.call? p i = some c ∧ c.holds = true := by
  unfold State.holds State.call? Pass.holds
  cases hP : s.passes[p]? with
  | none => simp
  | some P =>
    cases hc : P.calls[i]? with
    | none => simp [hc]
    | some o => cases o <;> simp [hc]

theorem State.lt_of_call? {s : State π} (h : (s.call? p i).isSome = true) :
    p < s.passes.length := by
  by_contra hlt
  rw [State.call?, getElem?_eq_none (by omega)] at h
  cases h

/-- What holds between successive passes: all but the last have returned, a mark is there
for a call, and where a pass has called a collector no earlier call keeps it busy. -/
structure Successive (reg : Registry) (s : State π) : Prop extends Ok reg s where
  ended : ∀ p P, s.passes[p]? = some P → p + 1 < s.passes.length → P.ended.isSome = true
  held : ∀ name ∈ s.busy, ∃ p i, reg.names[i]? = some name ∧ s.holds p i
  fresh : ∀ r q i, r < q → (s.call? q i).isSome = true → ¬ s.holds r i

namespace Successive

theorem init : Successive reg ({} : State π) :=
  { ok_init with
    ended := nofun
    held := nofun
    fresh := nofun }

variable {s s' : State π}

section
variable (h : Successive reg s)
include h

theorem last_of_next {name : Str} (hP : s.passes[p]? = some P)
    (hname : reg.names[P.calls.length]? = some name) : s.passes.length ≤ p + 1 := by
  by_contra hlt
  have hended := h.ended p P hP (by omega)
  obtain ⟨out, hout⟩ := Option.isSome_iff_exists.mp hended
  have hall := ((h.passes P (List.mem_of_getElem? hP)).ended out hout).2.1
  have := (List.getElem?_eq_some_iff.mp hname).1
  omega

section
variable (hs : step reg s a = some s')
include hs

theorem ended_step (hg : successive s a = true) :
    ∀ p P, s'.passes[p]? = some P → p + 1 < s'.passes.length → P.ended.isSome = true := by
  intro p Q hQ hlt
  rcases step_cases hs with ⟨rfl, -, hpasses⟩ | ⟨q, b, P, P', rfl, hP, hstep, hpasses⟩
  · rw [hpasses, length_append, length_singleton] at hlt
    rw [hpasses, getElem?_append_left (by omega)] at hQ
    exact all_eq_true.mp hg Q (mem_of_getElem? hQ)
  · rw [hpasses, length_set] at hlt
    by_cases hp : q = p
    · subst hp
      rw [hpasses, getElem?_set_self (List.getElem?_eq_some_iff.mp hP).1] at hQ
      obtain rfl : P' = Q := some.inj hQ
      have hold := h.ended q P hP hlt
      rcases Pass.step_calls hstep with ⟨-, he, -⟩ | ⟨he, -⟩ | ⟨he, -⟩
      · rw [he]
        exact hold
      · rw [he]
        exact hold
      · exact he
    · rw [hpasses, getElem?_set_ne hp] at hQ
      exact h.ended p Q hQ hlt

theorem held_step : ∀ name ∈ s'.busy, ∃ p i, reg.names[i]? = some name ∧ s'.holds p i := by
  intro name hname
  rcases step_cases hs with ⟨-, hbusy, hpasses⟩ | ⟨q, b, P, P', rfl, hP, hstep, hpasses⟩
  · rw [hbusy] at hname
    obtain ⟨p, i, hi, Q, hQ, hholds⟩ := h.held name hname
    refine ⟨p, i, hi, Q, ?_, hholds⟩
    rw [hpasses, List.getElem?_append_left (List.getElem?_eq_some_iff.mp hQ).1]
    exact hQ
  · obtain ⟨busy', passes'⟩ := s'
    simp only at hpasses hname hstep
    subst hpasses
    -- whoever holds another collector still does
    have hkeep : ∀ k, (∀ i ≠ k, P'.holds i = P.holds i) → ∀ p i, i ≠ k → s.holds p i →
        State.holds ⟨busy', s.passes.set q P'⟩ p i := by
      intro k hother p i hik hheld
      rw [State.holds_set hP]
      by_cases hpq : p = q
      · subst hpq
        obtain ⟨Q, hQ, hi⟩ := hheld
        obtain rfl : P = Q := Option.some.inj (hP.symm.trans hQ)
        exact .inl ⟨rfl, (hother i hik).trans hi⟩
      · exact .inr ⟨hpq, hheld⟩
    have hindex : ∀ {i k : Nat} {n m : Str}, reg.names[i]? = some n → reg.names[k]? = some m →
        n ≠ m → i ≠ k := by
      rintro i k n m hi hk hne rfl
      exact hne (Option.some.inj (hi.symm.trans hk))
    rcases Pass.step_holds hstep with ⟨rfl, hsame⟩ | ⟨k, taken, hk, -, rfl, hnew, hother⟩ |
      ⟨k, freed, hk, -, rfl, -, hother⟩
    · obtain ⟨p, i, hi, hheld⟩ := h.held name hname
      exact ⟨p, i, hi, hkeep (i + 1) (fun j _ => hsame j) p i (by omega) hheld⟩
    · by_cases htaken : name = taken
      · subst htaken
        exact ⟨q, k, hk, (State.holds_set hP _ q k).mpr (.inl ⟨rfl, hnew⟩)⟩
      · obtain ⟨p, i, hi, hheld⟩ := h.held name ((List.mem_cons.mp hname).resolve_left htaken)
        exact ⟨p, i, hi, hkeep k hother p i (hindex hi hk htaken) hheld⟩
    · obtain ⟨hbusy, hne⟩ := List.mem_filter.mp hname
      obtain ⟨p, i, hi, hheld⟩ := h.held name hbusy
      exact ⟨p, i, hi, hkeep k hother p i (hindex hi hk (by simpa using hne)) hheld⟩

theorem holds_of_step {r : Nat} (hlast : r + 1 < s.passes.length)
    (hheld : s'.holds r i) : s.holds r i := by
  obtain ⟨c', hc', hholds⟩ := State.holds_iff.mp hheld
  rw [State.holds_iff]
  rcases call?_step hs r i with hsame | ⟨P, name, rfl, hP, rfl, hname, -, -⟩ | ⟨b, c, d, hc, hd, hnew⟩
  · exact ⟨c', hsame ▸ hc', hholds⟩
  · have := h.last_of_next hP hname
    omega
  · obtain rfl : c' = d := some.inj (hc'.symm.trans hnew)
    refine ⟨c, hc, ?_⟩
    rcases Call.step_holds hd with ⟨-, hc, -⟩ | ⟨-, hsame⟩
    · exact hc
    · rw [← hsame]
      exact hholds

theorem fresh_step : ∀ r q i, r < q → (s'.call? q i).isSome = true → ¬ s'.holds r i := by
  intro r q i hrq hcall hheld
  rcases call?_step hs q i with hsame | ⟨P, name, rfl, hP, rfl, hname, hfree, -⟩ | ⟨b, c, d, hc, -, -⟩
  · rw [hsame] at hcall
    have := State.lt_of_call? hcall
    exact h.fresh r q i hrq hcall (h.holds_of_step hs (by omega) hheld)
  · have := (List.getElem?_eq_some_iff.mp hP).1
    exact hfree (h.busy r _ name (h.holds_of_step hs (by omega) hheld) hname)
  · have hcall : (s.call? q i).isSome = true := by rw [hc]; rfl
    have := State.lt_of_call? hcall
    exact h.fresh r q i hrq hcall (h.holds_of_step hs (by omega) hheld)

end

theorem step (hs : guarded successive (Collector.step reg) s a = some s') : Successive reg s' := by
  obtain ⟨hg, hs⟩ := guarded_eq_some.mp hs
  exact { h.toOk.step hs with
    ended := h.ended_step hs hg
    held := h.held_step hs
    fresh := h.fresh_step hs }

theorem answered_of_step (hs : Collector.step reg s a = some s') {c' : Call π}
    (hnext : q + 1 < s.passes.length) (hc' : s'.call? q i = some c')
    (hanswered : c'.answered = true) : ∃ c, s.call? q i = some c ∧ c.answered = true := by
  rcases call?_step hs q i with hsame | ⟨P, name, -, -, -, -, -, hnew⟩ | ⟨b, c, d, hc, hd, hnew⟩
  · exact ⟨c', hsame ▸ hc', hanswered⟩
  · rw [hnew] at hc'
    cases hc'
    cases hanswered
  · obtain rfl : c' = d := some.inj (hc'.symm.trans hnew)
    refine ⟨c, hc, ?_⟩
    obtain ⟨P, hP, hcall⟩ := bind_eq_some_iff.mp hc
    obtain ⟨out, hout⟩ := isSome_iff_exists.mp (h.ended q P hP hnext)
    have hmem : some c ∈ P.calls := mem_of_getElem? (join_eq_some_iff.mp hcall)
    have hsettled := ((h.passes P (mem_of_getElem? hP)).ended out hout).2.2 c hmem
    obtain ⟨worker, done, expired, watcher⟩ := c
    cases watcher with
    | waiting => cases hsettled
    | received => rfl
    | gaveUp =>
      cases b <;> cases worker <;> cases done <;> cases hd <;> cases hanswered

/-- A collector that answered and whose mark is cleared is not busy when the next pass
comes to it. -/
theorem free_of_cleared {c : Call π} {name : Str} (hP : s.passes[q + 1]? = some P)
    (hname : reg.names[P.calls.length]? = some name) (hc : s.call? q P.calls.length = some c)
    (hcleared : c.holds = false) : name ∉ s.busy := by
  intro hbusy
  obtain ⟨r, i, hi, hheld⟩ := h.held name hbusy
  have hlt := (List.getElem?_eq_some_iff.mp hname).1
  obtain rfl : P.calls.length = i :=
    (List.getElem?_inj hlt reg.nodup).mp (hname.trans hi.symm)
  obtain ⟨d, hd, hholds⟩ := State.holds_iff.mp hheld
  rcases Nat.lt_trichotomy r q with hr | rfl | hr
  · exact h.fresh r q _ hr (by rw [hc]; rfl) hheld
  · rw [hc] at hd
    rw [← Option.some.inj hd, hcleared] at hholds
    cases hholds
  · -- the pass itself has no call of the collector yet, and it is the last one
    have hlast := h.last_of_next hP hname
    have hr' := State.lt_of_call? (show (s.call? r P.calls.length).isSome = true by rw [hd]; rfl)
    obtain rfl : r = q + 1 := by omega
    rw [State.call?, hP, Option.bind_some, List.getElem?_eq_none (Nat.le_refl _)] at hd
    cases hd

end

end Successive

/-! ## Answered and called stuck -/

theorem notStuck_step {s s' : State π} (h : Successive reg s) (hstuck : NotStuck s)
    (hs : step reg s a = some s') (hg : cleared s a = true) : NotStuck s' := by
  intro q i c' hc' hanswered hnext
  have hlen : q + 1 < s.passes.length := by
    rcases calledStuck_step hs hnext with ⟨P, hP, -⟩ | ⟨P, name, -, hP, -⟩
    · exact (List.getElem?_eq_some_iff.mp hP).1
    · exact (List.getElem?_eq_some_iff.mp hP).1
  obtain ⟨c, hc, hans⟩ := h.answered_of_step hs hlen hc' hanswered
  rcases calledStuck_step hs hnext with hold | ⟨P, name, rfl, hP, rfl, hname, hbusy⟩
  · exact hstuck q i c hc hans hold
  · simp only [cleared, hP, Option.all_some, hc, hans, Bool.not_true, Bool.false_or,
      Bool.not_eq_true'] at hg
    exact h.free_of_cleared hP hname hc hg hbusy

theorem cleared_of_notStuck {s s' : State π} (h : Successive reg s) (hs : step reg s a = some s')
    (hstuck : NotStuck s') : cleared s a = true := by
  unfold cleared
  split
  · next q =>
    rcases step_cases hs with ⟨he, -⟩ | ⟨p, b, P, P', he, hP, hstep, hpasses⟩
    · cases he
    cases he
    rw [hP, all_some]
    cases hc : s.call? q P.calls.length with
    | none => rfl
    | some c =>
      rw [all_some]
      cases hans : c.answered with
      | false => rfl
      | true =>
        cases hholds : c.holds with
        | false => rfl
        | true =>
          exfalso
          have hkeep : s'.call? q P.calls.length = some c := by
            rw [State.call?, hpasses, getElem?_set_ne (by omega)]
            exact hc
          have hheld : s.holds q P.calls.length := State.holds_iff.mpr ⟨c, hc, hholds⟩
          refine hstuck q _ c hkeep hans ⟨P', ?_, ?_⟩
          · rw [hpasses, getElem?_set_self (List.getElem?_eq_some_iff.mp hP).1]
          · simp only [Pass.step] at hstep
            split at hstep
            · cases hstep
            · next name hname =>
              rw [start, if_pos (h.busy q _ name hheld hname)] at hstep
              have hcalls : P.calls ++ [none] = P'.calls :=
                congrArg (fun next => next.2.calls) (some.inj hstep)
              rw [← hcalls]
              exact getElem?_concat_length
  · rfl

/-- In every run of successive passes: no collector that answered in a pass is called
stuck in the next, at any time, if and only if each time a pass comes to a collector that
answered in the one before its mark has been cleared. -/
theorem answered_not_stuck_iff (reg : Registry) (as : List (Label π)) (s : State π)
    (h : run (guarded successive (step reg)) {} as = some s) :
    (∀ as₁ as₂ m, as = as₁ ++ as₂ → run (guarded successive (step reg)) {} as₁ = some m →
      NotStuck m) ↔
    run (guarded cleared (guarded successive (step reg))) {} as = some s := by
  refine run_guarded_iff (I := Successive reg) ?_ ?_ ?_ as {} s .init ?_ h
  · intro s a s' hs hstep
    exact hs.step hstep
  · intro s a s' hs hstuck hstep
    obtain ⟨hg, hstep⟩ := guarded_eq_some.mp hstep
    exact notStuck_step hs hstuck (guarded_eq_some.mp hstep).2 hg
  · intro s a s' hs hstep hstuck
    exact cleared_of_notStuck hs (guarded_eq_some.mp hstep).2 hstuck
  · intro p i c hc
    cases hc

/-- A pass with the points of its collector, and the next pass after its mark is cleared. -/
def clearedInTime : List (Label Nat) :=
  [.begin, .pass 0 .next, .pass 0 (.call 0 (.collected ⟨[7], none⟩)), .pass 0 (.call 0 .send),
   .pass 0 (.call 0 .receive), .pass 0 .gather, .pass 0 (.call 0 .finish), .begin, .pass 1 .next]

theorem second_pass_not_stuck : ∃ s,
    run (guarded successive (step oneCollector)) {} clearedInTime = some s ∧ NotStuck s := by
  obtain ⟨s, hs, hg⟩ : ∃ s, run (guarded successive (step oneCollector)) {} clearedInTime = some s ∧
      run (guarded cleared (guarded successive (step oneCollector))) {} clearedInTime = some s :=
    ⟨_, rfl, rfl⟩
  exact ⟨s, hs, (answered_not_stuck_iff oneCollector clearedInTime s hs).mpr hg clearedInTime [] s
    (append_nil _).symm hs⟩

/-- The pass returns with the points, the next one begins, and the goroutine of the call
has not come to its deferred `finish`. -/
theorem answered_called_stuck : ∃ s P,
    run (guarded successive (step oneCollector)) {}
      [.begin, .pass 0 .next, .pass 0 (.call 0 (.collected ⟨[7], none⟩)), .pass 0 (.call 0 .send),
       .pass 0 (.call 0 .receive), .pass 0 .gather, .begin, .pass 1 .next] = some s ∧
    s.passes[0]? = some P ∧ P.ended.map Prod.fst = some [7] ∧ s.calledStuck 1 0 ∧
    ¬ NotStuck s := by
  refine ⟨_, _, rfl, rfl, rfl, ⟨_, rfl, rfl⟩, ?_⟩
  intro h
  exact h 0 0 _ rfl rfl ⟨_, rfl, rfl⟩

end YominsAgent.Collector
