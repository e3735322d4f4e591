/- Runs of a machine given by a partial step function: `step s a` is the state after the label `a`,
   or `none` when `a` is not enabled in `s`. A safety property is an invariant of the steps
   (`run_inv`). One that holds only of runs whose every step meets a condition is an invariant of
   the machine that takes no other step (`run_guarded_inv`). Since every prefix of a run is a run, a fact
   about the last state of every run is a fact about every state reached. -/
namespace YominsAgent.Lib

variable {σ α : Type}

/-- The state after the labels of a run, or `none` when one of them is not
enabled where it stands. -/
def run (step : σ → α → Option σ) : σ → List α → Option σ
  | s, [] => some s
  | s, a :: as =>
    match step s a with
    | some s' => run step s' as
    | none => none

/-- The machine that takes only the steps `G` allows. -/
def guarded (G : σ → α → Bool) (step : σ → α → Option σ) (s : σ) (a : α) : Option σ :=
  if G s a then step s a else none

/-! ## Records that grow at the end -/

theorem mem_snoc {l : List α} {x y : α} : y ∈ l ++ [x] ↔ y ∈ l ∨ y = x := by
  rw [List.mem_append, List.mem_singleton]

theorem forall_mem_snoc {P : α → Prop} {l : List α} {x : α} :
    (∀ y ∈ l ++ [x], P y) ↔ (∀ y ∈ l, P y) ∧ P x := by
  rw [List.forall_mem_append, List.forall_mem_singleton]

/-! ## Invariants of runs -/

variable {step : σ → α → Option σ} {G : σ → α → Bool} {s s' : σ} {a : α} {I : σ → Prop}

theorem guarded_eq_some : guarded G step s a = some s' ↔ G s a = true ∧ step s a = some s' := by
  unfold guarded
  split <;> simp [*]

theorem run_cons {as : List α} :
    run step s (a :: as) = some s' ↔ ∃ m, step s a = some m ∧ run step m as = some s' := by
  simp only [run]
  cases h : step s a with
  | none => simp
  | some => simp

theorem run_append (s : σ) (as bs : List α) :
    run step s (as ++ bs) = (run step s as).bind fun m => run step m bs := by
  induction as generalizing s with
  | nil => rfl
  | cons a as ih =>
    simp only [List.cons_append, run]
    cases step s a with
    | none => rfl
    | some m => exact ih m

/-- The invariant rule: what every step preserves holds at the end of every
run. -/
theorem run_inv (hstep : ∀ s a s', I s → step s a = some s' → I s') :
    ∀ (as : List α) (s s' : σ), I s → run step s as = some s' → I s'
  | [], s, s', hI, h => by
    cases h
    exact hI
  | a :: as, s, s', hI, h => by
    obtain ⟨m, ha, hr⟩ := run_cons.mp h
    exact run_inv hstep as m s' (hstep s a m hI ha) hr

/-- The same for the machine that takes only the steps `G` allows. -/
theorem run_guarded_inv (hstep : ∀ s a s', I s → G s a = true → step s a = some s' → I s')
    (as : List α) (s s' : σ) (hI : I s) (h : run (guarded G step) s as = some s') : I s' := by
  refine run_inv (fun s a s' hI h => ?_) as s s' hI h
  obtain ⟨hG, h⟩ := guarded_eq_some.mp h
  exact hstep s a s' hI hG h

/-- The invariant rule for a run all of whose labels meet `P`. -/
theorem run_inv_of_labels {P : α → Prop} (hstep : ∀ s a s', P a → I s → step s a = some s' → I s') :
    ∀ (as : List α) (s s' : σ), (∀ a ∈ as, P a) → I s → run step s as = some s' → I s'
  | [], s, s', _, hI, h => by
    cases h
    exact hI
  | a :: as, s, s', hP, hI, h => by
    obtain ⟨m, ha, hr⟩ := run_cons.mp h
    exact run_inv_of_labels hstep as m s' (fun b hb => hP b (List.mem_cons_of_mem a hb))
      (hstep s a m (hP a List.mem_cons_self) hI ha) hr

/-- Where no step is refused while `I` holds, no run is. -/
theorem run_total (hstep : ∀ s a, I s → ∃ s', step s a = some s' ∧ I s') :
    ∀ (as : List α) (s : σ), I s → ∃ s', run step s as = some s' ∧ I s'
  | [], s, hI => ⟨s, rfl, hI⟩
  | a :: as, s, hI => by
    obtain ⟨m, ha, hm⟩ := hstep s a hI
    obtain ⟨s', hr, hs'⟩ := run_total hstep as m hm
    exact ⟨s', run_cons.mpr ⟨m, ha, hr⟩, hs'⟩

/-- In the states `N` the labels `W` are refused and others change nothing; elsewhere no
label is refused or leads into `N`. -/
structure RefusedIn (N : σ → Prop) (W : α → Prop) (step : σ → α → Option σ) : Prop where
  total : ∀ {s} a, ¬ N s → ∃ s', step s a = some s' ∧ ¬ N s'
  refused : ∀ {s a}, N s → W a → step s a = none
  same : ∀ {s a}, N s → ¬ W a → step s a = some s

namespace RefusedIn
variable {N : σ → Prop} {W : α → Prop}

theorem isSome_iff (h : RefusedIn N W step) : (step s a).isSome = true ↔ ¬ (N s ∧ W a) := by
  by_cases hN : N s
  · by_cases hW : W a
    · simp [h.refused hN hW, hN, hW]
    · simp [h.same hN hW, hW]
  · obtain ⟨s', hs', -⟩ := h.total a hN
    simp [hs', hN]

/-- A run is refused when one of its labels is. -/
theorem run (h : RefusedIn N W step) : RefusedIn N (fun as => ∃ a ∈ as, W a) (run step) where
  total as hN := run_total (I := fun s => ¬ N s) (fun _ a => h.total a) as _ hN
  refused {s as} hN hW := by
    induction as with
    | nil => simp at hW
    | cons a as ih =>
      by_cases ha : W a
      · simp only [Lib.run, h.refused hN ha]
      · simp only [Lib.run, h.same hN ha]
        exact ih (by simpa [ha] using hW)
  same {s as} hN hW := by
    induction as with
    | nil => rfl
    | cons a as ih =>
      simp only [Lib.run, h.same hN fun ha => hW ⟨a, List.mem_cons_self, ha⟩]
      exact ih fun ⟨b, hb, hWb⟩ => hW ⟨b, List.mem_cons_of_mem a hb, hWb⟩

end RefusedIn

/-- A condition that is exact at every step is exact of runs: where it lets only
steps through that keep `P`, and every step that keeps `P` meets it, `P` holds in
every state of a run exactly when all steps of the run meet the condition. -/
theorem run_guarded_iff {P : σ → Prop} (hI : ∀ s a s', I s → step s a = some s' → I s')
    (hkeep : ∀ s a s', I s → P s → guarded G step s a = some s' → P s')
    (hmeet : ∀ s a s', I s → step s a = some s' → P s' → G s a = true) :
    ∀ (as : List α) (s s' : σ), I s → P s → run step s as = some s' →
      ((∀ as1 as2 m, as = as1 ++ as2 → run step s as1 = some m → P m) ↔
        run (guarded G step) s as = some s')
  | [], s, s', _, hP, h => by
    cases h
    refine ⟨fun _ => rfl, ?_⟩
    intro _ as1 as2 m has hm
    obtain ⟨rfl, rfl⟩ := List.append_eq_nil_iff.mp has.symm
    cases hm
    exact hP
  | a :: as, s, s', hs, hP, h => by
    obtain ⟨m, ha, hr⟩ := run_cons.mp h
    have hrest := fun hPm => run_guarded_iff hI hkeep hmeet as m s' (hI s a m hs ha) hPm hr
    constructor
    · intro hall
      have hPm : P m := hall [a] as m rfl (run_cons.mpr ⟨m, ha, rfl⟩)
      refine run_cons.mpr ⟨m, guarded_eq_some.mpr ⟨hmeet s a m hs ha hPm, ha⟩, ?_⟩
      refine (hrest hPm).mp ?_
      intro as1 as2 n has hn
      exact hall (a :: as1) as2 n (congrArg (a :: ·) has) (run_cons.mpr ⟨m, ha, hn⟩)
    · intro hg
      obtain ⟨m', hgm, hgr⟩ := run_cons.mp hg
      obtain rfl : m = m' := Option.some.inj (ha.symm.trans (guarded_eq_some.mp hgm).2)
      have hPm : P m := hkeep s a m hs hP hgm
      intro as1 as2 n has hn
      cases as1 with
      | nil =>
        cases hn
        exact hP
      | cons b as1 =>
        obtain ⟨rfl, htail⟩ := List.cons.inj has
        obtain ⟨m'', hm'', hn⟩ := run_cons.mp hn
        obtain rfl : m = m'' := Option.some.inj (ha.symm.trans hm'')
        exact (hrest hPm).mpr hgr as1 as2 n htail hn

end YominsAgent.Lib
