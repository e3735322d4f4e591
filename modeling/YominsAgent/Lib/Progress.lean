import Mathlib.Order.WellFounded
import YominsAgent.Lib.Run

/- Progress of a machine by some of its labels alone.

   `Own own step` is one step with a label that `own` allows. A goal is in reach of
   such steps if a variant falls on the way to it (`reaches_of_variant`), and what
   these steps preserve holds on the way (`own_inv`). -/
namespace YominsAgent.Lib
open Relation

variable {σ α β : Type} {own : α → Bool} {step : σ → α → Option σ}

/-- One step with a label that `own` allows. -/
def Own (own : α → Bool) (step : σ → α → Option σ) (s s' : σ) : Prop :=
  ∃ a, own a = true ∧ step s a = some s'

theorem own_inv {I : σ → Prop} (hstep : ∀ s s', I s → Own own step s s' → I s') {s s' : σ}
    (h : ReflTransGen (Own own step) s s') (hs : I s) : I s' := by
  induction h with
  | refl => exact hs
  | tail _ hlast ih => exact hstep _ _ ih hlast

theorem run_of_own {s s' : σ} (h : ReflTransGen (Own own step) s s') :
    ∃ as : List α, (∀ a ∈ as, own a = true) ∧ run step s as = some s' := by
  induction h using ReflTransGen.head_induction_on with
  | refl => exact ⟨[], (fun a ha => nomatch ha), rfl⟩
  | head hfirst _ ih =>
    obtain ⟨a, ha, hstep⟩ := hfirst
    obtain ⟨as, has, hrun⟩ := ih
    refine ⟨a :: as, ?_, run_cons.mpr ⟨_, hstep, hrun⟩⟩
    intro x hx
    rcases List.mem_cons.mp hx with rfl | hx
    · exact ha
    · exact has x hx

/-- The variant rule: from every state of `Q` that is not yet in `P` one gets to a
state of `P`, or to one of `Q` with a smaller variant. -/
theorem reaches_of_variant [LT β] [WellFoundedLT β] {r : σ → σ → Prop} {P Q : σ → Prop}
    (μ : σ → β)
    (h : ∀ s, Q s → P s ∨ ∃ s', ReflTransGen r s s' ∧ (P s' ∨ Q s' ∧ μ s' < μ s)) {s : σ}
    (hs : Q s) : ∃ s', ReflTransGen r s s' ∧ P s' := by
  induction s using (InvImage.wf μ (wellFounded_lt (α := β))).induction with
  | _ s ih =>
    rcases h s hs with hP | ⟨s', hr, hP | ⟨hQ, hlt⟩⟩
    · exact ⟨s, .refl, hP⟩
    · exact ⟨s', hr, hP⟩
    · obtain ⟨s'', hr', hP⟩ := ih s' hlt hQ
      exact ⟨s'', hr.trans hr', hP⟩

end YominsAgent.Lib
