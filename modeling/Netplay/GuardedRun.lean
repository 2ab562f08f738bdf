import Mathlib.Data.List.Basic

/-!
# Runs that avoid a kind of step

A property that a step loses exactly if the step is of a certain kind holds
throughout a run exactly if no step of the run is of that kind.
-/

namespace Netplay

namespace GuardedRun

variable {σ : Type} {Step Bad : σ → σ → Prop} {Inv Good : σ → Prop}

/-- The invariant may depend on the property, and the property on the invariant. -/
theorem forall_good_iff
    (keep : ∀ s s', Inv s → Good s → Step s s' → ¬ Bad s s' → Inv s' ∧ Good s')
    (lose : ∀ s s', Inv s → Good s → Step s s' → Bad s s' → ¬ Good s')
    (states : List σ) : ∀ s : σ, Inv s → Good s → List.IsChain Step (s :: states) →
    ((∀ t ∈ s :: states, Good t) ↔ List.IsChain (fun t t' => ¬ Bad t t') (s :: states)) := by
  induction states with
  | nil =>
    intro s _ hg _
    simpa using hg
  | cons t states ih =>
    intro s hi hg hrun
    rw [List.isChain_cons_cons] at hrun ⊢
    constructor
    · intro hall
      have ht : Good t := hall t (by simp)
      have hno : ¬ Bad s t := fun hb => lose s t hi hg hrun.1 hb ht
      have hi' := (keep s t hi hg hrun.1 hno).1
      exact ⟨hno, (ih t hi' ht hrun.2).mp fun u hu => hall u (List.mem_cons_of_mem _ hu)⟩
    · rintro ⟨hno, hrest⟩ u hu
      obtain ⟨hi', ht⟩ := keep s t hi hg hrun.1 hno
      rcases List.mem_cons.mp hu with rfl | hu
      · exact hg
      · exact (ih t hi' ht hrun.2).mpr hrest u hu

end GuardedRun

end Netplay
