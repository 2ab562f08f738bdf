import Mathlib.Data.List.Basic
import Mathlib.Logic.Relation

/-!
# Schedules

Threads that take turns in a given order, each turn one step of a system. What the turns come
to can be computed, and it is a run of the system.
-/

namespace Netplay.Schedule

variable {σ θ α : Type}

/-- The state after the turns of the threads; `none` where a thread cannot go on. -/
def after (turn : σ → θ → Option σ) : σ → List θ → Option σ
  | s, [] => some s
  | s, t :: ts => (turn s t).bind fun s' => after turn s' ts

theorem after_run {turn : σ → θ → Option σ} {Step : σ → σ → Prop}
    (hstep : ∀ s t s', turn s t = some s' → Step s s') {ts : List θ} :
    ∀ {s s' : σ}, after turn s ts = some s' → Relation.ReflTransGen Step s s' := by
  induction ts with
  | nil =>
    intro s s' h
    cases h
    exact .refl
  | cons t ts ih =>
    intro s s' h
    obtain ⟨s₁, h₁, hrest⟩ := Option.bind_eq_some_iff.mp h
    exact .head (hstep s t s₁ h₁) (ih hrest)

/-- What is seen of the state after the turns is seen at the end of a run. -/
theorem exists_run {turn : σ → θ → Option σ} {Step : σ → σ → Prop}
    (hstep : ∀ s t s', turn s t = some s' → Step s s') {see : σ → α} {s : σ} {a : α} (ts : List θ)
    (h : (after turn s ts).map see = some a) :
    ∃ s', Relation.ReflTransGen Step s s' ∧ see s' = a := by
  obtain ⟨s', hs', ha⟩ := Option.map_eq_some_iff.mp h
  exact ⟨s', after_run hstep hs', ha⟩

/-- The states after the turns, one for each. -/
def states (turn : σ → θ → Option σ) : σ → List θ → Option (List σ)
  | _, [] => some []
  | s, t :: ts => (turn s t).bind fun s' => (states turn s' ts).map (List.cons s')

theorem states_isChain {turn : σ → θ → Option σ} {Step : σ → σ → Prop}
    (hstep : ∀ s t s', turn s t = some s' → Step s s') {ts : List θ} :
    ∀ {s : σ} {ss : List σ}, states turn s ts = some ss → List.IsChain Step (s :: ss) := by
  induction ts with
  | nil =>
    intro s ss h
    cases h
    exact .singleton s
  | cons t ts ih =>
    intro s ss h
    obtain ⟨s₁, h₁, hrest⟩ := Option.bind_eq_some_iff.mp h
    obtain ⟨ss, hss, rfl⟩ := Option.map_eq_some_iff.mp hrest
    exact List.isChain_cons_cons.mpr ⟨hstep s t s₁ h₁, ih hss⟩

end Netplay.Schedule
