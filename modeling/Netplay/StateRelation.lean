import Mathlib.Data.List.Basic

/-!
# Relating two stateful computations that may fail

Two computations over different states are related when both fail with the same
error, or both return the same value in related states. Binds keep the relation.
-/

namespace Netplay.StateRelation

variable {ε α β σ τ : Type}

def Related (R : σ → τ → Prop) : Except ε (α × σ) → Except ε (α × τ) → Prop
  | .ok (a, s), .ok (b, t) => a = b ∧ R s t
  | .error e, .error f => e = f
  | _, _ => False

theorem related_ok {R : σ → τ → Prop} {s : σ} {t : τ} (a : α) (h : R s t) :
    Related (ε := ε) R (.ok (a, s)) (.ok (a, t)) := ⟨rfl, h⟩

theorem related_error {R : σ → τ → Prop} (e : ε) :
    Related (α := α) R (.error e) (.error e) := rfl

theorem related_bind {R : σ → τ → Prop} {x : Except ε (α × σ)} {y : Except ε (α × τ)}
    {f : α × σ → Except ε (β × σ)} {g : α × τ → Except ε (β × τ)} (h : Related R x y)
    (hfg : ∀ a s t, R s t → Related R (f (a, s)) (g (a, t))) :
    Related R (x >>= f) (y >>= g) := by
  match x, y, h with
  | .ok (a, s), .ok (b, t), h =>
    obtain ⟨rfl, hst⟩ := h
    exact hfg a s t hst
  | .error e, .error f, h => exact h

theorem related_ite {R : σ → τ → Prop} {p : Prop} [Decidable p] {x x' : Except ε (α × σ)}
    {y y' : Except ε (α × τ)} (h : p → Related R x y) (h' : ¬p → Related R x' y') :
    Related R (if p then x else x') (if p then y else y') := by
  by_cases hp : p
  · simpa [hp] using h hp
  · simpa [hp] using h' hp

/-- A step outside the state keeps the relation. -/
theorem related_bind_pure {R : σ → τ → Prop} {x : Except ε β} {f : β → Except ε (α × σ)}
    {g : β → Except ε (α × τ)} (h : ∀ b, Related R (f b) (g b)) :
    Related R (x >>= f) (x >>= g) := by
  match x with
  | .ok b => exact h b
  | .error e => exact related_error e

/-- Related computations agree once the states are forgotten. -/
theorem related_bind_forget {R : σ → τ → Prop} {x : Except ε (α × σ)} {y : Except ε (α × τ)}
    {f : α × σ → Except ε β} {g : α × τ → Except ε β} (h : Related R x y)
    (hfg : ∀ a s t, R s t → f (a, s) = g (a, t)) : (x >>= f) = (y >>= g) := by
  match x, y, h with
  | .ok (a, s), .ok (b, t), h =>
    obtain ⟨rfl, hst⟩ := h
    exact hfg a s t hst
  | .error e, .error f, h => exact congrArg Except.error h

end Netplay.StateRelation
