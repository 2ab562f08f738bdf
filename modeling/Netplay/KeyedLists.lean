import Mathlib.Data.List.Induction
import Mathlib.Logic.Function.Basic

/-!
# Maps from keys to lists

A key is entered with an empty list when it is first used, and a list grows behind its end
only. After any calls a key holds what they have put under it, in their order; a key that none
of them has used is not in the map.
-/

namespace Netplay

namespace KeyedLists

/-- A key is used, a value is put under a key, or a key is looked up. -/
inductive Call (κ β : Type) where
  | get : (key : κ) → Call κ β
  | addEntry : (key : κ) → (val : β) → Call κ β
  | atKey : (key : κ) → Call κ β
  deriving DecidableEq, Repr

variable {κ β : Type}

namespace Call

def key : Call κ β → κ
  | .get key => key
  | .addEntry key _ => key
  | .atKey key => key

/-- The call enters its key, if it is not in the map. -/
def enters : Call κ β → Bool
  | .get _ => true
  | .addEntry _ _ => true
  | .atKey _ => false

/-- What the call puts under its key. -/
def values : Call κ β → List β
  | .get _ => []
  | .addEntry _ val => [val]
  | .atKey _ => []

theorem values_eq_nil {c : Call κ β} (h : c.enters = false) : c.values = [] := by
  cases c with
  | get key => cases h
  | addEntry key val => cases h
  | atKey key => rfl

theorem values_length_le (c : Call κ β) : c.values.length ≤ 1 := by
  cases c with
  | get key => exact Nat.zero_le 1
  | addEntry key val => exact Nat.le_refl 1
  | atKey key => exact Nat.zero_le 1

end Call

variable [DecidableEq κ]

/-- One of the calls has used the key. -/
def Entered (calls : List (Call κ β)) (key : κ) : Prop :=
  ∃ c ∈ calls, c.enters = true ∧ c.key = key

instance (calls : List (Call κ β)) (key : κ) : Decidable (Entered calls key) :=
  inferInstanceAs (Decidable (∃ c ∈ calls, c.enters = true ∧ c.key = key))

/-- What the calls have put under the key. -/
def valuesUnder (calls : List (Call κ β)) (key : κ) : List β :=
  calls.flatMap fun c => if c.key = key then c.values else []

/-- The map after a call. -/
def step (m : κ → Option (List β)) (c : Call κ β) : κ → Option (List β) :=
  if c.enters then Function.update m c.key (some ((m c.key).getD [] ++ c.values)) else m

/-- The map after calls that start without a key. -/
def run (calls : List (Call κ β)) : κ → Option (List β) := calls.foldl step fun _ => none

theorem step_look {m : κ → Option (List β)} {c : Call κ β} (h : c.enters = false) :
    step m c = m := by
  rw [step, h]
  rfl

theorem step_self {m : κ → Option (List β)} {c : Call κ β} (h : c.enters = true) :
    step m c c.key = some ((m c.key).getD [] ++ c.values) := by
  rw [step, if_pos h, Function.update_self]

theorem step_other {m : κ → Option (List β)} {c : Call κ β} {key : κ} (h : key ≠ c.key) :
    step m c key = m key := by
  rw [step]
  split
  · exact Function.update_of_ne h _ _
  · rfl

theorem run_concat (calls : List (Call κ β)) (c : Call κ β) :
    run (calls ++ [c]) = step (run calls) c := by
  rw [run, List.foldl_append]
  rfl

theorem valuesUnder_append (calls calls' : List (Call κ β)) (key : κ) :
    valuesUnder (calls ++ calls') key = valuesUnder calls key ++ valuesUnder calls' key :=
  List.flatMap_append

theorem valuesUnder_concat (calls : List (Call κ β)) (c : Call κ β) (key : κ) :
    valuesUnder (calls ++ [c]) key =
      valuesUnder calls key ++ if c.key = key then c.values else [] := by
  rw [valuesUnder_append]
  exact congrArg _ (List.flatMap_singleton _ c)

omit [DecidableEq κ] in
theorem entered_concat (calls : List (Call κ β)) (c : Call κ β) (key : κ) :
    Entered (calls ++ [c]) key ↔ Entered calls key ∨ c.enters = true ∧ c.key = key := by
  constructor
  · intro h
    obtain ⟨c', hmem, hc'⟩ := h
    cases List.mem_append.mp hmem with
    | inl hmem => exact .inl ⟨c', hmem, hc'⟩
    | inr hmem =>
      rw [List.mem_singleton.mp hmem] at hc'
      exact .inr hc'
  · intro h
    cases h with
    | inl h =>
      obtain ⟨c', hmem, hc'⟩ := h
      exact ⟨c', List.mem_append_left _ hmem, hc'⟩
    | inr h => exact ⟨c, List.mem_append_right _ (List.mem_singleton_self c), h⟩

/-- What is under a key, in one value. -/
theorem run_getD (calls : List (Call κ β)) (key : κ) :
    (run calls key).getD [] = valuesUnder calls key := by
  induction calls using List.reverseRecOn with
  | nil => rfl
  | append_singleton calls c ih =>
    rw [run_concat, valuesUnder_concat]
    cases he : c.enters with
    | false => rw [step_look he, ih, Call.values_eq_nil he, ite_self, List.append_nil]
    | true =>
      by_cases hk : c.key = key
      · subst hk
        rw [step_self he, Option.getD_some, ih, if_pos rfl]
      · rw [step_other (Ne.symm hk), ih, if_neg hk, List.append_nil]

theorem run_isSome (calls : List (Call κ β)) (key : κ) :
    (run calls key).isSome = true ↔ Entered calls key := by
  induction calls using List.reverseRecOn with
  | nil =>
    apply iff_of_false
    · intro h
      cases h
    · intro h
      obtain ⟨c, hc, -⟩ := h
      cases hc
  | append_singleton calls c ih =>
    rw [run_concat, entered_concat]
    cases he : c.enters with
    | false =>
      rw [step_look he, ih]
      simp
    | true =>
      by_cases hk : c.key = key
      · subst hk
        rw [step_self he]
        simp
      · rw [step_other (Ne.symm hk), ih]
        simp [hk]

/-- A key that was used holds what was put under it. -/
theorem run_entered {calls : List (Call κ β)} {key : κ} (h : Entered calls key) :
    run calls key = some (valuesUnder calls key) := by
  obtain ⟨vs, hvs⟩ := Option.isSome_iff_exists.mp ((run_isSome calls key).mpr h)
  rw [← run_getD, hvs]
  rfl

theorem run_not_entered {calls : List (Call κ β)} {key : κ} (h : ¬ Entered calls key) :
    run calls key = none := by
  cases hr : run calls key with
  | none => rfl
  | some vs =>
    have hsome := (run_isSome calls key).mp (by rw [hr]; rfl)
    exact absurd hsome h

end KeyedLists

end Netplay
