import Mathlib.Logic.Function.Basic
import Netplay.Packet

/-!
# Tiered indexes

`__index_depth1` to `__index_depth4` for a value type with a default value, as one
definition over the list of the level sizes: an indexlet holds, for each of its
cells, nothing or the index below. A cell is selected by the quotient of the key
by the number of keys below, as a `uint32_t`.
-/

namespace Netplay

/-- The number of keys of the levels. -/
def span : List Nat → Nat
  | [] => 1
  | s :: ss => s * span ss

/-- An index with levels of the given sizes; without a level, the value itself. -/
def Tier (V : Type) : List Nat → Type
  | [] => V
  | _ :: ss => Nat → Option (Tier V ss)

namespace Tier

variable {V : Type}

/-- The cell of an indexlet over levels `ss` for a key. -/
def cell (ss : List Nat) (key : Nat) : Nat := key / span ss % 2 ^ 32

/-- The cells on the way to the key are cells of the indexlets. -/
def inBounds : (ss : List Nat) → (key : Nat) → Bool
  | [], _ => true
  | s :: ss, key => decide (cell ss key < s) && inBounds ss (key % span ss)

/-- `at`; `none` for a null pointer on the way. -/
def atKey : (ss : List Nat) → Tier V ss → (key : Nat) → Option V
  | [], v, _ => some v
  | _ :: ss, t, key => (t (cell ss key)).bind fun ilet => atKey ss ilet (key % span ss)

variable [Inhabited V]

/-- A new index; `new T()` for the value type. -/
def fresh : (ss : List Nat) → Tier V ss
  | [] => (default : V)
  | _ :: _ => fun _ => none

/-- `get`, which creates what is missing on the way, and a change of the value. -/
def modify (f : V → V) : (ss : List Nat) → Tier V ss → (key : Nat) → Tier V ss
  | [], v, _ => f v
  | _ :: ss, t, key =>
    Function.update t (cell ss key)
      (some (modify f ss ((t (cell ss key)).getD (fresh ss)) (key % span ss)))

/-- Every level has at most as many cells as a `uint32_t` can select. -/
def Selectable (ss : List Nat) : Prop := ∀ s ∈ ss, s ≤ 2 ^ 32

theorem Selectable.tail {s : Nat} {ss : List Nat} (h : Selectable (s :: ss)) : Selectable ss :=
  fun x hx => h x (List.mem_cons_of_mem _ hx)

/-- The quotient of a key that is below the number of keys is not cut. -/
theorem cell_eq {s : Nat} {ss : List Nat} (h : Selectable (s :: ss)) {key : Nat}
    (hk : key < span (s :: ss)) : cell ss key = key / span ss ∧ key / span ss < s := by
  have hlt : key / span ss < s := Nat.div_lt_of_lt_mul (by rwa [Nat.mul_comm])
  have hs := h s List.mem_cons_self
  exact ⟨Nat.mod_eq_of_lt (Nat.lt_of_lt_of_le hlt hs), hlt⟩

theorem rest_lt {s : Nat} {ss : List Nat} {key : Nat} (hk : key < span (s :: ss)) :
    key % span ss < span ss := by
  refine Nat.mod_lt _ (Nat.pos_of_ne_zero fun h0 => ?_)
  simp [span, h0] at hk

theorem inBounds_of_lt {ss : List Nat} : ∀ {key : Nat}, key < span ss → inBounds ss key = true := by
  induction ss with
  | nil => exact fun _ => rfl
  | cons s ss ih =>
    intro key hk
    have hlt : key / span ss < s := Nat.div_lt_of_lt_mul (by rwa [Nat.mul_comm])
    have hcell : cell ss key < s := Nat.lt_of_le_of_lt (Nat.mod_le _ _) hlt
    simp only [inBounds, hcell, decide_true, Bool.true_and]
    exact ih (rest_lt hk)

/-- Whether the cells are in their arrays is decided on the first level. -/
theorem inBounds_cons {s : Nat} {ss : List Nat} (h : 0 < span ss) (key : Nat) :
    inBounds (s :: ss) key = decide (cell ss key < s) := by
  rw [inBounds, inBounds_of_lt (Nat.mod_lt _ h), Bool.and_true]

/-- A key is its cell and what remains for the levels below. -/
theorem key_eq_of_cell_eq {s : Nat} {ss : List Nat} (h : Selectable (s :: ss)) {key key' : Nat}
    (hk : key < span (s :: ss)) (hk' : key' < span (s :: ss)) (hc : cell ss key = cell ss key')
    (hr : key % span ss = key' % span ss) : key = key' := by
  rw [(cell_eq h hk).1, (cell_eq h hk').1] at hc
  rw [← Nat.div_add_mod key (span ss), ← Nat.div_add_mod key' (span ss), hc, hr]

/-- Nothing is found in a new index. -/
theorem atKey_fresh_getD (ss : List Nat) (key : Nat) :
    (atKey ss (fresh ss : Tier V ss) key).getD default = default := by
  cases ss <;> rfl

theorem atKey_modify_self (f : V → V) (ss : List Nat) : ∀ (t : Tier V ss) (key : Nat),
    atKey ss (modify f ss t key) key = some (f ((atKey ss t key).getD default)) := by
  induction ss with
  | nil => exact fun _ _ => rfl
  | cons s ss ih =>
    intro t key
    have hcell : modify f (s :: ss) t key (cell ss key) =
        some (modify f ss ((t (cell ss key)).getD (fresh ss)) (key % span ss)) :=
      Function.update_self _ _ _
    rw [atKey, hcell, Option.bind_some, ih, atKey]
    cases t (cell ss key) with
    | none => exact congrArg (fun v => some (f v)) (atKey_fresh_getD ss _)
    | some ilet => rfl

/-- `get` of a key leaves the values of the other keys alone. -/
theorem atKey_modify_other (f : V → V) {ss : List Nat} (h : Selectable ss) :
    ∀ (t : Tier V ss) {key key' : Nat}, key < span ss → key' < span ss → key' ≠ key →
      atKey ss (modify f ss t key) key' = atKey ss t key' := by
  induction ss with
  | nil =>
    intro t key key' hk hk' hne
    exact absurd (by simp only [span] at hk hk'; omega) hne
  | cons s ss ih =>
    intro t key key' hk hk' hne
    by_cases hc : cell ss key' = cell ss key
    · have hrest : key' % span ss ≠ key % span ss := fun hr =>
        hne (key_eq_of_cell_eq h hk' hk hc hr)
      have hcell : modify f (s :: ss) t key (cell ss key') =
          some (modify f ss ((t (cell ss key)).getD (fresh ss)) (key % span ss)) := by
        rw [hc]
        exact Function.update_self _ _ _
      rw [atKey, hcell, Option.bind_some, ih h.tail _ (rest_lt hk) (rest_lt hk') hrest, atKey, hc]
      cases t (cell ss key) with
      | none =>
        cases ss with
        | nil => exact absurd (by simp only [span] at hrest ⊢; omega) hrest
        | cons s' ss' => rfl
      | some ilet => rfl
    · have hcell : modify f (s :: ss) t key (cell ss key') = t (cell ss key') :=
        Function.update_of_ne hc _ _
      rw [atKey, hcell, atKey]

/-- `get` and a change of the value: under every key what is found is as before, or changed. -/
theorem atKey_modify_cases (f : V → V) (ss : List Nat) : ∀ (t : Tier V ss) (key key' : Nat),
    atKey ss (modify f ss t key) key' = atKey ss t key' ∨
      atKey ss (modify f ss t key) key' = some (f ((atKey ss t key').getD default)) := by
  induction ss with
  | nil => exact fun t _ _ => .inr rfl
  | cons s ss ih =>
    intro t key key'
    by_cases hc : cell ss key' = cell ss key
    · have hcell : modify f (s :: ss) t key (cell ss key') =
          some (modify f ss ((t (cell ss key)).getD (fresh ss)) (key % span ss)) := by
        rw [hc]
        exact Function.update_self _ _ _
      rw [atKey, hcell, Option.bind_some, atKey, hc]
      cases ht : t (cell ss key) with
      | some ilet => exact ih ilet _ _
      | none =>
        rcases ih (fresh ss) (key % span ss) (key' % span ss) with h | h
        · cases ss with
          | nil => exact .inr rfl
          | cons s' ss' => exact .inl h
        · rw [atKey_fresh_getD] at h
          exact .inr h
    · have hcell : modify f (s :: ss) t key (cell ss key') = t (cell ss key') :=
        Function.update_of_ne hc _ _
      exact .inl (by rw [atKey, hcell, atKey])

end Tier

end Netplay
