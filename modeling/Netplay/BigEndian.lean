import Mathlib.Algebra.Order.Ring.Nat
import Mathlib.Data.List.Basic

/-!
# Big-endian numbers

The number whose bytes are those of a list, the most significant byte first. On lists of
one length it orders the lists as the lexicographic order does.
-/

namespace BigEndian

/-- The number with the given bytes, the most significant one first. -/
def value : List UInt8 → Nat
  | [] => 0
  | b :: bs => b.toNat * 256 ^ bs.length + value bs

theorem value_lt (bs : List UInt8) : value bs < 256 ^ bs.length := by
  induction bs with
  | nil => exact Nat.one_pos
  | cons b bs ih =>
    have hb : b.toNat + 1 ≤ 256 := b.toNat_lt
    calc b.toNat * 256 ^ bs.length + value bs
        < b.toNat * 256 ^ bs.length + 256 ^ bs.length := Nat.add_lt_add_left ih _
      _ = (b.toNat + 1) * 256 ^ bs.length := (Nat.succ_mul _ _).symm
      _ ≤ 256 * 256 ^ bs.length := Nat.mul_le_mul_right _ hb
      _ = 256 ^ (b :: bs).length := (Nat.pow_succ').symm

theorem value_append_one (bs : List UInt8) (b : UInt8) :
    value (bs ++ [b]) = 256 * value bs + b.toNat := by
  induction bs with
  | nil => simp [value]
  | cons c bs ih =>
    have hlen : (bs ++ [b]).length = bs.length + 1 := by simp
    rw [List.cons_append, value, value, ih, hlen, Nat.pow_succ', Nat.mul_add, Nat.mul_left_comm,
      Nat.add_assoc]

/-- The quotient decides, and then the remainder. -/
theorem mul_add_lt_iff {x y r s n : Nat} (hr : r < n) (hs : s < n) :
    x * n + r < y * n + s ↔ x < y ∨ x = y ∧ r < s := by
  rcases Nat.lt_trichotomy x y with h | h | h
  · have hle : (x + 1) * n ≤ y * n := Nat.mul_le_mul_right n h
    rw [Nat.succ_mul] at hle
    exact iff_of_true (by omega) (.inl h)
  · subst h
    simp
  · have hle : (y + 1) * n ≤ x * n := Nat.mul_le_mul_right n h
    rw [Nat.succ_mul] at hle
    exact iff_of_false (by omega) (by omega)

/-- The lexicographic order of byte strings of one length is that of their numbers. -/
theorem value_lt_iff (bs : List UInt8) : ∀ {cs : List UInt8}, bs.length = cs.length →
    (value bs < value cs ↔ bs < cs) := by
  induction bs with
  | nil =>
    intro cs h
    obtain rfl := List.length_eq_zero_iff.mp h.symm
    simp [value]
  | cons b bs ih =>
    intro cs h
    cases cs with
    | nil => cases h
    | cons c cs =>
      have hlen : bs.length = cs.length := Nat.succ.inj h
      have hlt := value_lt cs
      rw [← hlen] at hlt
      rw [value, value, ← hlen, mul_add_lt_iff (value_lt bs) hlt, ih hlen, List.cons_lt_cons_iff,
        UInt8.lt_iff_toNat_lt, UInt8.toNat_inj]

theorem value_injective {bs cs : List UInt8} (hlen : bs.length = cs.length)
    (h : value bs = value cs) : bs = cs := by
  have h1 := mt (value_lt_iff bs hlen).mpr (Nat.not_lt.mpr h.ge)
  have h2 := mt (value_lt_iff cs hlen.symm).mpr (Nat.not_lt.mpr h.le)
  exact List.le_antisymm (List.not_lt.mp h2) (List.not_lt.mp h1)

end BigEndian
