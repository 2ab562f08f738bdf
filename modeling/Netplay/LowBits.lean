import Mathlib.Algebra.Order.Ring.Nat
import Mathlib.Data.Nat.Bitwise

/-!
# Clearing and setting low bits

A number with its low bits cleared, the same with its low bits set, and the numbers
between, which are those with the same high bits.
-/

namespace LowBits

/-- Two numbers of `w` bits with the same `p` most significant bits. -/
def SameHigh (w p x y : Nat) : Prop := ∀ i, w - p ≤ i → i < w → x.testBit i = y.testBit i

theorem sameHigh_iff {w p x y : Nat} (hx : x < 2 ^ w) (hy : y < 2 ^ w) :
    SameHigh w p x y ↔ x / 2 ^ (w - p) = y / 2 ^ (w - p) := by
  have hout : ∀ {z i : Nat}, z < 2 ^ w → w ≤ i → z.testBit i = false := fun hz hi =>
    Nat.testBit_eq_false_of_lt (Nat.lt_of_lt_of_le hz (Nat.pow_le_pow_right (by decide) hi))
  constructor
  · intro h
    refine Nat.eq_of_testBit_eq fun i => ?_
    rw [Nat.testBit_div_two_pow, Nat.testBit_div_two_pow]
    by_cases hi : i + (w - p) < w
    · exact h _ (Nat.le_add_left _ _) hi
    · rw [hout hx (not_lt.mp hi), hout hy (not_lt.mp hi)]
  · intro h i hi _
    have := congrArg (fun z => z.testBit (i - (w - p))) h
    rwa [Nat.testBit_div_two_pow, Nat.testBit_div_two_pow, Nat.sub_add_cancel hi] at this

/-- The number with its low `k` bits cleared. -/
theorem and_high {w k x : Nat} (hx : x < 2 ^ w) (hk : k ≤ w) :
    x &&& (2 ^ w - 2 ^ k) = x / 2 ^ k * 2 ^ k := by
  refine Nat.eq_of_testBit_eq fun i => ?_
  have hmask : 2 ^ w - 2 ^ k = (2 ^ (w - k) - 1) * 2 ^ k := by
    rw [Nat.sub_mul, ← Nat.pow_add, Nat.sub_add_cancel hk, Nat.one_mul]
  rw [hmask, Nat.testBit_and, Nat.testBit_mul_two_pow, Nat.testBit_mul_two_pow,
    Nat.testBit_two_pow_sub_one, Nat.testBit_div_two_pow]
  by_cases hi : k ≤ i
  · rw [Nat.sub_add_cancel hi]
    by_cases hw : i < w
    · simp [hi, show i - k < w - k by omega]
    · rw [Nat.testBit_eq_false_of_lt (Nat.lt_of_lt_of_le hx (Nat.pow_le_pow_right (by decide)
        (not_lt.mp hw)))]
      simp
  · simp [hi]

/-- The number with its low `k` bits set. -/
theorem or_low (x k : Nat) : x ||| (2 ^ k - 1) = x / 2 ^ k * 2 ^ k + (2 ^ k - 1) := by
  have hlt : 2 ^ k - 1 < 2 ^ k := Nat.sub_lt (Nat.two_pow_pos k) Nat.one_pos
  have hadd : (x / 2 ^ k) <<< k + (2 ^ k - 1) = (x / 2 ^ k) <<< k ||| (2 ^ k - 1) :=
    Nat.shiftLeft_add_eq_or_of_lt hlt _
  rw [← Nat.shiftLeft_eq, hadd]
  refine Nat.eq_of_testBit_eq fun i => ?_
  rw [Nat.testBit_or, Nat.testBit_or, Nat.testBit_shiftLeft, Nat.testBit_two_pow_sub_one,
    Nat.testBit_div_two_pow]
  by_cases hi : k ≤ i
  · simp [hi]
  · simp [not_le.mp hi]

/-- The numbers with the same high bits as `y`. -/
theorem between_iff (k x y : Nat) :
    y / 2 ^ k * 2 ^ k ≤ x ∧ x ≤ y / 2 ^ k * 2 ^ k + (2 ^ k - 1) ↔ x / 2 ^ k = y / 2 ^ k := by
  have hpos : 0 < 2 ^ k := Nat.two_pow_pos k
  rw [Nat.div_eq_iff hpos]
  omega

/-- Setting `j` or `k` low bits makes no difference where the bits between are set. -/
theorem or_low_eq_iff {j k : Nat} (x : Nat) :
    x ||| (2 ^ j - 1) = x ||| (2 ^ k - 1) ↔ ∀ i, min j k ≤ i → i < max j k → x.testBit i = true := by
  constructor
  · intro h i hmin hmax
    have hbit := congrArg (fun z => z.testBit i) h
    simp only [Nat.testBit_or, Nat.testBit_two_pow_sub_one] at hbit
    cases hx : x.testBit i with
    | true => rfl
    | false =>
      simp only [hx, Bool.false_or, decide_eq_decide] at hbit
      omega
  · intro h
    refine Nat.eq_of_testBit_eq fun i => ?_
    simp only [Nat.testBit_or, Nat.testBit_two_pow_sub_one]
    by_cases hi : min j k ≤ i ∧ i < max j k
    · rw [h i hi.1 hi.2, Bool.true_or, Bool.true_or]
    · have : (i < j) ↔ (i < k) := by omega
      simp only [this]

end LowBits
