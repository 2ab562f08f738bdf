import Netplay.BigEndian
import Netplay.Packet

/-!
# Tokens out of byte strings

`cast_utils` reads the first bytes of a buffer as a number. The shifts are those of the
source; no shifted byte leaves the 64 bits.
-/

namespace Netplay.CastUtils

open Packet

def asUint64_1 (buf : Memory) : Nat := (buf 0).toNat

def asUint64_2 (buf : Memory) : Nat := (buf 0).toNat <<< 8 ||| (buf 1).toNat

def asUint64_3 (buf : Memory) : Nat :=
  (buf 0).toNat <<< 16 ||| (buf 1).toNat <<< 8 ||| (buf 2).toNat

def asUint64_4 (buf : Memory) : Nat :=
  (buf 0).toNat <<< 24 ||| (buf 1).toNat <<< 16 ||| (buf 2).toNat <<< 8 ||| (buf 3).toNat

def asUint64_5 (buf : Memory) : Nat :=
  (buf 0).toNat <<< 32 ||| (buf 1).toNat <<< 24 ||| (buf 2).toNat <<< 16 ||| (buf 3).toNat <<< 8
    ||| (buf 4).toNat

def asUint64_6 (buf : Memory) : Nat :=
  (buf 0).toNat <<< 40 ||| (buf 1).toNat <<< 32 ||| (buf 2).toNat <<< 24 ||| (buf 3).toNat <<< 16
    ||| (buf 4).toNat <<< 8 ||| (buf 5).toNat

def asUint64_7 (buf : Memory) : Nat :=
  (buf 0).toNat <<< 48 ||| (buf 1).toNat <<< 40 ||| (buf 2).toNat <<< 32 ||| (buf 3).toNat <<< 24
    ||| (buf 4).toNat <<< 16 ||| (buf 5).toNat <<< 8 ||| (buf 6).toNat

/-- The first byte is shifted by 54 bits. -/
def asUint64_8 (buf : Memory) : Nat :=
  (buf 0).toNat <<< 54 ||| (buf 1).toNat <<< 48 ||| (buf 2).toNat <<< 40 ||| (buf 3).toNat <<< 32
    ||| (buf 4).toNat <<< 24 ||| (buf 5).toNat <<< 16 ||| (buf 6).toNat <<< 8 ||| (buf 7).toNat

def asUint64 (buf : Memory) : (len : Nat) → Nat
  | 1 => asUint64_1 buf
  | 2 => asUint64_2 buf
  | 3 => asUint64_3 buf
  | 4 => asUint64_4 buf
  | 5 => asUint64_5 buf
  | 6 => asUint64_6 buf
  | 7 => asUint64_7 buf
  | 8 => asUint64_8 buf
  | _ => 0

/-- `buf[0]` to `buf[n - 1]`. -/
def bytes (buf : Memory) (n : Nat) : List UInt8 := (List.range n).map buf

@[simp] theorem bytes_length (buf : Memory) (n : Nat) : (bytes buf n).length = n := by
  simp [bytes]

theorem bytes_succ (buf : Memory) (n : Nat) : bytes buf (n + 1) = bytes buf n ++ [buf n] := by
  simp [bytes, List.range_succ]

theorem bytes_cons (buf : Memory) (n : Nat) :
    bytes buf (n + 1) = buf 0 :: bytes (fun i => buf (i + 1)) n := by
  simp [bytes, List.range_succ_eq_map]

/-! ## Up to seven bytes -/

/-- One byte more behind the others. -/
theorem shiftLeft_or_byte (x : Nat) (b : UInt8) : x <<< 8 ||| b.toNat = 256 * x + b.toNat := by
  have hb : b.toNat < 2 ^ 8 := b.toNat_lt
  rw [← Nat.shiftLeft_add_eq_or_of_lt hb, Nat.shiftLeft_eq, Nat.mul_comm]

/-- The number so far is the big-endian one, so it is with a byte more. -/
theorem value_step {buf : Memory} {n x y : Nat} (hx : x = BigEndian.value (bytes buf n))
    (hy : y = x <<< 8 ||| (buf n).toNat) : y = BigEndian.value (bytes buf (n + 1)) := by
  rw [hy, bytes_succ, BigEndian.value_append_one, ← hx, shiftLeft_or_byte]

theorem asUint64_1_eq (buf : Memory) : asUint64_1 buf = BigEndian.value (bytes buf 1) :=
  value_step (x := 0) rfl (by simp [asUint64_1])

theorem asUint64_2_eq (buf : Memory) : asUint64_2 buf = BigEndian.value (bytes buf 2) :=
  value_step (asUint64_1_eq buf) rfl

theorem asUint64_3_eq (buf : Memory) : asUint64_3 buf = BigEndian.value (bytes buf 3) :=
  value_step (asUint64_2_eq buf)
    (by simp only [asUint64_2, asUint64_3, Nat.shiftLeft_or_distrib, ← Nat.shiftLeft_add])

theorem asUint64_4_eq (buf : Memory) : asUint64_4 buf = BigEndian.value (bytes buf 4) :=
  value_step (asUint64_3_eq buf)
    (by simp only [asUint64_3, asUint64_4, Nat.shiftLeft_or_distrib, ← Nat.shiftLeft_add])

theorem asUint64_5_eq (buf : Memory) : asUint64_5 buf = BigEndian.value (bytes buf 5) :=
  value_step (asUint64_4_eq buf)
    (by simp only [asUint64_4, asUint64_5, Nat.shiftLeft_or_distrib, ← Nat.shiftLeft_add])

theorem asUint64_6_eq (buf : Memory) : asUint64_6 buf = BigEndian.value (bytes buf 6) :=
  value_step (asUint64_5_eq buf)
    (by simp only [asUint64_5, asUint64_6, Nat.shiftLeft_or_distrib, ← Nat.shiftLeft_add])

theorem asUint64_7_eq (buf : Memory) : asUint64_7 buf = BigEndian.value (bytes buf 7) :=
  value_step (asUint64_6_eq buf)
    (by simp only [asUint64_6, asUint64_7, Nat.shiftLeft_or_distrib, ← Nat.shiftLeft_add])

/-- The lengths but the last one decode as they should. -/
theorem asUint64_eq {n : Nat} (h1 : 1 ≤ n) (h8 : n < 8) (buf : Memory) :
    asUint64 buf n = BigEndian.value (bytes buf n) := by
  have hcases : n = 1 ∨ n = 2 ∨ n = 3 ∨ n = 4 ∨ n = 5 ∨ n = 6 ∨ n = 7 := by omega
  rcases hcases with rfl | rfl | rfl | rfl | rfl | rfl | rfl
  · exact asUint64_1_eq buf
  · exact asUint64_2_eq buf
  · exact asUint64_3_eq buf
  · exact asUint64_4_eq buf
  · exact asUint64_5_eq buf
  · exact asUint64_6_eq buf
  · exact asUint64_7_eq buf

/-! ## Eight bytes -/

/-- The last seven bytes are read as they should be, the first one over their high bits. -/
theorem asUint64_8_eq (buf : Memory) : asUint64_8 buf =
    (buf 0).toNat <<< 54 ||| BigEndian.value (bytes (fun i => buf (i + 1)) 7) := by
  rw [← asUint64_7_eq]
  simp only [asUint64_7, asUint64_8, Nat.or_assoc]

/-- A number other than zero stands lower under 54 bits, whatever stands there, than by 56. -/
theorem shiftLeft_or_lt {b r : Nat} (hb : b ≠ 0) (hr : r < 2 ^ 56) : b <<< 54 ||| r < b * 2 ^ 56 := by
  have hlow : 2 ^ b.log2 * 2 ^ 56 ≤ b * 2 ^ 56 := Nat.mul_le_mul_right _ (Nat.log2_self_le hb)
  rw [← Nat.pow_add] at hlow
  have hshift : b <<< 54 < 2 ^ (b.log2 + 56) := by
    have hlt : b * 2 ^ 54 < 2 ^ (b.log2 + 1) * 2 ^ 54 :=
      Nat.mul_lt_mul_of_pos_right Nat.lt_log2_self (by decide)
    rw [← Nat.pow_add] at hlt
    rw [Nat.shiftLeft_eq]
    exact Nat.lt_of_lt_of_le hlt (Nat.pow_le_pow_right (by decide) (by omega))
  have hrest : r < 2 ^ (b.log2 + 56) :=
    Nat.lt_of_lt_of_le hr (Nat.pow_le_pow_right (by decide) (Nat.le_add_left _ _))
  exact Nat.lt_of_lt_of_le (Nat.or_lt_two_pow hshift hrest) hlow

/-- A first byte that is not zero is read too low. -/
theorem asUint64_8_iff (buf : Memory) :
    asUint64_8 buf = BigEndian.value (bytes buf 8) ↔ buf 0 = 0 := by
  have hvalue : BigEndian.value (bytes buf 8) =
      (buf 0).toNat * 2 ^ 56 + BigEndian.value (bytes (fun i => buf (i + 1)) 7) := by
    rw [bytes_cons, BigEndian.value, bytes_length]
    rfl
  have hrest := BigEndian.value_lt (bytes (fun i => buf (i + 1)) 7)
  rw [bytes_length] at hrest
  rw [asUint64_8_eq, hvalue]
  constructor
  · intro h
    by_contra hne
    have hb : (buf 0).toNat ≠ 0 := fun h0 => hne (UInt8.toNat_inj.mp h0)
    have hlt := shiftLeft_or_lt hb hrest
    omega
  · intro h
    simp [h]

/-- Big-endian, in the order of the byte strings, and one number for one string. -/
structure DecodesInOrder (n : Nat) : Prop where
  value : ∀ buf, asUint64 buf n = BigEndian.value (bytes buf n)
  order : ∀ a b, bytes a n < bytes b n ↔ asUint64 a n < asUint64 b n
  distinct : ∀ a b, bytes a n ≠ bytes b n → asUint64 a n ≠ asUint64 b n

theorem decodesInOrder_of_value {n : Nat}
    (h : ∀ buf, asUint64 buf n = BigEndian.value (bytes buf n)) : DecodesInOrder n where
  value := h
  order a b := by rw [h, h, BigEndian.value_lt_iff _ (by simp)]
  distinct a b hne heq := by
    rw [h, h] at heq
    exact hne (BigEndian.value_injective (by simp) heq)

/-- A buffer with a first and a second byte. -/
def twoBytes (b c : UInt8) : Memory := fun i => if i = 0 then b else if i = 1 then c else 0

/-- The lowest bit of the first byte and the second highest of the second are one bit. -/
theorem eight_collide : asUint64 (twoBytes 0 64) 8 = asUint64 (twoBytes 1 0) 8 ∧
    bytes (twoBytes 0 64) 8 < bytes (twoBytes 1 0) 8 := by decide

/-- Byte strings of every length but eight decode in order; of eight bytes those that start
with a zero byte decode to their number, and neither the order nor distinctness is kept. -/
theorem decodes_iff {n : Nat} (h : 1 ≤ n ∧ n ≤ 8) :
    (DecodesInOrder n ↔ n ≠ 8) ∧
      (∀ buf, asUint64 buf n = BigEndian.value (bytes buf n) ↔ n ≠ 8 ∨ buf 0 = 0) ∧
      ((∀ a b, bytes a n < bytes b n ↔ asUint64 a n < asUint64 b n) ↔ n ≠ 8) ∧
      ((∀ a b, bytes a n ≠ bytes b n → asUint64 a n ≠ asUint64 b n) ↔ n ≠ 8) := by
  by_cases h8 : n = 8
  · subst h8
    obtain ⟨heq, hlt⟩ := eight_collide
    have horder : ¬ ∀ a b, bytes a 8 < bytes b 8 ↔ asUint64 a 8 < asUint64 b 8 := fun hall =>
      absurd ((hall _ _).mp hlt) (by rw [heq]; exact Nat.lt_irrefl _)
    have hdistinct : ¬ ∀ a b, bytes a 8 ≠ bytes b 8 → asUint64 a 8 ≠ asUint64 b 8 := fun hall =>
      hall _ _ (fun h => absurd hlt (by rw [h]; exact List.lt_irrefl _)) heq
    have hne : ¬ (8 : Nat) ≠ 8 := fun h => h rfl
    refine ⟨iff_of_false (fun hd => horder hd.order) hne, fun buf => ?_, iff_of_false horder hne,
      iff_of_false hdistinct hne⟩
    rw [or_iff_right hne]
    exact asUint64_8_iff buf
  · have hd := decodesInOrder_of_value (asUint64_eq h.1 (by omega))
    exact ⟨iff_of_true hd h8, fun buf => iff_of_true (hd.value buf) (.inl h8),
      iff_of_true hd.order h8, iff_of_true hd.distinct h8⟩

theorem decodes_seven : DecodesInOrder 7 := (decodes_iff (by decide)).1.mpr (by decide)

/-- The byte strings 1 and 0, 64 of eight bytes: the smaller decodes to the same number. -/
theorem not_decodesInOrder : ¬ ∀ n, 1 ≤ n ∧ n ≤ 8 → DecodesInOrder n := fun h => by
  obtain ⟨heq, hlt⟩ := eight_collide
  exact absurd (((h 8 (by decide)).order _ _).mp hlt) (by rw [heq]; exact Nat.lt_irrefl _)

end Netplay.CastUtils
