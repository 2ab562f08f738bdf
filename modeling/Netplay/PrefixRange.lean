import Netplay.Literals
import Netplay.LowBits

/-!
# Prefixes

The range of `a.b.c.d/p` starts at the address with its `32 - p` low bits cleared, and
ends at the address with `p` low bits set.
-/

namespace Netplay.NetplayUtils

open Text LowBits

theorem maskAt_eq {p : Nat} (h : p ≤ 32) : maskAt p = .ok (2 ^ 32 - 2 ^ (32 - p)) := by
  have hall : ∀ p < 33, maskAt p = .ok (2 ^ 32 - 2 ^ (32 - p)) := by decide
  exact hall p (Nat.lt_succ_of_le h)

/-- What `ip_range` returns for an address and a prefix length. -/
def prefixRange (ip p : Nat) : TokRange := ⟨ip &&& (2 ^ 32 - 2 ^ (32 - p)), ip ||| (2 ^ p - 1)⟩

theorem findIdx_slash {s : Bytes} (h : ch '/' ∉ s) (r : Bytes) :
    (s ++ ch '/' :: r).findIdx? (· == ch '/') = some s.length := by
  have hnone : s.findIdx? (· == ch '/') = none := by
    rw [List.findIdx?_eq_none_iff]
    intro c hc
    rw [beq_eq_false_iff_ne]
    rintro rfl
    exact h hc
  rw [List.findIdx?_append, hnone, List.findIdx?_cons]
  simp

theorem ipRange_slash {s sp : Bytes} {p : Nat} (h : ch '/' ∉ s) (hp : stoi sp = some (p : Int))
    (le : p ≤ 32) : ipRange (s ++ ch '/' :: sp) = (ipStringToUint32 s).map (prefixRange · p) := by
  have hdrop : (s ++ ch '/' :: sp).drop (s.length + 1) = sp := by
    rw [List.drop_append]
    simp
  have htake : (s ++ ch '/' :: sp).take s.length = s := List.take_left
  have hlow : wrap 32 (p : Int) = p := wrap_of_lt (by omega)
  have hhigh : wrap 32 (32 - (p : Int)) = 32 - p := by
    rw [show 32 - (p : Int) = ((32 - p : Nat) : Int) by omega]
    exact wrap_of_lt (by omega)
  have hmask : 2 ^ 32 - 1 - (2 ^ 32 - 2 ^ (32 - (32 - p))) = 2 ^ p - 1 := by
    have : 2 ^ p ≤ 2 ^ 32 := Nat.pow_le_pow_right (by decide) le
    rw [Nat.sub_sub_self le]
    omega
  rw [ipRange, findIdx_slash h]
  dsimp only
  rw [hdrop, htake, hp]
  cases ipStringToUint32 s with
  | error e => rfl
  | ok ip =>
    simp only [orThrow, bind, Except.bind, hlow, hhigh, maskAt_eq le, maskAt_eq (Nat.sub_le 32 p),
      hmask]
    rfl

theorem IsPrefix.ipRange_eq {s : Bytes} {ip p : Nat} (h : IsPrefix s ip p) :
    ipRange s = .ok (prefixRange ip p) := by
  cases h with
  | slash hs hp le =>
    rw [ipRange_slash hs.no_slash (hp.stoSigned_eq (by omega)) le, hs.ipStringToUint32_eq]
    rfl

theorem IsPrefix.lt {s : Bytes} {ip p : Nat} (h : IsPrefix s ip p) : ip < 2 ^ 32 ∧ p ≤ 32 := by
  cases h with
  | slash hs hp le => exact ⟨hs.lt, le⟩

/-- The intended range ends with all the bits behind the prefix set. -/
theorem prefixRange_contains_iff {ip p : Nat} (hip : ip < 2 ^ 32) (hp : p ≤ 32) :
    (∀ x, x < 2 ^ 32 → ((prefixRange ip p).Contains x ↔ SameHigh 32 p x ip)) ↔
      ip ||| (2 ^ p - 1) = ip ||| (2 ^ (32 - p) - 1) := by
  have hlow : ip &&& (2 ^ 32 - 2 ^ (32 - p)) = ip / 2 ^ (32 - p) * 2 ^ (32 - p) :=
    and_high hip (Nat.sub_le 32 p)
  have hsame : ∀ x, x < 2 ^ 32 → (SameHigh 32 p x ip ↔
      ip / 2 ^ (32 - p) * 2 ^ (32 - p) ≤ x ∧ x ≤ ip ||| (2 ^ (32 - p) - 1)) := by
    intro x hx
    rw [sameHigh_iff hx hip, or_low, between_iff]
  have hbound : ∀ k, k ≤ 32 → ip ||| (2 ^ k - 1) < 2 ^ 32 := fun k hk =>
    Nat.or_lt_two_pow hip (Nat.lt_of_lt_of_le (Nat.sub_lt (Nat.two_pow_pos k) Nat.one_pos)
      (Nat.pow_le_pow_right (by decide) hk))
  have hge : ∀ k, ip / 2 ^ (32 - p) * 2 ^ (32 - p) ≤ ip ||| (2 ^ k - 1) := fun k =>
    Nat.le_trans (Nat.div_mul_le_self _ _) Nat.left_le_or
  simp only [TokRange.Contains, prefixRange, hlow]
  constructor
  · -- Each of the two ends lies in the other range.
    intro h
    refine Nat.le_antisymm ?_ ?_
    · exact ((hsame _ (hbound p hp)).mp ((h _ (hbound p hp)).mp ⟨hge p, Nat.le_refl _⟩)).2
    · have hk := hbound (32 - p) (Nat.sub_le 32 p)
      exact ((h _ hk).mpr ((hsame _ hk).mpr ⟨hge _, Nat.le_refl _⟩)).2
  · intro h x hx
    rw [hsame x hx, h]

/-- A prefix holds the addresses that agree with it exactly where the address has ones
in the bits between the `p` and the `32 - p` low ones; so always for `p = 16`. -/
theorem ipRange_prefix_iff {s : Bytes} {ip p : Nat} (h : IsPrefix s ip p) :
    (∃ r, ipRange s = .ok r ∧ ∀ x, x < 2 ^ 32 → (r.Contains x ↔ SameHigh 32 p x ip)) ↔
      ∀ i, min p (32 - p) ≤ i → i < max p (32 - p) → ip.testBit i = true := by
  obtain ⟨hip, hp⟩ := h.lt
  rw [← or_low_eq_iff, ← prefixRange_contains_iff hip hp]
  constructor
  · rintro ⟨r, hr, hall⟩
    cases h.ipRange_eq.symm.trans hr
    exact hall
  · exact fun hall => ⟨_, h.ipRange_eq, hall⟩

theorem ipRange_prefix_sixteen : ∃ r, ipRange (lit "10.0.0.0/16") = .ok r ∧
    ∀ x, x < 2 ^ 32 → (r.Contains x ↔ SameHigh 32 16 x (10 * 2 ^ 24)) :=
  (ipRange_prefix_iff (isPrefix_quad (a := 10) (b := 0) (c := 0) (d := 0) (p := 16) (by decide)
    (by decide) (by decide) (by decide) (by decide))).mpr fun i h1 h2 => by omega

/-- `10.0.0.0/8` leaves out 10.1.0.0, and `10.0.0.0/24` holds it. -/
theorem ipRange_prefix_other :
    ipRange (lit "10.0.0.0/8") = .ok ⟨10 * 2 ^ 24, 10 * 2 ^ 24 + 255⟩ ∧
    ipRange (lit "10.0.0.0/24") = .ok ⟨10 * 2 ^ 24, 11 * 2 ^ 24 - 1⟩ ∧
    (¬ ∃ r, ipRange (lit "10.0.0.0/8") = .ok r ∧
      ∀ x, x < 2 ^ 32 → (r.Contains x ↔ SameHigh 32 8 x (10 * 2 ^ 24))) ∧
    ¬ ∃ r, ipRange (lit "10.0.0.0/24") = .ok r ∧
      ∀ x, x < 2 ^ 32 → (r.Contains x ↔ SameHigh 32 24 x (10 * 2 ^ 24)) := by
  have h8 : ipRange (lit "10.0.0.0/8") = .ok ⟨10 * 2 ^ 24, 10 * 2 ^ 24 + 255⟩ := by decide
  have h24 : ipRange (lit "10.0.0.0/24") = .ok ⟨10 * 2 ^ 24, 11 * 2 ^ 24 - 1⟩ := by decide
  refine ⟨h8, h24, ?_, ?_⟩
  · rintro ⟨r, hr, hall⟩
    cases h8.symm.trans hr
    have := (hall (10 * 2 ^ 24 + 2 ^ 16) (by decide)).mpr
      ((sameHigh_iff (by decide) (by decide)).mpr (by decide))
    exact absurd this (by decide)
  · rintro ⟨r, hr, hall⟩
    cases h24.symm.trans hr
    have := (hall (10 * 2 ^ 24 + 2 ^ 16) (by decide)).mp (by decide)
    exact absurd ((sameHigh_iff (by decide) (by decide)).mp this) (by decide)

end Netplay.NetplayUtils
