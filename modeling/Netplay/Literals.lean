import Mathlib.Algebra.Order.Ring.Nat
import Netplay.Attribute

/-!
# Literals

Decimals, dotted quads and prefixes as text, and what `stoi`, `stol` and `sscanf`
read from them.
-/

namespace Netplay.NetplayUtils

open Text

/-! ## Decimals -/

/-- Digits and nothing else, with the number they stand for. -/
structure IsDecimal (s : Bytes) (n : Nat) : Prop where
  nonempty : s ≠ []
  digits : ∀ c ∈ s, isdigit c = true
  value : digitsValue s = n

theorem not_iswspace_of_isdigit {c : UInt8} (h : isdigit c = true) : iswspace c = false := by
  have h1 : ch '0' ≤ c := by simpa using (Bool.and_eq_true_iff.mp h).1
  have hge : 48 ≤ c.toNat := h1
  have hne : c ≠ ch ' ' := by
    rintro rfl
    exact absurd hge (by decide)
  have hgt : ¬ c ≤ 13 := fun hle => absurd (Nat.le_trans hge hle) (by decide)
  simp [iswspace, hne, hgt]

theorem ne_sign_of_isdigit {c : UInt8} (h : isdigit c = true) : c ≠ ch '-' ∧ c ≠ ch '+' := by
  constructor <;> rintro rfl <;> exact absurd h (by decide)

/-- The text that follows does not go on with a digit. -/
def DigitsEnd (r : Bytes) : Prop := ∀ c, r.head? = some c → isdigit c = false

theorem digitsEnd_nil : DigitsEnd [] := fun c h => by cases h

theorem digitsEnd_cons {c : UInt8} {r : Bytes} (h : isdigit c = false) : DigitsEnd (c :: r) := by
  intro d hd
  cases hd
  exact h

namespace IsDecimal

variable {s : Bytes} {n : Nat}

theorem span (h : IsDecimal s n) {r : Bytes} (hr : DigitsEnd r) :
    (s ++ r).takeWhile isdigit = s ∧ (s ++ r).dropWhile isdigit = r := by
  rw [List.takeWhile_append_of_pos h.digits, List.dropWhile_append_of_pos h.digits]
  cases r with
  | nil => simp
  | cons c r =>
    have hc : isdigit c = false := hr c rfl
    simp [hc]

/-- Of a decimal `strtol` reads the number, and leaves what follows. -/
theorem strtol_append (h : IsDecimal s n) {r : Bytes} (hr : DigitsEnd r) :
    strtol (s ++ r) = some ((n : Int), r) := by
  obtain ⟨htake, hdrop⟩ := h.span hr
  obtain ⟨c, s', hs⟩ := List.exists_cons_of_ne_nil h.nonempty
  have hc : isdigit c = true := h.digits c (by rw [hs]; exact List.mem_cons_self)
  obtain ⟨hminus, hplus⟩ := ne_sign_of_isdigit hc
  have hcons : s ++ r = c :: (s' ++ r) := by rw [hs, List.cons_append]
  have hspace : (s ++ r).dropWhile iswspace = s ++ r := by
    rw [hcons, List.dropWhile_cons_of_neg (by simp [not_iswspace_of_isdigit hc])]
  rw [hcons] at htake hdrop hspace ⊢
  simp only [strtol, hspace, if_neg hminus, if_neg hplus, htake, hdrop, if_neg h.nonempty, h.value]
  rfl

theorem strtol_eq (h : IsDecimal s n) : strtol s = some ((n : Int), []) := by
  have := h.strtol_append digitsEnd_nil
  rwa [List.append_nil] at this

theorem stoSigned_eq (h : IsDecimal s n) {w : Nat} (hn : n < 2 ^ (w - 1)) :
    stoSigned w s = some (n : Int) := by
  have hlow : -(2 : Int) ^ (w - 1) ≤ (n : Int) := by
    have : (0 : Int) ≤ 2 ^ (w - 1) := Int.le_of_lt (Int.pow_pos (by decide))
    omega
  have hhigh : (n : Int) < (2 : Int) ^ (w - 1) := by exact_mod_cast hn
  rw [stoSigned, h.strtol_eq]
  exact if_pos ⟨hlow, hhigh⟩

theorem stoSigned_none (h : IsDecimal s n) {w : Nat} (hn : 2 ^ (w - 1) ≤ n) :
    stoSigned w s = none := by
  have hhigh : ¬ (n : Int) < (2 : Int) ^ (w - 1) := by
    rw [not_lt]
    exact_mod_cast hn
  rw [stoSigned, h.strtol_eq]
  exact if_neg fun hle => hhigh hle.2

end IsDecimal

theorem isdigit_ch {c : Char} (h : c.isDigit = true) :
    isdigit (ch c) = true ∧ (ch c).toNat = c.toNat := by
  obtain ⟨h1, h2⟩ := Char.isDigit_iff_toNat.mp h
  have hval : (ch c).toNat = c.toNat := by
    rw [ch, UInt8.toNat_ofNat']
    exact Nat.mod_eq_of_lt (Nat.lt_of_le_of_lt h2 (by decide))
  refine ⟨?_, hval⟩
  simp only [isdigit, Bool.and_eq_true, decide_eq_true_eq, UInt8.le_iff_toNat_le, hval]
  exact ⟨h1, h2⟩

/-- The text of a number is a decimal of it. -/
theorem isDecimal_toDigits (n : Nat) : IsDecimal (toDigits n) n := by
  have hdigit : ∀ c ∈ Nat.toDigits 10 n, c.isDigit = true := fun c hc =>
    Nat.isDigit_of_mem_toDigits (by decide) (by decide) hc
  refine ⟨?_, fun b hb => ?_, ?_⟩
  · rw [toDigits, ne_eq, List.map_eq_nil_iff]
    exact Nat.toDigits_ne_nil
  · obtain ⟨c, hc, rfl⟩ := List.mem_map.mp hb
    exact (isdigit_ch (hdigit c hc)).1
  · rw [digitsValue, toDigits, List.foldl_map]
    calc (Nat.toDigits 10 n).foldl (fun m c => 10 * m + ((ch c).toNat - (ch '0').toNat)) 0
        = (Nat.toDigits 10 n).foldl (fun m c => 10 * m + (c.toNat - '0'.toNat)) 0 :=
          List.foldl_ext _ _ _ fun m c hc => by rw [(isdigit_ch (hdigit c hc)).2]; rfl
      _ = n := Nat.ofDigitChars_ten_toDigits

/-! ## Unsigned numbers -/

theorem wrap_lt (w : Nat) (v : Int) : wrap w v < 2 ^ w := by
  have hpos : (0 : Int) < (2 : Int) ^ w := Int.pow_pos (by decide)
  have h1 := Int.emod_nonneg v (Int.ne_of_gt hpos)
  have h2 := Int.emod_lt_of_pos v hpos
  rw [wrap, Int.toNat_lt h1]
  exact_mod_cast h2

theorem wrap_natCast (w n : Nat) : wrap w (n : Int) = n % 2 ^ w := by
  rw [wrap, ← Int.toNat_natCast (n % 2 ^ w)]
  push_cast
  rfl

theorem wrap_of_lt {w n : Nat} (h : n < 2 ^ w) : wrap w (n : Int) = n := by
  rw [wrap_natCast, Nat.mod_eq_of_lt h]

/-- The predecessor of 0 is the largest number. -/
theorem wrap_pred {w t : Nat} (h : t ≤ 2 ^ w) :
    wrap w ((t : Int) - 1) = if t = 0 then 2 ^ w - 1 else t - 1 := by
  have hpos : 0 < 2 ^ w := Nat.two_pow_pos w
  split
  · next h0 =>
    subst h0
    have hmod : (-1 : Int) % (2 : Int) ^ w = (2 : Int) ^ w - 1 := by
      rw [← Int.add_emod_right]
      exact Int.emod_eq_of_lt (by have : (0 : Int) < 2 ^ w := Int.pow_pos (by decide); omega)
        (by omega)
    rw [wrap, show ((0 : Nat) : Int) - 1 = -1 from rfl, hmod]
    have hcast : (2 : Int) ^ w = ((2 ^ w : Nat) : Int) := by push_cast; rfl
    omega
  · next h0 =>
    have hcast : (t : Int) - 1 = ((t - 1 : Nat) : Int) := by omega
    rw [hcast, wrap_of_lt (by omega)]

/-- What the range of `<` holds. -/
theorem contains_below {w t tok : Nat} (ht : t ≤ 2 ^ w) (htok : tok < 2 ^ w) :
    (⟨0, wrap w ((t : Int) - 1)⟩ : TokRange).Contains tok ↔ t = 0 ∨ tok < t := by
  simp only [TokRange.Contains, wrap_pred ht]
  split <;> omega

/-! ## Dotted quads -/

/-- Four decimals up to 255 with dots between them, and the number of the address. -/
inductive IsAddress : Bytes → Nat → Prop where
  | dotted {sa sb sc sd : Bytes} {a b c d : Nat} (ha : IsDecimal sa a) (hb : IsDecimal sb b)
      (hc : IsDecimal sc c) (hd : IsDecimal sd d) (la : a < 256) (lb : b < 256) (lc : c < 256)
      (ld : d < 256) :
      IsAddress (sa ++ ch '.' :: (sb ++ ch '.' :: (sc ++ ch '.' :: sd)))
        (a * 2 ^ 24 + b * 2 ^ 16 + c * 2 ^ 8 + d)

theorem scanBytes_dot {s : Bytes} {v : Nat} (h : IsDecimal s v) (hv : v < 256) (n : Nat) (r : Bytes) :
    scanBytes (n + 1) (s ++ ch '.' :: r) = v :: scanBytes n r := by
  rw [scanBytes, h.strtol_append (digitsEnd_cons (by decide))]
  dsimp only
  rw [if_pos rfl, wrap_of_lt hv]

theorem scanBytes_last {s : Bytes} {v : Nat} (h : IsDecimal s v) (hv : v < 256) :
    scanBytes 1 s = [v] := by
  rw [scanBytes, h.strtol_eq]
  dsimp only
  rw [wrap_of_lt hv]

theorem bytes_or {a b c d : Nat} (hb : b < 256) (hc : c < 256) (hd : d < 256) :
    d ||| c <<< 8 ||| b <<< 16 ||| a <<< 24 = a * 2 ^ 24 + b * 2 ^ 16 + c * 2 ^ 8 + d := by
  have h1 : c <<< 8 + d = c <<< 8 ||| d := Nat.shiftLeft_add_eq_or_of_lt hd c
  have h2 : b <<< 16 + (c <<< 8 + d) = b <<< 16 ||| (c <<< 8 + d) :=
    Nat.shiftLeft_add_eq_or_of_lt (by rw [Nat.shiftLeft_eq]; omega) b
  have h3 : a <<< 24 + (b <<< 16 + (c <<< 8 + d)) = a <<< 24 ||| (b <<< 16 + (c <<< 8 + d)) :=
    Nat.shiftLeft_add_eq_or_of_lt (by rw [Nat.shiftLeft_eq, Nat.shiftLeft_eq]; omega) a
  rw [Nat.or_comm d, ← h1, Nat.or_comm _ (b <<< 16), ← h2, Nat.or_comm _ (a <<< 24), ← h3]
  simp only [Nat.shiftLeft_eq]
  omega

theorem IsAddress.ipStringToUint32_eq {s : Bytes} {ip : Nat} (h : IsAddress s ip) :
    ipStringToUint32 s = .ok ip := by
  cases h with
  | dotted ha hb hc hd la lb lc ld =>
    rw [ipStringToUint32, scanBytes_dot ha la, scanBytes_dot hb lb, scanBytes_dot hc lc,
      scanBytes_last hd ld]
    dsimp only
    rw [bytes_or lb lc ld]

theorem IsAddress.lt {s : Bytes} {ip : Nat} (h : IsAddress s ip) : ip < 2 ^ 32 := by
  cases h with
  | dotted ha hb hc hd la lb lc ld => omega

theorem IsAddress.no_slash {s : Bytes} {ip : Nat} (h : IsAddress s ip) : ch '/' ∉ s := by
  have hdigit : ∀ {t : Bytes} {n : Nat}, IsDecimal t n → ch '/' ∉ t := fun ht hmem =>
    absurd (ht.digits _ hmem) (by decide)
  have hdot : ch '/' ≠ ch '.' := by decide
  cases h with
  | dotted ha hb hc hd la lb lc ld =>
    simp [hdigit ha, hdigit hb, hdigit hc, hdigit hd, hdot]

/-! ## Prefixes -/

/-- A dotted quad, a slash and a decimal up to 32. -/
inductive IsPrefix : Bytes → Nat → Nat → Prop where
  | slash {s sp : Bytes} {ip p : Nat} (hs : IsAddress s ip) (hp : IsDecimal sp p) (le : p ≤ 32) :
      IsPrefix (s ++ ch '/' :: sp) ip p

/-- The text `a.b.c.d`. -/
def quad (a b c d : Nat) : Bytes :=
  toDigits a ++ ch '.' :: (toDigits b ++ ch '.' :: (toDigits c ++ ch '.' :: toDigits d))

theorem isAddress_quad {a b c d : Nat} (ha : a < 256) (hb : b < 256) (hc : c < 256) (hd : d < 256) :
    IsAddress (quad a b c d) (a * 2 ^ 24 + b * 2 ^ 16 + c * 2 ^ 8 + d) :=
  .dotted (isDecimal_toDigits a) (isDecimal_toDigits b) (isDecimal_toDigits c)
    (isDecimal_toDigits d) ha hb hc hd

theorem isPrefix_quad {a b c d p : Nat} (ha : a < 256) (hb : b < 256) (hc : c < 256) (hd : d < 256)
    (hp : p ≤ 32) : IsPrefix (quad a b c d ++ ch '/' :: toDigits p)
      (a * 2 ^ 24 + b * 2 ^ 16 + c * 2 ^ 8 + d) p :=
  .slash (isAddress_quad ha hb hc hd) (isDecimal_toDigits p) hp

end Netplay.NetplayUtils
