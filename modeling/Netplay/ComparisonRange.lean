import Netplay.Literals

/-!
# Comparisons

The range of a comparison with a port or a second holds the numbers that stand in the
relation to the literal, but for `<` at 0 and for `>` at the largest second.
-/

namespace Netplay.NetplayUtils

open Text

inductive Comparison where
  | eq | lt | le | gt | ge
  deriving DecidableEq, Repr

namespace Comparison

def op : Comparison → Bytes
  | .eq => lit "=="
  | .lt => lit "<"
  | .le => lit "<="
  | .gt => lit ">"
  | .ge => lit ">="

/-- The relation that the operator stands for. -/
def Holds : Comparison → Nat → Nat → Prop
  | .eq, x, v => x = v
  | .lt, x, v => x < v
  | .le, x, v => x ≤ v
  | .gt, x, v => v < x
  | .ge, x, v => v ≤ x

/-- The operators whose range of seconds ends at the present. -/
def UpToNow (c : Comparison) : Prop := c = .gt ∨ c = .ge

end Comparison

/-! ## What a time literal stands for -/

theorem find_eq_zero {pat s : Bytes} : find pat s = some 0 ↔ pat <+: s := by
  cases s with
  | nil =>
    rw [find, List.prefix_nil]
    split
    · next h => exact iff_of_true rfl h
    · next h => exact iff_of_false (by simp) h
  | cons c s =>
    rw [find, ← List.isPrefixOf_iff_prefix]
    split
    · next h => exact iff_of_true rfl h
    · next h => exact iff_of_false (by simp) h

theorem find_minus (r : Bytes) :
    find (lit "-") (lit "now" ++ r) = some 3 ↔ ∃ r', r = ch '-' :: r' := by
  have hskip : find (lit "-") (lit "now" ++ r) = (find (lit "-") r).map (· + 3) := by
    have hlit : lit "now" ++ r = ch 'n' :: ch 'o' :: ch 'w' :: r := rfl
    have hne : ∀ c ∈ [ch 'n', ch 'o', ch 'w'], ∀ t, (lit "-").isPrefixOf (c :: t) = false := by
      simp only [List.mem_cons, List.not_mem_nil, or_false]
      rintro c (rfl | rfl | rfl) t <;> rfl
    rw [hlit, find, hne _ (by simp), find, hne _ (by simp), find, hne _ (by simp)]
    cases find (lit "-") r <;> rfl
  have hzero : find (lit "-") (lit "now" ++ r) = some 3 ↔ find (lit "-") r = some 0 := by
    rw [hskip]
    cases find (lit "-") r <;> simp
  rw [hzero, find_eq_zero]
  constructor
  · rintro ⟨r', rfl⟩
    exact ⟨r', rfl⟩
  · rintro ⟨r', rfl⟩
    exact ⟨r', rfl⟩

/-- The second that a time literal stands for, an integer of any size. -/
inductive TimeDenotes (now : UInt32) : Bytes → Int → Prop where
  | absolute {s : Bytes} {t : Int} (hnow : find (lit "now") s = none) (ht : stol s = some t) :
      TimeDenotes now s t
  | now : TimeDenotes now (lit "now") now.toNat
  | relative {s : Bytes} {k : Int} (hk : stoi s = some k) :
      TimeDenotes now (lit "now-" ++ s) (now.toNat - k)

theorem denotes_of_timeValue {op s : Bytes} {now : UInt32} {n : Nat}
    (h : timeValue op s now = .ok n) : ∃ t, TimeDenotes now s t ∧ n = wrap 32 t ∧
      (s = lit "now" → find (lit ">") op = none) := by
  rw [timeValue] at h
  split at h
  · next loc hloc =>
    split at h
    · simp at h
    next h0 =>
    obtain rfl : loc = 0 := not_not.mp h0
    obtain ⟨r, rfl⟩ := find_eq_zero.mp hloc
    split at h
    · next hlen =>
      obtain rfl : r = [] := by simpa [lit] using hlen
      split at h
      · simp at h
      next hop =>
      cases h
      exact ⟨_, .now, (wrap_of_lt now.toNat_lt).symm, fun _ => by simpa using hop⟩
    next hlen =>
    split at h
    · next loc' hloc' =>
      split at h
      · next h3 =>
        subst h3
        obtain ⟨r', rfl⟩ := (find_minus r).mp hloc'
        obtain ⟨k, hk, h⟩ := bind_eq_ok.mp h
        cases h
        exact ⟨_, .relative (orThrow_eq_ok.mp hk), rfl, fun hnow => absurd hnow (by simp [lit])⟩
      · simp at h
    · simp at h
  · next hnone =>
    obtain ⟨v, hv, h⟩ := bind_eq_ok.mp h
    cases h
    refine ⟨v, .absolute hnone (orThrow_eq_ok.mp hv), rfl, ?_⟩
    rintro rfl
    cases hnone

theorem TimeDenotes.timeValue_eq {op s : Bytes} {now : UInt32} {t : Int} (h : TimeDenotes now s t)
    (hop : s = lit "now" → find (lit ">") op = none) : timeValue op s now = .ok (wrap 32 t) := by
  cases h with
  | absolute hnow ht =>
    rw [timeValue, hnow]
    exact bind_eq_ok.mpr ⟨t, orThrow_eq_ok.mpr ht, rfl⟩
  | now =>
    rw [timeValue, find_eq_zero.mpr (List.prefix_refl _)]
    dsimp only
    rw [if_neg (by decide), if_pos (show (lit "now").length = 3 from rfl), hop rfl,
      wrap_of_lt now.toNat_lt]
    rfl
  | relative hk =>
    rename_i s k
    have hcut : lit "now-" ++ s = lit "now" ++ ch '-' :: s := rfl
    have hlen : (lit "now-" ++ s).length ≠ 3 := by simp [lit]
    rw [timeValue, find_eq_zero.mpr (show lit "now" <+: lit "now-" ++ s from ⟨ch '-' :: s, rfl⟩)]
    dsimp only
    rw [if_neg (by decide), if_neg hlen, hcut, (find_minus _).mpr ⟨s, rfl⟩]
    exact bind_eq_ok.mpr ⟨k, orThrow_eq_ok.mpr hk, rfl⟩

/-- A literal is read as its second modulo 2^32, unless it is `now` and the comparison
looks into the future. -/
theorem timeValue_eq_ok {op s : Bytes} {now : UInt32} {n : Nat} :
    timeValue op s now = .ok n ↔ ∃ t, TimeDenotes now s t ∧ n = wrap 32 t ∧
      (s = lit "now" → find (lit ">") op = none) := by
  constructor
  · exact denotes_of_timeValue
  · rintro ⟨t, ht, rfl, hop⟩
    exact ht.timeValue_eq hop

/-! ## The ranges -/

theorem wrap_succ {t : Nat} (h : t < 2 ^ 32) :
    wrap 32 ((t : Int) + 1) = if t = 2 ^ 32 - 1 then 0 else t + 1 := by
  have hcast : (t : Int) + 1 = ((t + 1 : Nat) : Int) := rfl
  rw [hcast, wrap_natCast]
  split <;> omega

/-- A port range holds the ports of the comparison, and every port for `< 0`. -/
theorem portRange_contains (c : Comparison) {v : Nat} (hv : v < 2 ^ 16) :
    ∃ r, portRange c.op v = .ok r ∧ ∀ tok, tok < 2 ^ 16 →
      (r.Contains tok ↔ c.Holds tok v ∨ c = .lt ∧ v = 0) := by
  cases c with
  | lt =>
    refine ⟨_, rfl, fun tok htok => ?_⟩
    rw [contains_below (by omega) (by omega)]
    simp only [Comparison.Holds, true_and]
    exact or_comm
  | eq | le | gt | ge =>
    refine ⟨_, rfl, fun tok htok => ?_⟩
    simp only [TokRange.Contains, Comparison.Holds, reduceCtorEq, false_and, or_false]
    omega

/-- A range of seconds holds those of the comparison up to the present, but every
second for `< 0`, and every second up to the present behind the largest one. -/
theorem timeRange_contains (c : Comparison) {t : Nat} (ht : t < 2 ^ 32) (now : UInt32) :
    ∃ r, timeRange c.op t now = .ok r ∧ ∀ s, s < 2 ^ 32 →
      (r.Contains s ↔ c.Holds s t ∧ (c.UpToNow → s ≤ now.toNat) ∨ c = .lt ∧ t = 0 ∨
        (c = .gt ∧ t = 2 ^ 32 - 1) ∧ s ≤ now.toNat) := by
  cases c with
  | lt =>
    refine ⟨_, rfl, fun s hs => ?_⟩
    rw [contains_below (by omega) hs]
    simp [Comparison.Holds, Comparison.UpToNow, or_comm]
  | gt =>
    refine ⟨_, rfl, fun s hs => ?_⟩
    simp only [TokRange.Contains, Comparison.Holds, Comparison.UpToNow, wrap_succ ht, reduceCtorEq,
      true_or, false_and, false_or, true_and, forall_const]
    split <;> omega
  | ge =>
    refine ⟨_, rfl, fun s hs => ?_⟩
    simp only [TokRange.Contains, Comparison.Holds, Comparison.UpToNow, reduceCtorEq, or_true,
      false_and, or_false, forall_const]
  | eq | le =>
    refine ⟨_, rfl, fun s hs => ?_⟩
    simp only [TokRange.Contains, Comparison.Holds, Comparison.UpToNow, reduceCtorEq, or_self,
      false_and, or_false, false_implies, and_true]
    omega

/-! ## The filters -/

/-- The filter of a port literal holds the ports of the comparison. -/
def PortsExact (c : Comparison) (id : Nat) (s : Bytes) (v : Nat) : Prop :=
  ∃ r, portFilter id c.op s = .ok ⟨id, r⟩ ∧ ∀ tok, tok ≤ 65535 → (r.Contains tok ↔ c.Holds tok v)

/-- The filter of a time literal holds the seconds of the comparison, for `>` and `>=`
up to the present. -/
def SecondsExact (c : Comparison) (id : Nat) (s : Bytes) (now : UInt32) (t : Nat) : Prop :=
  ∃ r, timeFilter id c.op s now = .ok ⟨id, r⟩ ∧ ∀ sec, sec < 2 ^ 32 →
    (r.Contains sec ↔ c.Holds sec t ∧ (c.UpToNow → sec ≤ now.toNat))

theorem portsExact_iff {c : Comparison} {id : Nat} {s : Bytes} {v : Nat} (hv : v ≤ 65535)
    (hs : stoi s = some (v : Int)) : PortsExact c id s v ↔ ¬ (c = .lt ∧ v = 0) := by
  obtain ⟨r, hr, hcontains⟩ := portRange_contains c (v := v) (by omega)
  have hfilter : portFilter id c.op s = .ok ⟨id, r⟩ := by
    rw [← wrap_of_lt (by omega : v < 2 ^ 16)] at hr
    exact bind_eq_ok.mpr ⟨v, orThrow_eq_ok.mpr hs, bind_eq_ok.mpr ⟨r, hr, rfl⟩⟩
  constructor
  · rintro ⟨r', hr', hexact⟩ ⟨rfl, rfl⟩
    cases hfilter.symm.trans hr'
    have hzero := (hexact 0 (by decide)).mp ((hcontains 0 (by decide)).mpr (.inr ⟨rfl, rfl⟩))
    exact Nat.lt_irrefl 0 hzero
  · intro hne
    refine ⟨r, hfilter, fun tok htok => ?_⟩
    rw [hcontains tok (by omega), or_iff_left hne]

theorem secondsExact_iff {c : Comparison} {id : Nat} {s : Bytes} {now : UInt32} {t : Nat}
    (ht : t < 2 ^ 32) (hs : TimeDenotes now s t) (haccepted : ∃ f, timeFilter id c.op s now = .ok f) :
    SecondsExact c id s now t ↔ ¬ (c = .lt ∧ t = 0) ∧ ¬ (c = .gt ∧ t = 2 ^ 32 - 1) := by
  obtain ⟨r, hr, hcontains⟩ := timeRange_contains c ht now
  have hfilter : timeFilter id c.op s now = .ok ⟨id, r⟩ := by
    obtain ⟨f, hf⟩ := haccepted
    obtain ⟨n, hn, -⟩ := bind_eq_ok.mp hf
    obtain ⟨-, -, -, hop⟩ := timeValue_eq_ok.mp hn
    have htime := timeValue_eq_ok.mpr ⟨t, hs, (wrap_of_lt ht).symm, hop⟩
    exact bind_eq_ok.mpr ⟨t, htime, bind_eq_ok.mpr ⟨r, hr, rfl⟩⟩
  constructor
  · -- Second 0 is held by the two ranges that wrap.
    rintro ⟨r', hr', hexact⟩
    cases hfilter.symm.trans hr'
    have hzero := (hexact 0 (by decide)).symm.trans (hcontains 0 (by decide))
    constructor
    · rintro ⟨rfl, rfl⟩
      exact Nat.lt_irrefl 0 (hzero.mpr (.inr (.inl ⟨rfl, rfl⟩))).1
    · rintro ⟨rfl, rfl⟩
      have := (hzero.mpr (.inr (.inr ⟨⟨rfl, rfl⟩, Nat.zero_le _⟩))).1
      exact Nat.not_lt_zero _ this
  · rintro ⟨hlt, hgt⟩
    refine ⟨r, hfilter, fun sec hsec => ?_⟩
    rw [hcontains sec hsec]
    constructor
    · rintro (h | h | h)
      · exact h
      · exact absurd h hlt
      · exact absurd h.1 hgt
    · exact .inl

/-- Every comparison holds what it says, but `<` at 0, and `>` at the largest second. -/
theorem comparison_exact_iff (c : Comparison) (id : Nat) (s : Bytes) :
    (∀ v : Nat, v ≤ 65535 → stoi s = some (v : Int) →
      (PortsExact c id s v ↔ ¬ (c = .lt ∧ v = 0))) ∧
    ∀ (now : UInt32) (t : Nat), t < 2 ^ 32 → TimeDenotes now s t →
      (∃ f, timeFilter id c.op s now = .ok f) →
      (SecondsExact c id s now t ↔ ¬ (c = .lt ∧ t = 0) ∧ ¬ (c = .gt ∧ t = 2 ^ 32 - 1)) :=
  ⟨fun _ hv hs => portsExact_iff hv hs, fun _ _ ht hs hf => secondsExact_iff ht hs hf⟩

/-- The largest port and the second after the epoch. -/
theorem comparison_exact_limits :
    PortsExact .gt srcportIdx (lit "65535") 65535 ∧
      SecondsExact .lt timestampIdx (lit "1") 5 1 :=
  ⟨((comparison_exact_iff .gt srcportIdx (lit "65535")).1 65535 (by decide) (by decide)).mpr
      (by decide),
    ((comparison_exact_iff .lt timestampIdx (lit "1")).2 5 1 (by decide)
      (.absolute (by decide) (by decide)) ⟨_, rfl⟩).mpr (by decide)⟩

/-- `src_port < 0` holds every port, `timestamp < 0` every second, and
`timestamp > 4294967295` every second up to the present. -/
theorem comparison_wraps :
    portFilter srcportIdx (lit "<") (lit "0") = .ok ⟨srcportIdx, ⟨0, 2 ^ 64 - 1⟩⟩ ∧
    timeFilter timestampIdx (lit "<") (lit "0") 5 = .ok ⟨timestampIdx, ⟨0, 2 ^ 32 - 1⟩⟩ ∧
    timeFilter timestampIdx (lit ">") (lit "4294967295") 5 = .ok ⟨timestampIdx, ⟨0, 5⟩⟩ ∧
    ¬ PortsExact .lt srcportIdx (lit "0") 0 ∧
    ¬ SecondsExact .lt timestampIdx (lit "0") 5 0 ∧
    ¬ SecondsExact .gt timestampIdx (lit "4294967295") 5 (2 ^ 32 - 1) := by
  have hport : portFilter srcportIdx (lit "<") (lit "0") = .ok ⟨srcportIdx, ⟨0, 2 ^ 64 - 1⟩⟩ := by
    decide
  have hbefore : timeFilter timestampIdx (lit "<") (lit "0") 5 =
      .ok ⟨timestampIdx, ⟨0, 2 ^ 32 - 1⟩⟩ := by decide
  have hafter : timeFilter timestampIdx (lit ">") (lit "4294967295") 5 =
      .ok ⟨timestampIdx, ⟨0, 5⟩⟩ := by decide
  refine ⟨hport, hbefore, hafter, ?_, ?_, ?_⟩
  · rintro ⟨r, hr, hexact⟩
    cases hport.symm.trans hr
    exact absurd ((hexact 0 (by decide)).mp (by decide)) (Nat.lt_irrefl 0)
  · rintro ⟨r, hr, hexact⟩
    cases hbefore.symm.trans hr
    exact absurd ((hexact 0 (by decide)).mp (by decide)).1 (Nat.lt_irrefl 0)
  · rintro ⟨r, hr, hexact⟩
    cases hafter.symm.trans hr
    exact absurd ((hexact 0 (by decide)).mp (by decide)).1 (Nat.not_lt_zero _)

end Netplay.NetplayUtils
