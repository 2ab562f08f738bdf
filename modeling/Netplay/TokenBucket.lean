import Mathlib.Algebra.BigOperators.Group.List.Basic
import Mathlib.Algebra.Order.Field.Rat
import Mathlib.Tactic.Linarith

/-!
# The token bucket of the packet generator

`token_bucket` with its doubles as rational numbers and the times of its calls given.
What a run grants is bounded by what the bucket held before it and was filled up with
since; the bucket never holds more than its capacity, so every window of the run has a
bound that does not depend on what was before the window.
-/

namespace Netplay

/-- `token_bucket`; the rate is in tokens per microsecond. -/
structure TokenBucket where
  lastFillTime : UInt64
  rate : ℚ
  availableTokens : ℚ
  capacity : ℚ

/-- A call of `consume` and the time it reads. -/
structure ConsumeCall where
  now : UInt64
  requestedTokens : UInt64

namespace TokenBucket

/-- A full bucket; the rate given is in tokens per second. -/
def new (rate maxBurst : ℚ) (now : UInt64) : TokenBucket := ⟨now, rate / 10 ^ 6, maxBurst, maxBurst⟩

/-- The first half of `consume`. -/
def fill (b : TokenBucket) (now : UInt64) : TokenBucket :=
  { b with
    availableTokens := min b.capacity (b.availableTokens + b.rate * (now - b.lastFillTime).toNat)
    lastFillTime := now }

def consume (b : TokenBucket) (c : ConsumeCall) : TokenBucket × Bool :=
  if (c.requestedTokens.toNat : ℚ) < (b.fill c.now).availableTokens then
    ({ b.fill c.now with
        availableTokens := (b.fill c.now).availableTokens - c.requestedTokens.toNat }, true)
  else (b.fill c.now, false)

/-- The tokens that a call grants. -/
def grant (b : TokenBucket) (c : ConsumeCall) : ℚ :=
  if (b.consume c).2 then c.requestedTokens.toNat else 0

/-- The bucket behind a run. -/
def after (b : TokenBucket) (calls : List ConsumeCall) : TokenBucket :=
  calls.foldl (fun b c => (b.consume c).1) b

/-- What each call of a run is granted. -/
def grants (b : TokenBucket) : List ConsumeCall → List ℚ
  | [] => []
  | c :: cs => b.grant c :: grants (b.consume c).1 cs

@[simp] theorem fill_rate (b : TokenBucket) (now : UInt64) : (b.fill now).rate = b.rate := rfl
@[simp] theorem fill_capacity (b : TokenBucket) (now : UInt64) :
    (b.fill now).capacity = b.capacity := rfl
@[simp] theorem fill_lastFillTime (b : TokenBucket) (now : UInt64) :
    (b.fill now).lastFillTime = now := rfl

theorem fill_le_capacity (b : TokenBucket) (now : UInt64) :
    (b.fill now).availableTokens ≤ b.capacity := min_le_left _ _

/-- A call takes what it grants out of the filled bucket, and nothing else changes. -/
theorem consume_eq (b : TokenBucket) (c : ConsumeCall) : (b.consume c).1 = { b.fill c.now with
    availableTokens := (b.fill c.now).availableTokens - b.grant c } := by
  by_cases h : (c.requestedTokens.toNat : ℚ) < (b.fill c.now).availableTokens
  · simp [grant, consume, h]
  · simp only [grant, consume, h, if_false, Bool.false_eq_true, sub_zero]

@[simp] theorem consume_rate (b : TokenBucket) (c : ConsumeCall) :
    (b.consume c).1.rate = b.rate := by rw [consume_eq]; rfl
@[simp] theorem consume_capacity (b : TokenBucket) (c : ConsumeCall) :
    (b.consume c).1.capacity = b.capacity := by rw [consume_eq]; rfl
@[simp] theorem consume_lastFillTime (b : TokenBucket) (c : ConsumeCall) :
    (b.consume c).1.lastFillTime = c.now := by rw [consume_eq]; rfl
theorem consume_availableTokens (b : TokenBucket) (c : ConsumeCall) :
    (b.consume c).1.availableTokens = (b.fill c.now).availableTokens - b.grant c := by
  rw [consume_eq]

/-! ## The level of the bucket -/

/-- The level lies between nothing and the capacity, and does not sink by itself. -/
structure Level (b : TokenBucket) : Prop where
  rate : 0 ≤ b.rate
  nonneg : 0 ≤ b.availableTokens
  le_capacity : b.availableTokens ≤ b.capacity

theorem new_level {rate maxBurst : ℚ} (hr : 0 ≤ rate) (hb : 0 ≤ maxBurst) (now : UInt64) :
    (new rate maxBurst now).Level :=
  ⟨div_nonneg hr (by norm_num), hb, le_refl _⟩

theorem Level.fill {b : TokenBucket} (h : b.Level) (now : UInt64) : (b.fill now).Level where
  rate := h.rate
  nonneg := by
    have hdelta : 0 ≤ b.rate * (now - b.lastFillTime).toNat := mul_nonneg h.rate (Nat.cast_nonneg _)
    exact le_min (h.nonneg.trans h.le_capacity) (add_nonneg h.nonneg hdelta)
  le_capacity := b.fill_le_capacity now

theorem grant_nonneg (b : TokenBucket) (c : ConsumeCall) : 0 ≤ b.grant c := by
  rw [grant]
  split
  · exact Nat.cast_nonneg _
  · exact le_refl _

theorem grant_le {b : TokenBucket} (h : b.Level) (c : ConsumeCall) :
    b.grant c ≤ (b.fill c.now).availableTokens := by
  by_cases hlt : (c.requestedTokens.toNat : ℚ) < (b.fill c.now).availableTokens
  · simpa [grant, consume, hlt] using hlt.le
  · simpa [grant, consume, hlt] using (h.fill c.now).nonneg

theorem Level.consume {b : TokenBucket} (h : b.Level) (c : ConsumeCall) : (b.consume c).1.Level where
  rate := by rw [consume_rate]; exact h.rate
  nonneg := by
    rw [consume_availableTokens]
    exact sub_nonneg.mpr (grant_le h c)
  le_capacity := by
    rw [consume_availableTokens, consume_capacity]
    exact (sub_le_self _ (b.grant_nonneg c)).trans (b.fill_le_capacity c.now)

theorem level_after {b : TokenBucket} (h : b.Level) (calls : List ConsumeCall) :
    (b.after calls).Level := by
  induction calls generalizing b with
  | nil => exact h
  | cons c cs ih => exact ih (h.consume c)

theorem after_rate (b : TokenBucket) (calls : List ConsumeCall) : (b.after calls).rate = b.rate := by
  induction calls generalizing b with
  | nil => rfl
  | cons c cs ih => exact (ih (b.consume c).1).trans (b.consume_rate c)

theorem after_capacity (b : TokenBucket) (calls : List ConsumeCall) :
    (b.after calls).capacity = b.capacity := by
  induction calls generalizing b with
  | nil => rfl
  | cons c cs ih => exact (ih (b.consume c).1).trans (b.consume_capacity c)

/-! ## What a run grants -/

/-- The clock does not go back, from the last fill on. -/
def ClockFrom (t : UInt64) (calls : List ConsumeCall) : Prop :=
  (t :: calls.map ConsumeCall.now).Pairwise (· ≤ ·)

theorem ClockFrom.tail {t : UInt64} {c : ConsumeCall} {cs : List ConsumeCall}
    (h : ClockFrom t (c :: cs)) : t ≤ c.now ∧ ClockFrom c.now cs := by
  obtain ⟨hle, hrest⟩ := List.pairwise_cons.mp h
  exact ⟨hle _ (by simp), hrest⟩

/-- A call gets at most what was there and what was filled up. -/
theorem grant_add_level {b : TokenBucket} {c : ConsumeCall} (ht : b.lastFillTime ≤ c.now) :
    b.grant c + (b.consume c).1.availableTokens ≤
      b.availableTokens + b.rate * ((c.now.toNat : ℚ) - b.lastFillTime.toNat) := by
  have hsub : (c.now - b.lastFillTime).toNat = c.now.toNat - b.lastFillTime.toNat :=
    UInt64.toNat_sub_of_le _ _ ht
  have hfill : (b.fill c.now).availableTokens ≤
      b.availableTokens + b.rate * (c.now - b.lastFillTime).toNat := min_le_right _ _
  rw [hsub, Nat.cast_sub (UInt64.le_iff_toNat_le.mp ht)] at hfill
  rw [consume_availableTokens]
  linarith

/-- So does a run. -/
theorem grants_add_level {b : TokenBucket} {calls : List ConsumeCall}
    (h : ClockFrom b.lastFillTime calls) :
    (b.grants calls).sum + (b.after calls).availableTokens ≤ b.availableTokens +
      b.rate * (((b.after calls).lastFillTime.toNat : ℚ) - b.lastFillTime.toNat) := by
  induction calls generalizing b with
  | nil => simp [grants, after]
  | cons c cs ih =>
    obtain ⟨hc, hcs⟩ := h.tail
    have hcs' : ClockFrom (b.consume c).1.lastFillTime cs := by rwa [consume_lastFillTime]
    have hrest := ih hcs'
    have hstep := grant_add_level hc
    rw [consume_rate, consume_lastFillTime] at hrest
    rw [grants, List.sum_cons, show b.after (c :: cs) = (b.consume c).1.after cs from rfl]
    linarith

theorem after_lastFillTime (b : TokenBucket) (cs : List ConsumeCall) (c : ConsumeCall) :
    (b.after (cs ++ [c])).lastFillTime = c.now := by
  rw [after, List.foldl_append]
  exact consume_lastFillTime _ c

theorem grants_take (b : TokenBucket) (calls : List ConsumeCall) (n : Nat) :
    (b.grants calls).take n = b.grants (calls.take n) := by
  induction calls generalizing b n with
  | nil => simp [grants]
  | cons c cs ih =>
    cases n with
    | zero => rfl
    | succ n => simp [grants, ih]

theorem grants_drop (b : TokenBucket) (calls : List ConsumeCall) (n : Nat) :
    (b.grants calls).drop n = (b.after (calls.take n)).grants (calls.drop n) := by
  induction calls generalizing b n with
  | nil => simp [grants]
  | cons c cs ih =>
    cases n with
    | zero => rfl
    | succ n => exact ih (b.consume c).1 n

/-- What calls `i` to `j` of a run are granted. -/
theorem grants_window (b : TokenBucket) (calls : List ConsumeCall) (i j : Nat) :
    ((b.grants calls).drop i).take (j + 1 - i) =
      (b.after (calls.take i)).grants ((calls.drop i).take (j + 1 - i)) := by
  rw [grants_drop, grants_take]

/-- A window that starts with a call is granted at most the capacity and what is filled up
until its last call. -/
theorem window_le {b : TokenBucket} (h : b.Level) (first : ConsumeCall) (rest : List ConsumeCall)
    (hclock : ClockFrom first.now rest) :
    (b.grants (first :: rest)).sum ≤ b.capacity +
      b.rate * (((b.after (first :: rest)).lastFillTime.toNat : ℚ) - first.now.toNat) := by
  have hcs : ClockFrom (b.consume first).1.lastFillTime rest := by rwa [consume_lastFillTime]
  have hrest := grants_add_level hcs
  have hlevel := (level_after (h.consume first) rest).nonneg
  have hfill := b.fill_le_capacity first.now
  rw [consume_rate, consume_lastFillTime, consume_availableTokens] at hrest
  rw [grants, List.sum_cons, show b.after (first :: rest) = (b.consume first).1.after rest from rfl]
  linarith

/-- Calls `i` to `j`, by the first and by the last of them. -/
theorem window_calls {calls : List ConsumeCall} {i j : Nat} {first last : ConsumeCall} (hij : i ≤ j)
    (hi : calls[i]? = some first) (hj : calls[j]? = some last) :
    (calls.drop i).take (j + 1 - i) = first :: (calls.drop (i + 1)).take (j - i) ∧
      (calls.drop i).take (j + 1 - i) = (calls.drop i).take (j - i) ++ [last] := by
  obtain ⟨hlt, rfl⟩ := List.getElem?_eq_some_iff.mp hi
  have hlen : j + 1 - i = j - i + 1 := by omega
  have hlast : (calls.drop i)[j - i]? = some last := by
    rw [List.getElem?_drop, Nat.add_sub_cancel' hij, hj]
  constructor
  · rw [hlen, List.drop_eq_getElem_cons hlt, List.take_succ_cons]
  · rw [hlen, List.take_add_one, hlast, Option.toList_some]

/-- In every run of calls the level stays between nothing and the capacity, a refused call
takes nothing, and from one call to another, both included, no more is granted than the
capacity and what the rate gives in the time between. -/
theorem limits_every_window {rate maxBurst : ℚ} (hrate : 0 ≤ rate) (hburst : 0 ≤ maxBurst)
    {t : UInt64} {calls : List ConsumeCall} (hclock : ClockFrom t calls) :
    (∀ n, 0 ≤ ((new rate maxBurst t).after (calls.take n)).availableTokens ∧
      ((new rate maxBurst t).after (calls.take n)).availableTokens ≤ maxBurst) ∧
    (∀ n c, calls[n]? = some c →
      (((new rate maxBurst t).after (calls.take n)).consume c).2 = false →
      (((new rate maxBurst t).after (calls.take n)).consume c).1 =
        ((new rate maxBurst t).after (calls.take n)).fill c.now) ∧
    ∀ i j first last, i ≤ j → calls[i]? = some first → calls[j]? = some last →
      ((((new rate maxBurst t).grants calls).drop i).take (j + 1 - i)).sum ≤
        maxBurst + rate / 10 ^ 6 * ((last.now.toNat : ℚ) - first.now.toNat) := by
  have hnew := new_level hrate hburst t
  refine ⟨fun n => ?_, fun n c _ hfalse => ?_, fun i j first last hij hi hj => ?_⟩
  · have hlevel := level_after hnew (calls.take n)
    have hcap := hlevel.le_capacity
    rw [after_capacity] at hcap
    exact ⟨hlevel.nonneg, hcap⟩
  · rw [consume_eq, grant, hfalse, if_neg (by decide), sub_zero]
  · obtain ⟨hfirst, hlast⟩ := window_calls hij hi hj
    have hsub : (first :: (calls.drop (i + 1)).take (j - i)).Sublist calls := by
      rw [← hfirst]
      exact (List.take_sublist _ _).trans (List.drop_sublist _ _)
    have hcs : ClockFrom first.now ((calls.drop (i + 1)).take (j - i)) :=
      (List.pairwise_cons.mp hclock).2.sublist (hsub.map ConsumeCall.now)
    have hle := window_le (level_after hnew (calls.take i)) first _ hcs
    have htime : (((new rate maxBurst t).after (calls.take i)).after
        ((calls.drop i).take (j + 1 - i))).lastFillTime = last.now := by
      rw [hlast, after_lastFillTime]
    rw [← hfirst, htime, after_rate, after_capacity] at hle
    rw [grants_window]
    exact hle

/-- Two calls a microsecond apart, the second one refused. -/
theorem limits_two_calls :
    (((new 1000000 5 0).grants [⟨0, 4⟩, ⟨1, 2⟩]).drop 0).take 2 = [4, 0] ∧
      ((((new 1000000 5 0).grants [⟨0, 4⟩, ⟨1, 2⟩]).drop 0).take 2).sum ≤
        5 + 1000000 / 10 ^ 6 * (((1 : UInt64).toNat : ℚ) - (0 : UInt64).toNat) :=
  ⟨by decide +kernel, (limits_every_window (by norm_num) (by norm_num)
    (by simp [ClockFrom])).2.2 0 1 ⟨0, 4⟩ ⟨1, 2⟩ (by decide) rfl rfl⟩

end TokenBucket

end Netplay
