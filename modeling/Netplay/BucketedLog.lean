import Mathlib.Algebra.Order.Ring.Nat
import Mathlib.Data.Nat.Bitwise
import Mathlib.Logic.Function.Basic

/-!
# Logs with growing buckets

`__monolog_base`: bucket `i` has `2 ^ (i + 4)` elements, and the highest bit of an index
plus 16 selects the bucket. The arithmetic is that of a 64-bit host: positions have 64
bits, the argument of `highest_bit` 32, and `1 << hibit` is an `int`.

An access outside the array of buckets, to a bucket that is not allocated or outside a
bucket is undefined.
-/

namespace Netplay

/-- `__monolog_base`: the buckets whose pointer is not null, with their elements. -/
structure BucketedLog (T : Type) (numBuckets : Nat) where
  buckets : Nat → Option (Nat → T)

namespace BucketedLog

/-- `FBS` and `FBS_HIBIT`. -/
def fbs : Nat := 16
def fbsHibit : Nat := 4

/-- `bit_utils::highest_bit`; `bsr` leaves its result open on zero. -/
def highestBit (x : Nat) : Option Nat := if x % 2 ^ 32 = 0 then none else some (x % 2 ^ 32).log2

/-- `1 << n` as a `size_t`: bit 31 is the sign, which is extended. -/
def intBit (n : Nat) : Nat := if n = 31 then 2 ^ 64 - 2 ^ 31 else 2 ^ n

/-- `1U << n`. -/
def uintBit (n : Nat) : Nat := 2 ^ n % 2 ^ 32

def pos (idx : Nat) : Nat := (idx + fbs) % 2 ^ 64

/-- `bucket_idx` and `bucket_off`. -/
def locate (idx : Nat) : Option (Nat × Nat) :=
  (highestBit (pos idx)).map fun hibit =>
    ((hibit + 2 ^ 64 - fbsHibit) % 2 ^ 64, pos idx ^^^ intBit hibit)

/-- The elements that `try_allocate_bucket` allocates. -/
def bucketElems (bucketIdx : Nat) : Nat := uintBit (bucketIdx + fbsHibit)

variable {T : Type} {n : Nat}

/-- A new log, with the content of its first bucket. -/
def empty (junk : Nat → T) : BucketedLog T n := ⟨fun b => if b = 0 then some junk else none⟩

/-- `if (buckets_[i] == NULL) try_allocate_bucket(i)`; `junk` is what a new bucket holds. -/
def tryAllocate (log : BucketedLog T n) (junk : Nat → T) (b : Nat) : BucketedLog T n :=
  ⟨Function.update log.buckets b (some ((log.buckets b).getD junk))⟩

/-- The loop of `ensure_alloc`. -/
def ensureFrom (log : BucketedLog T n) (junk : Nat → T) : (i count : Nat) → BucketedLog T n
  | _, 0 => log
  | i, count + 1 => ensureFrom (log.tryAllocate junk i) junk (i + 1) count

def ensureAlloc (log : BucketedLog T n) (junk : Nat → T) (startIdx endIdx : Nat) :
    Option (BucketedLog T n) :=
  (locate startIdx).bind fun first => (locate endIdx).bind fun last =>
    if first.1 ≤ last.1 ∧ n ≤ last.1 then none
    else some (log.ensureFrom junk first.1 (last.1 + 1 - first.1))

/-- `buckets_[b][off] = val`. -/
def store (log : BucketedLog T n) (b off : Nat) (val : T) : Option (BucketedLog T n) :=
  if b < n ∧ off < bucketElems b then
    (log.buckets b).map fun elems =>
      ⟨Function.update log.buckets b (some (Function.update elems off val))⟩
  else none

/-- `buckets_[b][off]`. -/
def load (log : BucketedLog T n) (b off : Nat) : Option T :=
  if b < n ∧ off < bucketElems b then (log.buckets b).map fun elems => elems off else none

/-- `set` of one element. -/
def set (log : BucketedLog T n) (junk : Nat → T) (idx : Nat) (val : T) : Option (BucketedLog T n) :=
  (locate idx).bind fun p =>
    if p.1 < n then (log.tryAllocate junk p.1).store p.1 p.2 val else none

/-- `set_unsafe` of one element. -/
def setUnsafe (log : BucketedLog T n) (idx : Nat) (val : T) : Option (BucketedLog T n) :=
  (locate idx).bind fun p => log.store p.1 p.2 val

/-- `get` of one element. -/
def get (log : BucketedLog T n) (idx : Nat) : Option T :=
  (locate idx).bind fun p => log.load p.1 p.2

/-! ## Where an index leads -/

/-- The index leads to an element of one of the buckets. -/
def Lands (n idx : Nat) : Prop :=
  ∃ b off, locate idx = some (b, off) ∧ b < n ∧ off < bucketElems b

theorem pos_eq {idx : Nat} (h : idx < 2 ^ 36) : pos idx = idx + 16 := by
  rw [pos, fbs]
  exact Nat.mod_eq_of_lt (by omega)

/-- The number without its highest bit. -/
theorem xor_highest_lt {x : Nat} (h : x ≠ 0) : x ^^^ 2 ^ x.log2 < 2 ^ x.log2 := by
  have hone : x / 2 ^ x.log2 = 1 :=
    Nat.div_eq_of_lt_le (by rw [Nat.one_mul]; exact Nat.log2_self_le h)
      (by rw [Nat.mul_comm, ← Nat.pow_succ]; exact Nat.lt_log2_self)
  have hdiv : (x ^^^ 2 ^ x.log2) / 2 ^ x.log2 = 0 := by
    rw [Nat.xor_div_two_pow, hone, Nat.div_self (Nat.two_pow_pos _), Nat.xor_self]
  exact (Nat.div_eq_zero_iff_lt (Nat.two_pow_pos _)).mp hdiv

/-- A number above `2 ^ k` stays so when a lower bit is turned. -/
theorem le_xor_of_lt {x y k : Nat} (hx : 2 ^ k ≤ x) (hy : y < 2 ^ k) : 2 ^ k ≤ x ^^^ y := by
  have hdiv : (x ^^^ y) / 2 ^ k = x / 2 ^ k := by
    rw [Nat.xor_div_two_pow, Nat.div_eq_of_lt hy, Nat.xor_zero]
  have hpos : 1 ≤ x / 2 ^ k := (Nat.one_le_div_iff (Nat.two_pow_pos k)).mpr hx
  rw [← hdiv] at hpos
  exact (Nat.one_le_div_iff (Nat.two_pow_pos k)).mp hpos

theorem log2_bounds {x : Nat} (h1 : 16 ≤ x) (h2 : x < 2 ^ 31) : 4 ≤ x.log2 ∧ x.log2 ≤ 30 := by
  have hne : x ≠ 0 := by omega
  exact ⟨(Nat.le_log2 hne).mpr h1, Nat.lt_succ_iff.mp ((Nat.log2_lt hne).mpr h2)⟩

/-- Below `2 ^ 31` the highest bit is found, and it is not the sign. -/
theorem locate_low {idx : Nat} (h : idx + 16 < 2 ^ 31) :
    locate idx = some ((idx + 16).log2 - 4, (idx + 16) ^^^ 2 ^ (idx + 16).log2) := by
  obtain ⟨h4, h30⟩ := log2_bounds (by omega : 16 ≤ idx + 16) h
  have hmod : (idx + 16) % 2 ^ 32 = idx + 16 := Nat.mod_eq_of_lt (by omega)
  have hbit : highestBit (idx + 16) = some (idx + 16).log2 := by
    rw [highestBit, hmod, if_neg (by omega)]
  have hb : ((idx + 16).log2 + 2 ^ 64 - fbsHibit) % 2 ^ 64 = (idx + 16).log2 - 4 := by
    rw [fbsHibit]
    omega
  rw [locate, pos_eq (by omega), hbit, Option.map_some, hb, intBit, if_neg (by omega)]

theorem bucketElems_eq {b : Nat} (h : b < 28) : bucketElems b = 2 ^ (b + 4) := by
  rw [bucketElems, uintBit, fbsHibit]
  exact Nat.mod_eq_of_lt (Nat.pow_lt_pow_right (by decide) (by omega))

/-- The bucket that holds an index has room for it. -/
theorem lands_low {idx : Nat} (h : idx + 16 < 2 ^ 31) (hn : idx + 16 < 2 ^ (n + 4)) :
    Lands n idx := by
  obtain ⟨h4, h30⟩ := log2_bounds (by omega : 16 ≤ idx + 16) h
  have hlog : (idx + 16).log2 < n + 4 := (Nat.log2_lt (by omega)).mpr hn
  refine ⟨_, _, locate_low h, by omega, ?_⟩
  rw [bucketElems_eq (by omega), Nat.sub_add_cancel h4]
  exact xor_highest_lt (by omega)

theorem highestBit_eq {x hibit : Nat} (h : highestBit x = some hibit) :
    x % 2 ^ 32 ≠ 0 ∧ hibit = (x % 2 ^ 32).log2 ∧ hibit ≤ 31 := by
  rw [highestBit] at h
  split at h
  · cases h
  · next hne =>
    cases h
    exact ⟨hne, rfl, Nat.lt_succ_iff.mp ((Nat.log2_lt hne).mpr (Nat.mod_lt _ (by decide)))⟩

/-- From `2 ^ 31` on the offset is outside every bucket: the sign has been extended into
it, or the bits above the 32nd are left in it. -/
theorem off_large {idx b off : Nat} (h : 2 ^ 31 ≤ idx + 16) (hidx : idx < 2 ^ 36 - 16)
    (hl : locate idx = some (b, off)) : 2 ^ 32 ≤ off := by
  obtain ⟨hibit, hbit, heq⟩ := Option.map_eq_some_iff.mp hl
  rw [pos_eq (by omega)] at hbit heq
  obtain ⟨-, hlog, hle⟩ := highestBit_eq hbit
  obtain ⟨-, rfl⟩ := Prod.mk.inj heq
  by_cases h31 : hibit = 31
  · rw [intBit, if_pos h31, Nat.xor_comm]
    exact Nat.le_trans (by decide) (le_xor_of_lt (show 2 ^ 36 ≤ 2 ^ 64 - 2 ^ 31 by decide)
      (by omega : idx + 16 < 2 ^ 36))
  · rw [intBit, if_neg h31]
    have hge : 2 ^ 32 ≤ idx + 16 := by
      by_contra hlt
      have hmod : (idx + 16) % 2 ^ 32 = idx + 16 := Nat.mod_eq_of_lt (by omega)
      rw [hmod] at hlog
      have : 31 ≤ (idx + 16).log2 := (Nat.le_log2 (by omega)).mpr h
      omega
    exact le_xor_of_lt hge (Nat.pow_lt_pow_right (by decide) (by omega))

theorem bucketElems_le (b : Nat) : bucketElems b < 2 ^ 32 := Nat.mod_lt _ (by decide)

theorem lands_iff {n idx : Nat} (hn : n = 24 ∨ n = 32) (h : idx < 16 * (2 ^ n - 1)) :
    Lands n idx ↔ idx + 16 < 2 ^ 31 := by
  have hidx : idx < 2 ^ 36 - 16 ∧ idx + 16 < 2 ^ (n + 4) := by
    rcases hn with rfl | rfl
    · omega
    · omega
  constructor
  · rintro ⟨b, off, hl, -, hoff⟩
    by_contra hge
    have := off_large (Nat.not_lt.mp hge) hidx.1 hl
    have := bucketElems_le b
    omega
  · exact fun hlow => lands_low hlow hidx.2

/-- No two indexes lead to one place: the highest bit turned back gives the position. -/
theorem locate_injective {idx idx' : Nat} {p : Nat × Nat} (h : idx < 2 ^ 36) (h' : idx' < 2 ^ 36)
    (hl : locate idx = some p) (hl' : locate idx' = some p) : idx = idx' := by
  obtain ⟨hibit, hbit, rfl⟩ := Option.map_eq_some_iff.mp hl
  obtain ⟨hibit', hbit', heq⟩ := Option.map_eq_some_iff.mp hl'
  obtain ⟨-, -, hle⟩ := highestBit_eq hbit
  obtain ⟨-, -, hle'⟩ := highestBit_eq hbit'
  obtain ⟨hb, hoff⟩ := Prod.mk.inj heq
  obtain rfl : hibit' = hibit := by
    rw [fbsHibit] at hb
    omega
  have hpos := congrArg (· ^^^ intBit hibit') hoff
  simp only [Nat.xor_assoc, Nat.xor_self, Nat.xor_zero] at hpos
  rw [pos_eq h, pos_eq h'] at hpos
  omega

/-! ## Elements -/

@[simp] theorem tryAllocate_self (log : BucketedLog T n) (junk : Nat → T) (b : Nat) :
    (log.tryAllocate junk b).buckets b = some ((log.buckets b).getD junk) :=
  Function.update_self _ _ _

theorem tryAllocate_other (log : BucketedLog T n) (junk : Nat → T) {b b' : Nat} (h : b' ≠ b) :
    (log.tryAllocate junk b).buckets b' = log.buckets b' := Function.update_of_ne h _ _

theorem load_store_self {log log' : BucketedLog T n} {b off : Nat} {val : T}
    (h : log.store b off val = some log') : log'.load b off = some val := by
  rw [store] at h
  split at h
  · next hin =>
    obtain ⟨elems, -, rfl⟩ := Option.map_eq_some_iff.mp h
    rw [load, if_pos hin]
    simp
  · cases h

theorem load_store_other {log log' : BucketedLog T n} {b off b' off' : Nat} {val : T}
    (h : log.store b off val = some log') (hne : (b', off') ≠ (b, off)) :
    log'.load b' off' = log.load b' off' := by
  rw [store] at h
  split at h
  · next hin =>
    obtain ⟨elems, helems, rfl⟩ := Option.map_eq_some_iff.mp h
    rw [load, load]
    by_cases hb : b' = b
    · subst hb
      have hoff : off' ≠ off := fun heq => hne (by rw [heq])
      simp [helems, hoff]
    · simp [hb]
  · cases h

/-- Allocation keeps what is in the buckets. -/
theorem load_tryAllocate {log : BucketedLog T n} {junk : Nat → T} {b b' off : Nat} {val : T}
    (h : log.load b' off = some val) : (log.tryAllocate junk b).load b' off = some val := by
  rw [load] at h ⊢
  split at h
  · next hin =>
    obtain ⟨elems, helems, rfl⟩ := Option.map_eq_some_iff.mp h
    rw [if_pos hin]
    by_cases hb : b' = b
    · subst hb
      rw [tryAllocate_self, helems]
      rfl
    · rw [tryAllocate_other _ _ hb, helems]
      rfl
  · cases h

/-- `set` of an index that leads to an element stores the value there, and every other
element that could be read is as before. -/
theorem set_spec {idx : Nat} (h : Lands n idx) (log : BucketedLog T n) (junk : Nat → T) (val : T) :
    ∃ log', log.set junk idx val = some log' ∧ log'.get idx = some val ∧
      ∀ idx' val', idx < 2 ^ 36 → idx' < 2 ^ 36 → idx' ≠ idx → log.get idx' = some val' →
        log'.get idx' = some val' := by
  obtain ⟨b, off, hl, hb, hoff⟩ := h
  obtain ⟨log', hstore⟩ : ∃ log', (log.tryAllocate junk b).store b off val = some log' := by
    rw [store, if_pos ⟨hb, hoff⟩, tryAllocate_self]
    exact ⟨_, rfl⟩
  refine ⟨log', ?_, ?_, fun idx' val' hidx hidx' hne hget => ?_⟩
  · rw [set, hl, Option.bind_some, if_pos hb]
    exact hstore
  · rw [get, hl]
    exact load_store_self hstore
  · obtain ⟨⟨b', off'⟩, hl', hload⟩ := Option.bind_eq_some_iff.mp hget
    have hplace : (b', off') ≠ (b, off) := fun heq =>
      hne (locate_injective hidx' hidx hl' (by rw [hl, heq]))
    rw [get, hl', Option.bind_some, load_store_other hstore hplace]
    exact load_tryAllocate hload

/-! ## Allocation -/

/-- A loop over `count` buckets from `i` on, the step at a bucket allocates it and leaves the
others: the buckets of the range are allocated, and those that were have the same content. -/
theorem allocated_loop {L E : Type} {buckets : L → Nat → Option E} {junk : E} {step : L → Nat → L}
    (loop : L → Nat → Nat → L) (hzero : ∀ log i, loop log i 0 = log)
    (hsucc : ∀ log i count, loop log i (count + 1) = loop (step log i) (i + 1) count)
    (hself : ∀ log i, buckets (step log i) i = some ((buckets log i).getD junk))
    (hother : ∀ log i b, b ≠ i → buckets (step log i) b = buckets log b) (b count : Nat) :
    ∀ log i, buckets (loop log i count) b =
      if i ≤ b ∧ b < i + count then some ((buckets log b).getD junk) else buckets log b := by
  induction count with
  | zero =>
    intro log i
    rw [hzero, if_neg (by omega)]
  | succ count ih =>
    intro log i
    rw [hsucc, ih]
    by_cases hi : b = i
    · subst hi
      rw [hself, if_neg (by omega), if_pos (by omega)]
    · rw [hother _ _ _ hi]
      by_cases hin : i + 1 ≤ b ∧ b < i + 1 + count
      · rw [if_pos hin, if_pos (by omega)]
      · rw [if_neg hin, if_neg (by omega)]

theorem ensureFrom_buckets (junk : Nat → T) (b count : Nat) (log : BucketedLog T n) (i : Nat) :
    (log.ensureFrom junk i count).buckets b =
      if i ≤ b ∧ b < i + count then some ((log.buckets b).getD junk) else log.buckets b :=
  allocated_loop (fun (log : BucketedLog T n) i count => log.ensureFrom junk i count)
    (fun _ _ => rfl) (fun _ _ _ => rfl) (fun log i => tryAllocate_self log junk i)
    (fun log _ _ h => tryAllocate_other log junk h) b count log i

/-- `ensure_alloc` of the range returns, and the bucket of the index is allocated. -/
def EnsuresAlloc (log : BucketedLog T n) (junk : Nat → T) (startIdx endIdx idx : Nat) : Prop :=
  ∃ log', log.ensureAlloc junk startIdx endIdx = some log' ∧
    ∃ b off, locate idx = some (b, off) ∧ log'.buckets b ≠ none

theorem log2_le_log2 {x y : Nat} (hx : x ≠ 0) (h : x ≤ y) : x.log2 ≤ y.log2 :=
  (Nat.le_log2 (by omega)).mpr (Nat.le_trans (Nat.log2_self_le hx) h)

/-- The bucket that the end of a range is taken to lie in. -/
theorem locate_end {e : Nat} (he : e < 2 ^ 36 - 16) (h : 16 ≤ (e + 16) % 2 ^ 32) :
    ∃ off, locate e = some (((e + 16) % 2 ^ 32).log2 - 4, off) := by
  have hlog := (Nat.le_log2 (by omega : (e + 16) % 2 ^ 32 ≠ 0)).mpr (show 2 ^ 4 ≤ _ from h)
  have hlt := (Nat.log2_lt (by omega : (e + 16) % 2 ^ 32 ≠ 0)).mpr (Nat.mod_lt _ (by decide))
  have hb : (((e + 16) % 2 ^ 32).log2 + 2 ^ 64 - fbsHibit) % 2 ^ 64 =
      ((e + 16) % 2 ^ 32).log2 - 4 := by
    rw [fbsHibit]
    omega
  rw [locate, pos_eq (by omega), highestBit, if_neg (by omega), Option.map_some, hb]
  exact ⟨_, rfl⟩

/-- For an index below `2 ^ 31` a range that contains it is allocated up to its bucket
exactly where the end of the range, cut to 32 bits, has a bit as high as the index. -/
theorem ensuresAlloc_iff [Inhabited T] {s idx e : Nat} (hlow : idx + 16 < 2 ^ 31) (hs : s ≤ idx)
    (he : e < 2 ^ 36 - 16) (hn : n ≤ 32) (hcap : e + 16 < 2 ^ (n + 4)) :
    (∀ (log : BucketedLog T n) (junk : Nat → T), log.EnsuresAlloc junk s e idx) ↔
      2 ^ (idx + 16).log2 ≤ (e + 16) % 2 ^ 32 := by
  obtain ⟨h4, h30⟩ := log2_bounds (by omega : 16 ≤ idx + 16) hlow
  obtain ⟨hs4, -⟩ := log2_bounds (by omega : 16 ≤ s + 16) (by omega)
  have hfirst : (s + 16).log2 ≤ (idx + 16).log2 := log2_le_log2 (by omega) (by omega)
  have hidx := locate_low hlow
  constructor
  · intro h
    obtain ⟨log', hlog, b, off, hb, halloc⟩ := h (empty fun _ => default) fun _ => default
    rw [hidx] at hb
    cases hb
    rw [ensureAlloc, locate_low (by omega), Option.bind_some] at hlog
    obtain ⟨⟨b2, off2⟩, hend, hlog⟩ := Option.bind_eq_some_iff.mp hlog
    dsimp only at hlog
    split at hlog
    · cases hlog
    · next hout =>
      cases hlog
      obtain ⟨hibit, hbit, heq⟩ := Option.map_eq_some_iff.mp hend
      rw [pos_eq (by omega)] at hbit
      obtain ⟨hne, hlog, hle⟩ := highestBit_eq hbit
      have hb2 := (Prod.mk.inj heq).1
      rw [fbsHibit] at hb2
      by_contra hlt
      have hsmall : hibit < (idx + 16).log2 := by
        rw [hlog]
        exact Nat.lt_of_not_le fun hle => hlt ((Nat.le_log2 hne).mp hle)
      rw [ensureFrom_buckets, if_neg (by omega), empty] at halloc
      refine halloc (if_neg ?_)
      omega
  · intro h log junk
    have h16 : 16 ≤ (e + 16) % 2 ^ 32 :=
      Nat.le_trans (show 2 ^ 4 ≤ _ from Nat.pow_le_pow_right (by decide) h4) h
    obtain ⟨off2, hend⟩ := locate_end he h16
    have hne : (e + 16) % 2 ^ 32 ≠ 0 := by omega
    have hlast := (Nat.le_log2 hne).mpr h
    have hbound : ((e + 16) % 2 ^ 32).log2 < n + 4 :=
      (Nat.log2_lt hne).mpr (Nat.lt_of_le_of_lt (Nat.mod_le _ _) hcap)
    refine ⟨log.ensureFrom junk ((s + 16).log2 - 4)
      (((e + 16) % 2 ^ 32).log2 - 4 + 1 - ((s + 16).log2 - 4)), ?_, _, _, hidx, ?_⟩
    · rw [ensureAlloc, locate_low (by omega), Option.bind_some, hend, Option.bind_some]
      exact if_neg (by dsimp only; omega)
    · rw [ensureFrom_buckets, if_pos (by omega)]
      exact Option.some_ne_none _

/-- For 24 and for 32 buckets: an index leads to an allocated element, and `ensure_alloc`
of a range around it allocates its bucket, exactly if its position is below `2 ^ 31` and
the end of the range, cut to 32 bits, has a bit as high; with 24 buckets that is always so.
Distinct indexes lead to distinct places, or to none. -/
theorem slots_iff [Inhabited T] {s idx e : Nat} (hn : n = 24 ∨ n = 32) (hs : s ≤ idx) (he : idx ≤ e)
    (hcap : e < 16 * (2 ^ n - 1)) :
    ((Lands n idx ∧ ∀ (log : BucketedLog T n) (junk : Nat → T), log.EnsuresAlloc junk s e idx) ↔
      idx + 16 < 2 ^ 31 ∧ 2 ^ (idx + 16).log2 ≤ (e + 16) % 2 ^ 32) ∧
    (n = 24 → idx + 16 < 2 ^ 31 ∧ 2 ^ (idx + 16).log2 ≤ (e + 16) % 2 ^ 32) ∧
    ∀ idx' p, idx' < 16 * (2 ^ n - 1) → idx' ≠ idx → locate idx = some p → locate idx' ≠ some p := by
  have hbounds : n ≤ 32 ∧ 16 * (2 ^ n - 1) ≤ 2 ^ 36 - 16 ∧ e + 16 < 2 ^ (n + 4) := by
    rcases hn with rfl | rfl
    · omega
    · omega
  obtain ⟨h32, h36, hpow⟩ := hbounds
  refine ⟨?_, fun h24 => ?_, fun idx' p hidx' hne hp hp' => ?_⟩
  · rw [lands_iff hn (Nat.lt_of_le_of_lt he hcap)]
    refine and_congr_right fun hlow => ?_
    exact ensuresAlloc_iff hlow hs (by omega) h32 hpow
  · subst h24
    have hlog := Nat.log2_self_le (by omega : idx + 16 ≠ 0)
    omega
  · exact hne (locate_injective (by omega) (by omega) hp' hp)

theorem slots_twenty : Lands 24 20 ∧ ∀ (log : BucketedLog Nat 24) (junk : Nat → Nat),
    log.EnsuresAlloc junk 3 1000 20 :=
  (slots_iff (.inl rfl) (by decide) (by decide) (by decide)).1.mpr (by decide)

/-- Index `2 ^ 31 - 16` leads to no element, and the range from 1000 to `2 ^ 32` is allocated
as if it ended at 0. -/
theorem not_slots : ¬ Lands 32 (2 ^ 31 - 16) ∧
    ¬ ∀ (log : BucketedLog Nat 32) (junk : Nat → Nat), log.EnsuresAlloc junk 1000 (2 ^ 32) 1000 := by
  constructor
  · rw [lands_iff (.inr rfl) (by decide)]
    decide
  · rw [ensuresAlloc_iff (by decide) (Nat.le_refl _) (by decide) (by decide) (by decide)]
    decide

end BucketedLog

end Netplay
