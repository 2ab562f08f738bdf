import Netplay.BucketedLog

/-!
# Ranges of a bucketed log

The range forms of `set`, `set_unsafe` and `get`. Their loops count in bytes, and add them
to typed pointers; the cursor is moved before the copy that it is for. So the last copy of
a range starts behind the end of the caller's array.

Products by `sizeof(T)` are those of arrays in memory, which are not cut to 64 bits.
-/

namespace Netplay.BucketedLog

variable {T : Type} {n : Nat}

/-- `bucket_remaining`. -/
def bucketRemaining (sizeofT b off : Nat) : Nat :=
  (uintBit (b + fbsHibit) + 2 ^ 64 - off) % 2 ^ 64 * sizeofT

/-- The loop of the three operations, with its copy; `left` counts the buckets from `b` on,
behind which there are no pointers. -/
def copyLoop {σ : Type} (sizeofT : Nat) (copy : (b off dataOff bytes : Nat) → σ → Option σ) :
    (left b off dataRemaining dataOff : Nat) → σ → Option σ
  | 0, _, _, dataRemaining, _, s => if dataRemaining = 0 then some s else none
  | left + 1, b, off, dataRemaining, dataOff, s =>
    if dataRemaining = 0 then some s
    else
      let bytes := min (bucketRemaining sizeofT b off) dataRemaining
      (copy b off (dataOff + bytes) bytes s).bind
        (copyLoop sizeofT copy left (b + 1) 0 (dataRemaining - bytes) (dataOff + bytes))

/-- `memcpy` from `data + dataOff` to an element of a bucket, both of them typed pointers. -/
def copyIn (sizeofT : Nat) (data : List T) (b off dataOff bytes : Nat) (log : BucketedLog T n) :
    Option (BucketedLog T n) :=
  if b < n ∧ off + bytes / sizeofT ≤ bucketElems b ∧ dataOff + bytes / sizeofT ≤ data.length then
    (log.buckets b).map fun elems => ⟨Function.update log.buckets b (some fun i =>
      if off ≤ i ∧ i < off + bytes / sizeofT then data.getD (dataOff + (i - off)) (elems i)
      else elems i)⟩
  else none

/-- `memcpy` from an element of a bucket to `data + dataOff`. -/
def copyOut (sizeofT : Nat) (log : BucketedLog T n) (b off dataOff bytes : Nat) (data : List T) :
    Option (List T) :=
  if b < n ∧ off + bytes / sizeofT ≤ bucketElems b ∧ dataOff + bytes / sizeofT ≤ data.length then
    (log.buckets b).map fun elems => data.take dataOff ++
      (List.range (bytes / sizeofT)).map (fun i => elems (off + i)) ++
        data.drop (dataOff + bytes / sizeofT)
  else none

/-- `set` of a range. -/
def setRange (sizeofT : Nat) (log : BucketedLog T n) (junk : Nat → T) (idx : Nat) (data : List T) :
    Option (BucketedLog T n) :=
  (locate idx).bind fun p =>
    copyLoop sizeofT
      (fun b off dataOff bytes log =>
        (log.tryAllocate junk b).copyIn sizeofT data b off dataOff bytes)
      (n - p.1) p.1 p.2 (data.length * sizeofT) 0 log

/-- `set_unsafe` of a range. -/
def setRangeUnsafe (sizeofT : Nat) (log : BucketedLog T n) (idx : Nat) (data : List T) :
    Option (BucketedLog T n) :=
  (locate idx).bind fun p =>
    copyLoop sizeofT (copyIn sizeofT data) (n - p.1) p.1 p.2 (data.length * sizeofT) 0 log

/-- `get` of a range into the array, which has as many elements. -/
def getRange (sizeofT : Nat) (log : BucketedLog T n) (idx : Nat) (data : List T) :
    Option (List T) :=
  (locate idx).bind fun p =>
    copyLoop sizeofT (copyOut sizeofT log) (n - p.1) p.1 p.2 (data.length * sizeofT) 0 data

/-! ## What a range should do -/

/-- The elements of the range are the data, and the others that could be read are as before. -/
structure HoldsRange (log log' : BucketedLog T n) (idx : Nat) (data : List T) : Prop where
  range : ∀ i, i < data.length → log'.get (idx + i) = data[i]?
  others : ∀ j val, (∀ i, i < data.length → j ≠ idx + i) → log.get j = some val →
    log'.get j = some val

def SetsRange (sizeofT : Nat) (log : BucketedLog T n) (junk : Nat → T) (idx : Nat)
    (data : List T) : Prop :=
  ∃ log', log.setRange sizeofT junk idx data = some log' ∧ log.HoldsRange log' idx data

def SetsRangeUnsafe (sizeofT : Nat) (log : BucketedLog T n) (idx : Nat) (data : List T) : Prop :=
  ∃ log', log.setRangeUnsafe sizeofT idx data = some log' ∧ log.HoldsRange log' idx data

/-- The elements of the range are in the array. -/
def GetsRange (sizeofT : Nat) (log : BucketedLog T n) (idx : Nat) (data : List T) : Prop :=
  ∃ data', log.getRange sizeofT idx data = some data' ∧ data'.length = data.length ∧
    ∀ i, i < data.length → data'[i]? = log.get (idx + i)

/-! ## What it does -/

section

variable {σ : Type} {sizeofT len : Nat} {copy : (b off dataOff bytes : Nat) → σ → Option σ}

theorem copyLoop_zero (left b off dataOff : Nat) (s : σ) :
    copyLoop sizeofT copy left b off 0 dataOff s = some s := by
  cases left <;> rfl

/-- Where a copy that leaves the caller's array is undefined, the loop over any elements
is: its last copy starts at the number of their bytes. -/
theorem copyLoop_undefined (Fits : σ → Prop) (hsize : 1 ≤ sizeofT)
    (hcopy : ∀ b off dataOff bytes s, Fits s → len < dataOff + bytes / sizeofT →
      copy b off dataOff bytes s = none)
    (hfits : ∀ b off dataOff bytes s s', Fits s → copy b off dataOff bytes s = some s' → Fits s')
    (left : Nat) : ∀ {b off elems dataOff : Nat} {s : σ}, Fits s → 0 < elems →
      dataOff + elems * sizeofT = len * sizeofT →
      copyLoop sizeofT copy left b off (elems * sizeofT) dataOff s = none := by
  induction left with
  | zero =>
    intro b off elems dataOff s _ helems _
    exact if_neg (Nat.mul_ne_zero (by omega) (by omega))
  | succ left ih =>
    intro b off elems dataOff s hs helems hsum
    have hne : elems * sizeofT ≠ 0 := Nat.mul_ne_zero (by omega) (by omega)
    have hlen : len ≤ len * sizeofT := Nat.le_mul_of_pos_right len hsize
    rw [copyLoop, if_neg hne]
    by_cases hlast : elems * sizeofT ≤ bucketRemaining sizeofT b off
    · have hdiv : elems * sizeofT / sizeofT = elems := Nat.mul_div_cancel _ hsize
      have hnone : copy b off (dataOff + elems * sizeofT) (elems * sizeofT) s = none :=
        hcopy _ _ _ _ s hs (by rw [hdiv]; omega)
      rw [Nat.min_eq_right hlast]
      simp only [hnone, Option.bind_none]
    · have hlt := Nat.not_le.mp hlast
      rw [Nat.min_eq_left (Nat.le_of_lt hlt)]
      rw [bucketRemaining] at hlt ⊢
      generalize (uintBit (b + fbsHibit) + 2 ^ 64 - off) % 2 ^ 64 = room at hlt ⊢
      have hroom : room < elems := Nat.lt_of_mul_lt_mul_right hlt
      refine Option.bind_eq_none_iff.mpr fun s' hs' => ?_
      rw [← Nat.sub_mul]
      refine ih (hfits _ _ _ _ s s' hs hs') (Nat.sub_pos_of_lt hroom) ?_
      rw [Nat.sub_mul]
      omega

end

variable {sizeofT idx : Nat}

theorem exists_locate (h : idx + 16 ≤ 2 ^ 31) : ∃ p, locate idx = some p := by
  have hmod : (idx + 16) % 2 ^ 32 = idx + 16 := Nat.mod_eq_of_lt (by omega)
  rw [locate, pos_eq (by omega), highestBit, hmod, if_neg (by omega)]
  exact ⟨_, rfl⟩

theorem copyIn_undefined {data : List T} {b off dataOff bytes : Nat} {log : BucketedLog T n}
    (h : data.length < dataOff + bytes / sizeofT) :
    log.copyIn sizeofT data b off dataOff bytes = none :=
  if_neg fun hin => Nat.not_le.mpr h hin.2.2

theorem copyOut_undefined {data : List T} {b off dataOff bytes : Nat} {log : BucketedLog T n}
    (h : data.length < dataOff + bytes / sizeofT) :
    log.copyOut sizeofT b off dataOff bytes data = none :=
  if_neg fun hin => Nat.not_le.mpr h hin.2.2

theorem copyOut_length {data data' : List T} {b off dataOff bytes : Nat} {log : BucketedLog T n}
    (h : log.copyOut sizeofT b off dataOff bytes data = some data') :
    data'.length = data.length := by
  rw [copyOut] at h
  generalize bytes / sizeofT = count at h
  split at h
  · next hin =>
    obtain ⟨elems, -, rfl⟩ := Option.map_eq_some_iff.mp h
    simp only [List.length_append, List.length_take, List.length_map, List.length_range,
      List.length_drop]
    omega
  · cases h

variable {data : List T}

theorem setRange_undefined (hsize : 1 ≤ sizeofT) (log : BucketedLog T n) (junk : Nat → T)
    (hne : data ≠ []) : log.setRange sizeofT junk idx data = none := by
  refine Option.bind_eq_none_iff.mpr fun p _ => ?_
  exact copyLoop_undefined (fun _ => True) hsize
    (fun _ _ _ _ _ _ h => copyIn_undefined h) (fun _ _ _ _ _ _ _ _ => trivial) _ trivial
    (List.length_pos_iff.mpr hne) (Nat.zero_add _)

theorem setRangeUnsafe_undefined (hsize : 1 ≤ sizeofT) (log : BucketedLog T n) (hne : data ≠ []) :
    log.setRangeUnsafe sizeofT idx data = none := by
  refine Option.bind_eq_none_iff.mpr fun p _ => ?_
  exact copyLoop_undefined (fun _ => True) hsize
    (fun _ _ _ _ _ _ h => copyIn_undefined h) (fun _ _ _ _ _ _ _ _ => trivial) _ trivial
    (List.length_pos_iff.mpr hne) (Nat.zero_add _)

theorem getRange_undefined (hsize : 1 ≤ sizeofT) (log : BucketedLog T n) (hne : data ≠ []) :
    log.getRange sizeofT idx data = none := by
  refine Option.bind_eq_none_iff.mpr fun p _ => ?_
  exact copyLoop_undefined (fun d => d.length = data.length) hsize
    (fun _ _ _ _ _ hd h => copyOut_undefined (by rw [hd]; exact h))
    (fun _ _ _ _ _ _ hd h => (copyOut_length h).trans hd) _ rfl
    (List.length_pos_iff.mpr hne) (Nat.zero_add _)

/-- The range operations agree with those on elements exactly on the empty range. -/
theorem ranges_iff (hsize : 1 ≤ sizeofT) (log : BucketedLog T n) (junk : Nat → T)
    (hidx : idx + data.length + 16 ≤ 2 ^ 31) :
    (log.SetsRange sizeofT junk idx data ↔ data = []) ∧
      (log.SetsRangeUnsafe sizeofT idx data ↔ data = []) ∧
      (log.GetsRange sizeofT idx data ↔ data = []) := by
  obtain ⟨p, hp⟩ : ∃ p, locate idx = some p := exists_locate (by omega)
  refine ⟨⟨?_, ?_⟩, ⟨?_, ?_⟩, ⟨?_, ?_⟩⟩
  · rintro ⟨log', hlog, -⟩
    by_contra hne
    cases (setRange_undefined hsize log junk hne).symm.trans hlog
  · rintro rfl
    refine ⟨log, ?_, fun i hi => absurd hi (Nat.not_lt_zero i), fun j val _ h => h⟩
    rw [setRange, hp, Option.bind_some, List.length_nil, Nat.zero_mul, copyLoop_zero]
  · rintro ⟨log', hlog, -⟩
    by_contra hne
    cases (setRangeUnsafe_undefined hsize log hne).symm.trans hlog
  · rintro rfl
    refine ⟨log, ?_, fun i hi => absurd hi (Nat.not_lt_zero i), fun j val _ h => h⟩
    rw [setRangeUnsafe, hp, Option.bind_some, List.length_nil, Nat.zero_mul, copyLoop_zero]
  · rintro ⟨data', hdata, -⟩
    by_contra hne
    cases (getRange_undefined hsize log hne).symm.trans hdata
  · rintro rfl
    refine ⟨[], ?_, rfl, fun i hi => absurd hi (Nat.not_lt_zero i)⟩
    rw [getRange, hp, Option.bind_some, List.length_nil, Nat.zero_mul, copyLoop_zero]

/-- No element at index 3. -/
theorem ranges_empty : SetsRange 8 (empty fun _ => 0 : BucketedLog Nat 24) (fun _ => 0) 3 [] :=
  (ranges_iff (by decide) _ _ (by decide)).1.mpr rfl

/-- One element at index 0 of a new log. -/
theorem not_ranges : ¬ SetsRange 8 (empty fun _ => 0 : BucketedLog Nat 24) (fun _ => 0) 0 [7] := by
  rintro ⟨log', hlog, -⟩
  cases (setRange_undefined (by decide) _ _ (by decide)).symm.trans hlog

end Netplay.BucketedLog
