import Mathlib.Algebra.Order.Ring.Nat
import Mathlib.Data.List.Basic
import Mathlib.Data.List.GetD
import Mathlib.Logic.Function.Basic
import Netplay.BlockTail
import Netplay.BucketedLog

/-!
# Logs of equal blocks

`__monolog_linear_base` of bytes: an index is a block and a position in it, and every block
has a buffer behind its end. The operations on one byte go from one block to the next; `write`,
`read` and what is copied through `ptr` stay with the block they start in.

An access outside the array of blocks, to a block that is not allocated or behind its buffer
is undefined.
-/

namespace Netplay

/-- `__monolog_linear_base<uint8_t>`: the blocks whose pointer is not null, with their bytes. -/
structure LinearLog (numBuckets blockSize : Nat) where
  buckets : Nat → Option (Nat → UInt8)

namespace LinearLog

/-- `BUFFER_SIZE`. -/
def bufferSize : Nat := 1024

variable {n B : Nat}

/-- A new log, with the content of its first block. -/
def empty (junk : Nat → UInt8) : LinearLog n B := ⟨fun b => if b = 0 then some junk else none⟩

/-- `if (buckets_[i] == NULL) try_allocate_bucket(i)`; `junk` is what a new block holds. -/
def tryAllocate (log : LinearLog n B) (junk : Nat → UInt8) (b : Nat) : LinearLog n B :=
  ⟨Function.update log.buckets b (some ((log.buckets b).getD junk))⟩

/-- The loop of `ensure_alloc`. -/
def ensureFrom (log : LinearLog n B) (junk : Nat → UInt8) : (i count : Nat) → LinearLog n B
  | _, 0 => log
  | i, count + 1 => ensureFrom (log.tryAllocate junk i) junk (i + 1) count

def ensureAlloc (log : LinearLog n B) (junk : Nat → UInt8) (idx1 idx2 : Nat) :
    Option (LinearLog n B) :=
  if idx1 / B ≤ idx2 / B ∧ n ≤ idx2 / B then none
  else some (log.ensureFrom junk (idx1 / B) (idx2 / B + 1 - idx1 / B))

/-- The bytes at a pointer into a block. -/
def load (log : LinearLog n B) (b off len : Nat) : Option (List UInt8) :=
  if b < n ∧ off + len ≤ B + bufferSize then
    (log.buckets b).map fun elems => (List.range len).map fun i => elems (off + i)
  else none

/-- `memcpy` to a pointer into a block. -/
def store (log : LinearLog n B) (b off : Nat) (data : List UInt8) : Option (LinearLog n B) :=
  if b < n ∧ off + data.length ≤ B + bufferSize then
    (log.buckets b).map fun elems => ⟨Function.update log.buckets b (some fun i =>
      if off ≤ i then data.getD (i - off) (elems i) else elems i)⟩
  else none

/-- `set`. -/
def set (log : LinearLog n B) (junk : Nat → UInt8) (idx : Nat) (val : UInt8) :
    Option (LinearLog n B) :=
  if idx / B < n then (log.tryAllocate junk (idx / B)).store (idx / B) (idx % B) [val] else none

/-- `set_unsafe`. -/
def setUnsafe (log : LinearLog n B) (idx : Nat) (val : UInt8) : Option (LinearLog n B) :=
  log.store (idx / B) (idx % B) [val]

/-- `get`. -/
def get (log : LinearLog n B) (idx : Nat) : Option UInt8 :=
  (log.load (idx / B) (idx % B) 1).bind List.head?

/-- `write`. -/
def write (log : LinearLog n B) (junk : Nat → UInt8) (offset : Nat) (data : List UInt8) :
    Option (LinearLog n B) :=
  if offset / B < n then
    (log.tryAllocate junk (offset / B)).store (offset / B) (offset % B) data
  else none

/-- `write_unsafe`, which is also the copy to `ptr(offset)`. -/
def writeUnsafe (log : LinearLog n B) (offset : Nat) (data : List UInt8) :
    Option (LinearLog n B) :=
  log.store (offset / B) (offset % B) data

/-- `read`. -/
def read (log : LinearLog n B) (offset len : Nat) : Option (List UInt8) :=
  log.load (offset / B) (offset % B) len

/-- The two copies of `append_pkt` through `ptr(offset)`. -/
def appendPkt (log : LinearLog n B) (offset : Nat) (ts pkt : List UInt8) :
    Option (LinearLog n B) :=
  (log.store (offset / B) (offset % B) ts).bind fun log =>
    log.store (offset / B) (offset % B + ts.length) pkt

/-- The blocks from that of `offset` to that of `offset + len` are in the array and allocated. -/
def Allocated (log : LinearLog n B) (offset len : Nat) : Prop :=
  ∀ b, offset / B ≤ b → b ≤ (offset + len) / B → b < n ∧ log.buckets b ≠ none

/-! ## Allocation -/

@[simp] theorem tryAllocate_self (log : LinearLog n B) (junk : Nat → UInt8) (b : Nat) :
    (log.tryAllocate junk b).buckets b = some ((log.buckets b).getD junk) :=
  Function.update_self _ _ _

theorem tryAllocate_other (log : LinearLog n B) (junk : Nat → UInt8) {b b' : Nat} (h : b' ≠ b) :
    (log.tryAllocate junk b).buckets b' = log.buckets b' := Function.update_of_ne h _ _

/-- A block that is allocated stays as it is. -/
theorem tryAllocate_eq {log : LinearLog n B} {junk : Nat → UInt8} {b : Nat}
    (h : log.buckets b ≠ none) : log.tryAllocate junk b = log := by
  obtain ⟨elems, helems⟩ := Option.ne_none_iff_exists'.mp h
  rw [tryAllocate, helems, Option.getD_some, ← helems, Function.update_eq_self]

theorem ensureFrom_buckets (junk : Nat → UInt8) (b count : Nat) (log : LinearLog n B) (i : Nat) :
    (log.ensureFrom junk i count).buckets b =
      if i ≤ b ∧ b < i + count then some ((log.buckets b).getD junk) else log.buckets b :=
  BucketedLog.allocated_loop (fun (log : LinearLog n B) i count => log.ensureFrom junk i count)
    (fun _ _ => rfl) (fun _ _ _ => rfl) (fun log i => tryAllocate_self log junk i)
    (fun log _ _ h => tryAllocate_other log junk h) b count log i

/-- What `ensure_alloc` is called for. -/
theorem allocated_ensureAlloc {log log' : LinearLog n B} {junk : Nat → UInt8} {offset len : Nat}
    (h : log.ensureAlloc junk offset (offset + len) = some log') : log'.Allocated offset len := by
  have hle : offset / B ≤ (offset + len) / B := Nat.div_le_div_right (Nat.le_add_right _ _)
  rw [ensureAlloc] at h
  split at h
  · cases h
  · next hin =>
    cases h
    intro b h1 h2
    refine ⟨by omega, ?_⟩
    rw [ensureFrom_buckets, if_pos (by omega)]
    exact Option.some_ne_none _

/-! ## Loads and stores -/

theorem load_eq_some {log : LinearLog n B} {b off len : Nat} {elems : Nat → UInt8} (hb : b < n)
    (hlen : off + len ≤ B + bufferSize) (h : log.buckets b = some elems) :
    log.load b off len = some ((List.range len).map fun i => elems (off + i)) := by
  rw [load, if_pos ⟨hb, hlen⟩, h, Option.map_some]

theorem store_eq_some {log log' : LinearLog n B} {b off : Nat} {data : List UInt8}
    (h : log.store b off data = some log') :
    (b < n ∧ off + data.length ≤ B + bufferSize) ∧ ∃ elems, log.buckets b = some elems ∧
      log'.buckets b = some (fun i => if off ≤ i then data.getD (i - off) (elems i) else elems i) ∧
      ∀ b', b' ≠ b → log'.buckets b' = log.buckets b' := by
  rw [store] at h
  split at h
  · next hin =>
    obtain ⟨elems, helems, rfl⟩ := Option.map_eq_some_iff.mp h
    exact ⟨hin, elems, helems, Function.update_self _ _ _, fun b' hb' => Function.update_of_ne hb' _ _⟩
  · cases h

/-- A copy is defined exactly where it stays in the block and its buffer. -/
theorem store_defined_iff {log : LinearLog n B} {b off : Nat} (data : List UInt8) (hb : b < n)
    (hbucket : log.buckets b ≠ none) :
    (∃ log', log.store b off data = some log') ↔ off + data.length ≤ B + bufferSize := by
  constructor
  · rintro ⟨log', h⟩
    exact (store_eq_some h).1.2
  · intro h
    obtain ⟨elems, helems⟩ := Option.ne_none_iff_exists'.mp hbucket
    rw [store, if_pos ⟨hb, h⟩, helems]
    exact ⟨_, rfl⟩

/-- A load from the block that was stored to. -/
theorem load_store_self {log log' : LinearLog n B} {b off : Nat} {data : List UInt8}
    (h : log.store b off data = some log') {i len : Nat} (hi : i + len ≤ data.length) :
    log'.load b (off + i) len = some ((data.drop i).take len) := by
  obtain ⟨⟨hb, hlen⟩, elems, -, hself, -⟩ := store_eq_some h
  rw [load_eq_some hb (by omega) hself]
  refine congrArg some (List.ext_getElem ?_ fun j hj hj' => ?_)
  · simp only [List.length_map, List.length_range, List.length_take, List.length_drop]
    omega
  · simp only [List.length_map, List.length_range] at hj
    have hlt : i + j < data.length := by omega
    have hoff : off + i + j - off = i + j := by omega
    simp [hoff, hlt, show off ≤ off + i + j by omega]

/-- A load that meets none of the elements that were stored. -/
theorem load_store_other {log log' : LinearLog n B} {b off b' off' len : Nat} {data : List UInt8}
    (h : log.store b off data = some log')
    (hne : b' ≠ b ∨ ∀ i, i < len → off' + i < off ∨ off + data.length ≤ off' + i) :
    log'.load b' off' len = log.load b' off' len := by
  obtain ⟨-, elems, helems, hself, hother⟩ := store_eq_some h
  by_cases hb : b' = b
  · subst hb
    have hout := hne.resolve_left fun hne => hne rfl
    have hmap : (List.range len).map (fun i => if off ≤ off' + i then
        data.getD (off' + i - off) (elems (off' + i)) else elems (off' + i)) =
        (List.range len).map fun i => elems (off' + i) := by
      apply List.map_congr_left
      intro i hi
      have hi' := hout i (List.mem_range.mp hi)
      split
      · rw [List.getD_eq_default _ _ (by omega)]
      · rfl
    rw [load, load, helems, hself, Option.map_some, Option.map_some, hmap]
  · rw [load, load, hother b' hb]

/-- The two copies of a record are one copy of its parts. -/
theorem appendPkt_eq (log : LinearLog n B) (offset : Nat) (ts pkt : List UInt8) :
    log.appendPkt offset ts pkt = log.writeUnsafe offset (ts ++ pkt) := by
  rw [appendPkt, writeUnsafe]
  generalize offset / B = b
  generalize offset % B = off
  by_cases hin : b < n ∧ off + (ts ++ pkt).length ≤ B + bufferSize
  · have hts : b < n ∧ off + ts.length ≤ B + bufferSize := by
      rw [List.length_append] at hin
      omega
    have hpkt : b < n ∧ off + ts.length + pkt.length ≤ B + bufferSize := by
      rw [List.length_append] at hin
      omega
    rw [store, store, if_pos hin, if_pos hts]
    cases helems : log.buckets b with
    | none => rfl
    | some elems =>
      simp only [Option.map_some, Option.bind_some, store, if_pos hpkt, Function.update_self,
        Function.update_idem]
      congr 4
      funext i
      by_cases hi : off + ts.length ≤ i
      · have hsub : i - off - ts.length = i - (off + ts.length) := by omega
        rw [if_pos hi, if_pos (by omega), if_pos (by omega),
          List.getD_eq_default ts _ (by omega), List.getD_append_right _ _ _ _ (by omega), hsub]
      · rw [if_neg hi]
        by_cases hoff : off ≤ i
        · rw [if_pos hoff, if_pos hoff, List.getD_append _ _ _ _ (by omega)]
        · rw [if_neg hoff, if_neg hoff]
  · rw [store, store, if_neg hin]
    split
    · cases helems : log.buckets b with
      | none => rfl
      | some elems =>
        rw [Option.map_some, Option.bind_some, store, if_neg]
        rintro ⟨hb, hlen⟩
        rw [List.length_append] at hin
        omega
    · rfl

/-! ## Bulk and element access -/

/-- `log'` holds the data at the offset, one byte at a time and as the suffixes of it, and
what `log` holds apart from it. -/
structure Agrees (log log' : LinearLog n B) (offset : Nat) (data : List UInt8) : Prop where
  get : ∀ i, i < data.length → log'.get (offset + i) = data[i]?
  read : ∀ i, i ≤ data.length →
    log'.read (offset + i) (data.length - i) = some (data.drop i)
  get_other : ∀ j, j < offset ∨ offset + data.length ≤ j → log'.get j = log.get j
  read_other : ∀ j len, j + len ≤ offset ∨ offset + data.length ≤ j →
    log'.read j len = log.read j len

/-- `write` and the copy through `ptr` stay in allocated memory and agree with the access to
elements, whatever the bytes are. -/
def BulkLaw (log : LinearLog n B) (offset len : Nat) : Prop :=
  ∀ (junk : Nat → UInt8) (data : List UInt8), data.length = len →
    (∃ log', log.write junk offset data = some log' ∧ log.Agrees log' offset data) ∧
    ∃ log', log.writeUnsafe offset data = some log' ∧ log.Agrees log' offset data

/-- Where the blocks are allocated, `write` is the copy through `ptr`. -/
theorem write_eq {log : LinearLog n B} {offset len : Nat} (h : log.Allocated offset len)
    (junk : Nat → UInt8) (data : List UInt8) :
    log.write junk offset data = log.writeUnsafe offset data := by
  have hblock := h (offset / B) (Nat.le_refl _) (Nat.div_le_div_right (Nat.le_add_right _ _))
  rw [write, writeUnsafe, if_pos hblock.1, tryAllocate_eq hblock.2]

/-- Positions of one block. -/
theorem div_mod_add {offset i : Nat} (hi : offset % B + i < B) :
    (offset + i) / B = offset / B ∧ (offset + i) % B = offset % B + i := by
  have hsplit : offset + i = B * (offset / B) + (offset % B + i) := by
    have := Nat.div_add_mod offset B
    omega
  constructor
  · rw [hsplit, Nat.mul_add_div (by omega), Nat.div_eq_of_lt hi, Nat.add_zero]
  · rw [hsplit, Nat.mul_add_mod, Nat.mod_eq_of_lt hi]

/-- The first position of the block behind. -/
theorem div_mod_next {offset i : Nat} (hB : 1 ≤ B) (hi : offset % B + i = B) :
    (offset + i) / B = offset / B + 1 ∧ (offset + i) % B = 0 := by
  have hsplit : offset + i = B * (offset / B + 1) := by
    have := Nat.div_add_mod offset B
    rw [Nat.mul_add, Nat.mul_one]
    omega
  constructor
  · rw [hsplit, Nat.mul_div_cancel_left _ hB]
  · rw [hsplit, Nat.mul_mod_right]

/-- A position outside the range is in another block or outside the copied part of this one. -/
theorem apart_of_outside {offset len j k : Nat} (hj : j + k ≤ offset ∨ offset + len ≤ j) :
    j / B ≠ offset / B ∨
      ∀ i, i < k → j % B + i < offset % B ∨ offset % B + len ≤ j % B + i := by
  by_cases hb : j / B = offset / B
  · right
    intro i hi
    have h1 := Nat.div_add_mod j B
    have h2 := Nat.div_add_mod offset B
    rw [hb] at h1
    omega
  · exact .inl hb

theorem agrees_of_store {log log' : LinearLog n B} {offset : Nat} {data : List UInt8}
    (hB : 1 ≤ B) (halloc : log.Allocated offset data.length)
    (hlen : offset % B + data.length ≤ B)
    (h : log.writeUnsafe offset data = some log') : log.Agrees log' offset data := by
  rw [writeUnsafe] at h
  refine ⟨fun i hi => ?_, fun i hi => ?_, fun j hj => ?_, fun j len hj => ?_⟩
  · obtain ⟨hdiv, hmod⟩ := div_mod_add (show offset % B + i < B by omega)
    rw [LinearLog.get, hdiv, hmod, load_store_self h (by omega), Option.bind_some,
      List.head?_take, if_neg (by omega), List.head?_drop]
  · rw [LinearLog.read]
    by_cases hin : offset % B + i < B
    · rw [(div_mod_add hin).1, (div_mod_add hin).2, load_store_self h (by omega),
        List.take_of_length_le (by rw [List.length_drop])]
    · -- Nothing is left to read, and the pointer is at the start of the next block
      have hend : i = data.length := by omega
      obtain ⟨hdiv, hmod⟩ := div_mod_next hB (show offset % B + i = B by omega)
      obtain ⟨hblock, hbucket⟩ := halloc ((offset + i) / B) (by omega) (by rw [hend])
      obtain ⟨-, -, -, -, hother⟩ := store_eq_some h
      rw [← hother _ (by omega)] at hbucket
      obtain ⟨elems, helems⟩ := Option.ne_none_iff_exists'.mp hbucket
      rw [hmod, load_eq_some hblock (by omega) helems, hend, Nat.sub_self, List.drop_length,
        List.range_zero, List.map_nil]
  · rw [LinearLog.get, LinearLog.get, load_store_other h (apart_of_outside (by omega))]
  · rw [LinearLog.read, LinearLog.read, load_store_other h (apart_of_outside hj)]

/-- A copy is defined exactly where it stays in the buffer of the block it starts in. -/
theorem writeUnsafe_defined_iff {log : LinearLog n B} {offset : Nat} {data : List UInt8}
    (halloc : log.Allocated offset data.length) :
    (∃ log', log.writeUnsafe offset data = some log') ↔
      offset % B + data.length ≤ B + bufferSize := by
  have hblock := halloc (offset / B) (Nat.le_refl _) (Nat.div_le_div_right (Nat.le_add_right _ _))
  exact store_defined_iff data hblock.1 hblock.2

theorem bulkLaw_of_le {log : LinearLog n B} {offset len : Nat} (hB : 1 ≤ B)
    (halloc : log.Allocated offset len) (hlen : offset % B + len ≤ B) :
    log.BulkLaw offset len := by
  intro junk data hdata
  subst hdata
  obtain ⟨log', hlog'⟩ := (writeUnsafe_defined_iff halloc).mpr (Nat.le_add_right_of_le hlen)
  rw [write_eq halloc]
  exact ⟨⟨log', hlog', agrees_of_store hB halloc hlen hlog'⟩,
    ⟨log', hlog', agrees_of_store hB halloc hlen hlog'⟩⟩

/-- Bytes that go over the end of the block do not reach the next one. -/
theorem get_next_of_write {log log' : LinearLog n B} {offset i : Nat} {data : List UInt8}
    (hB : 1 ≤ B) (hi : offset % B + i = B) (h : log.writeUnsafe offset data = some log') :
    log'.get (offset + i) = log.get (offset + i) := by
  rw [writeUnsafe] at h
  rw [LinearLog.get, LinearLog.get, load_store_other h]
  left
  have := (div_mod_next hB hi).1
  omega

theorem le_of_bulkLaw {log : LinearLog n B} {offset len : Nat} (hB : 1 ≤ B)
    (halloc : log.Allocated offset len) (h : log.BulkLaw offset len) :
    offset % B + len ≤ B := by
  by_contra hlen
  have hlt : offset % B < B := Nat.mod_lt _ hB
  obtain ⟨i, hi⟩ := Nat.exists_eq_add_of_le (Nat.le_of_lt hlt)
  obtain ⟨hdiv, hmod⟩ := div_mod_next hB hi.symm
  -- the first byte of the next block, which the data is to differ from
  obtain ⟨hblock, hbucket⟩ := halloc ((offset + i) / B) (by omega)
    (Nat.div_le_div_right (by omega))
  obtain ⟨elems, helems⟩ := Option.ne_none_iff_exists'.mp hbucket
  have hget : log.get (offset + i) = some (elems 0) := by
    rw [LinearLog.get, hmod, load_eq_some hblock (by omega) helems]
    rfl
  obtain ⟨-, log', hlog', hagrees⟩ := h (fun _ => 0) (List.replicate len (elems 0 + 1))
    List.length_replicate
  have hi' : i < (List.replicate len (elems 0 + 1)).length := by
    rw [List.length_replicate]
    omega
  have hgot := hagrees.get i hi'
  rw [get_next_of_write hB hi.symm hlog', hget, List.getElem?_eq_getElem hi',
    List.getElem_replicate, Option.some.injEq] at hgot
  exact absurd hgot.symm (by simp)

/-- One byte is always in one block. -/
theorem set_agrees {log : LinearLog n B} {idx : Nat} (hB : 1 ≤ B) (halloc : log.Allocated idx 1)
    (junk : Nat → UInt8) (val : UInt8) :
    ∃ log', log.set junk idx val = some log' ∧ log.setUnsafe idx val = some log' ∧
      log.Agrees log' idx [val] := by
  have hlt : idx % B < B := Nat.mod_lt _ hB
  obtain ⟨-, log', hlog', hagrees⟩ := bulkLaw_of_le hB halloc hlt junk [val] rfl
  exact ⟨log', (write_eq halloc junk [val]).trans hlog', hlog', hagrees⟩

/-- Bulk access agrees with element access exactly where the bytes are in one block. -/
theorem bulkLaw_iff (log : LinearLog n B) (offset len : Nat) (hB : 1 ≤ B)
    (halloc : log.Allocated offset len) : log.BulkLaw offset len ↔ offset % B + len ≤ B :=
  ⟨le_of_bulkLaw hB halloc, bulkLaw_of_le hB halloc⟩

/-- A new data log after `ensure_alloc` over its first two blocks. -/
def twoBlocks (n B : Nat) : LinearLog n B :=
  (empty fun _ => 0).ensureFrom (fun _ => 0) 0 2

theorem twoBlocks_eq (hn : 2 ≤ n) (hB : 1 ≤ B) :
    (empty fun _ => 0 : LinearLog n B).ensureAlloc (fun _ => 0) 0 (0 + B) = some (twoBlocks n B) := by
  rw [ensureAlloc, Nat.zero_add, Nat.zero_div, Nat.div_self hB, if_neg (by omega), twoBlocks]

theorem allocated_twoBlocks {offset len : Nat} (hn : 2 ≤ n) (hB : 1 ≤ B)
    (h : (offset + len) / B ≤ 1) : (twoBlocks n B).Allocated offset len := by
  intro b _ hb
  refine allocated_ensureAlloc (twoBlocks_eq hn hB) b ?_ ?_
  · rw [Nat.zero_div]
    exact Nat.zero_le b
  · rw [Nat.zero_add, Nat.div_self hB]
    exact Nat.le_trans hb h

theorem bulkLaw_block_end : (twoBlocks 1024 (2 ^ 30)).BulkLaw (2 ^ 30 - 9) 9 :=
  (bulkLaw_iff _ _ _ (by decide) (allocated_twoBlocks (by decide) (by decide) (by decide))).mpr
    (by decide)

/-- Two bytes from the last position of the first block. -/
theorem not_bulkLaw : ¬ ∀ (n B : Nat) (log : LinearLog n B) (offset len : Nat), 1 ≤ B →
    len ≤ 65535 + 8 → log.Allocated offset len → log.BulkLaw offset len := by
  intro h
  have halloc : (twoBlocks 1024 (2 ^ 30)).Allocated (2 ^ 30 - 1) 2 :=
    allocated_twoBlocks (by decide) (by decide) (by decide)
  have hlaw := h 1024 (2 ^ 30) _ _ _ (by decide) (by decide) halloc
  exact absurd (le_of_bulkLaw (by decide) halloc hlaw) (by decide)

end LinearLog

end Netplay
