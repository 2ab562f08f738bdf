import Mathlib.Logic.Function.Basic
import Mathlib.Logic.Relation
import Netplay.Attribute
import Netplay.BlockTail

/-!
# The packet store and its writers

The shared memory of `packet_store` and `insert_pktburst` as the sequence of its
atomic steps: the two `fetch_add`s, the load of `num_filters_`, every list
append (list creation, tail `fetch_add`, and for each entry bucket allocation
and store), every `set_without_alloc`, every `append_pkt` and the
compare-exchange of `end`.

Counters are unbounded. An index into the data log past its last block is
undefined and gives no step. Two bounds of the C++ are not steps of the model:
an id behind the last cell of the offset log's array and a record that leaves
the buffer behind its block. `Store.OffsetsFit` and `System.RecordsFit` say
that a store keeps them.
-/

namespace Netplay

open Packet NetplayUtils

/-! ## Entry lists -/

/-- A position of an entry list. Between the `fetch_add` and the store it is
`reserved`; the value that will be stored there is known to nobody who reads. -/
inductive Slot where
  | free : Slot
  | reserved : Nat → Slot
  | stored : Nat → Slot
  deriving DecidableEq, Repr

/-- What a read of the slot returns; `junk` is the memory's content before the store. -/
def Slot.read (junk : Nat) : Slot → Nat
  | .stored v => v
  | _ => junk

/-- `entry_list` behind the pointer of an index; `created` is that the pointer is not null. -/
structure EntryList where
  created : Bool
  tail : Nat
  buckets : Nat → Bool
  slots : Nat → Slot

def EntryList.empty : EntryList := ⟨false, 0, fun b => b == 0, fun _ => .free⟩

/-- `hibit - FBS_HIBIT` for position `idx`. -/
def bucketOf (idx : Nat) : Nat := Nat.log2 (idx + 16) - 4

/-- The lists of the five indexes, and of each character in each second. -/
inductive ListKey where
  | index : Nat → Nat → ListKey
  | character : Nat → Nat → ListKey
  deriving DecidableEq, Repr

/-! ## The store -/

structure Mbuf where
  data : Memory
  pktLen : UInt32

/-- `uint16_t pkt_size = rte_pktmbuf_pkt_len(pkts[i])`. -/
def Mbuf.size (m : Mbuf) : Nat := m.pktLen.toNat % 65536

/-- A call of `insert_pktburst` in second `now`. -/
structure Burst where
  now : UInt32
  pkts : List Mbuf

def Burst.cnt (b : Burst) : Nat := b.pkts.length

/-- The bytes a burst requests: a second and a packet for each of its buffers. -/
def Burst.nbytes (b : Burst) : Nat :=
  b.cnt * 8 + (b.pkts.map fun m => m.pktLen.toNat).sum

/-- `BLOCK_SIZE` and `NBUCKETS` of the data log. -/
def blockSize : Nat := 1073741824
def numBlocks : Nat := 1024

structure Store where
  readId : Nat
  writeId : Nat
  dtail : Nat
  offlens : Nat → Option Nat
  dlog : Nat → Nat → UInt8
  lists : ListKey → EntryList
  numFilters : Nat
  filters : Nat → List PacketFilter

/-- A store with its characters registered and nothing inserted. -/
def Store.init (numFilters : Nat) (filters : Nat → List PacketFilter) : Store :=
  ⟨0, 0, 0, fun _ => none, fun _ _ => 0, fun _ => .empty, numFilters, filters⟩

/-- `num_pkts`. -/
def Store.numPkts (st : Store) : Nat := st.readId

/-- `request_id_block`; the block starts at the old `writeId`. -/
def Store.requestIdBlock (st : Store) (n : Nat) : Store := { st with writeId := st.writeId + n }

/-- `request_bytes`; the bytes start at the old `dtail`. -/
def Store.requestBytes (st : Store) (n : Nat) : Store := { st with dtail := st.dtail + n }

/-- The compare-exchange of `end` that succeeds. -/
def Store.endBlock (st : Store) (start n : Nat) : Store := { st with readId := start + n }

/-- `dlog_->ptr(offset)`: a block and the position in it. -/
def Store.ptr (st : Store) (offset : Nat) : Memory :=
  fun i => st.dlog (offset / blockSize) (offset % blockSize + i)

/-- The packed entry of the offset log. -/
def packOfflen (offset length : Nat) : Nat := length <<< 48 ||| (offset &&& 0xFFFFFFFFFFFF)

/-- `offsetlog::lookup` of a packed entry. -/
def unpackOfflen (ol : Nat) : Nat × Nat := (ol &&& 0xFFFFFFFFFFFF, ol >>> 48)

/-- The 48 bits of the offset are read back. -/
theorem unpack_packOfflen {offset length : Nat} (h : offset < 2 ^ 48) :
    unpackOfflen (packOfflen offset length) = (offset, length) := by
  have hmask : offset &&& 0xFFFFFFFFFFFF = offset := by
    rw [show (0xFFFFFFFFFFFF : Nat) = 2 ^ 48 - 1 by decide, Nat.and_two_pow_sub_one_eq_mod,
      Nat.mod_eq_of_lt h]
  have hpack : packOfflen offset length = length * 2 ^ 48 + offset := by
    rw [packOfflen, hmask, ← Nat.shiftLeft_add_eq_or_of_lt h, Nat.shiftLeft_eq]
  rw [unpackOfflen, hpack, show (0xFFFFFFFFFFFF : Nat) = 2 ^ 48 - 1 by decide,
    Nat.and_two_pow_sub_one_eq_mod, Nat.shiftRight_eq_div_pow]
  have h1 : (length * 2 ^ 48 + offset) % 2 ^ 48 = offset := by omega
  have h2 : (length * 2 ^ 48 + offset) / 2 ^ 48 = length := by omega
  rw [h1, h2]

/-- Byte `i` of a `uint64_t` in memory. -/
def byteOf (v i : Nat) : UInt8 := UInt8.ofNat (v / 256 ^ i % 256)

/-- The record of a packet: its second in front of its bytes. -/
def record (ts : Nat) (pkt : Memory) : Memory := fun i => if i < 8 then byteOf ts i else pkt (i - 8)

theorem byteOf_toNat (v i : Nat) : (byteOf v i).toNat = v / 256 ^ i % 256 := by
  simp [byteOf]

/-- The second in front of a record is read back. -/
theorem u64_record {ts : Nat} (h : ts < 2 ^ 64) (pkt : Memory) : u64 (record ts pkt) 0 = ts := by
  simp [u64, u32, u16, record, byteOf_toNat]
  omega

/-- `append_pkt`. -/
def Store.appendPkt (st : Store) (offset ts : Nat) (pkt : Memory) (len : Nat) : Store :=
  { st with dlog := fun blk i =>
      if blk = offset / blockSize ∧ offset % blockSize ≤ i ∧ i < offset % blockSize + (8 + len) then
        record ts pkt (i - offset % blockSize)
      else st.dlog blk i }

def Store.updateList (st : Store) (k : ListKey) (f : EntryList → EntryList) : Store :=
  { st with lists := Function.update st.lists k (f (st.lists k)) }

@[simp] theorem Store.updateList_self (st : Store) (k : ListKey) (f : EntryList → EntryList) :
    (st.updateList k f).lists k = f (st.lists k) := by simp [updateList]

theorem Store.updateList_other (st : Store) {k k' : ListKey} (h : k' ≠ k)
    (f : EntryList → EntryList) : (st.updateList k f).lists k' = st.lists k' := by
  simp [updateList, h]

/-! ## The operations of a burst -/

/-- `push_back_range(first, first + count - 1)` on a list; `push_back` for `count = 1`. -/
structure Append where
  key : ListKey
  first : Nat
  count : Nat
  deriving DecidableEq, Repr

inductive Op where
  | append : Append → Op
  | setOfflen : (id offset length : Nat) → Op
  | appendPkt : (offset ts : Nat) → (pkt : Memory) → (len : Nat) → Op
  | character : (c second id : Nat) → (pkt : Memory) → Op

/-- The body of the loop over the packets. -/
def pktOps (now numChars id offset : Nat) (m : Mbuf) : List Op :=
  (pktKeys m.data).map (fun k => .append ⟨.index k.1 k.2, id, 1⟩) ++
    [.setOfflen id offset m.size, .appendPkt offset now m.data m.size] ++
    (List.range numChars).map fun c => .character c now id m.data

/-- The loop over the packets; `append_pkt` returns the size by which `off` moves. -/
def loopOps (now numChars : Nat) : Nat → Nat → List Mbuf → List Op
  | _, _, [] => []
  | id, offset, m :: ms =>
    pktOps now numChars id offset m ++ loopOps now numChars (id + 1) (offset + (8 + m.size)) ms

/-- Everything between the load of `num_filters_` and `end`. -/
def burstOps (b : Burst) (start offset numChars : Nat) : List Op :=
  .append ⟨.index timestampIdx b.now.toNat, start, b.cnt⟩ ::
    loopOps b.now.toNat numChars start offset b.pkts

/-- An append in progress: before the list exists, before the `fetch_add`, and
before the allocation and the store of entry `i` at position `idx + i`. -/
inductive Appending where
  | get : Append → Appending
  | reserve : Append → Appending
  | allocate : Append → (idx i : Nat) → Appending
  | store : Append → (idx i : Nat) → Appending
  deriving DecidableEq, Repr

/-- The append before entry `i`, or `none` after its last entry. -/
def Append.entry (a : Append) (idx i : Nat) : Option Appending :=
  if i < a.count then some (.allocate a idx i) else none

def EntryList.create (l : EntryList) : EntryList := { l with created := true }

def EntryList.reserve (l : EntryList) (a : Append) : EntryList :=
  { l with
    tail := l.tail + a.count
    slots := fun j => if l.tail ≤ j ∧ j < l.tail + a.count then .reserved (a.first + (j - l.tail))
      else l.slots j }

def EntryList.allocate (l : EntryList) (j : Nat) : EntryList :=
  { l with buckets := Function.update l.buckets (bucketOf j) true }

def EntryList.store (l : EntryList) (j v : Nat) : EntryList :=
  { l with slots := Function.update l.slots j (.stored v) }

theorem EntryList.reserve_slots (l : EntryList) (a : Append) {j : Nat}
    (h : l.tail ≤ j ∧ j < l.tail + a.count) :
    (l.reserve a).slots j = .reserved (a.first + (j - l.tail)) := if_pos h

theorem EntryList.reserve_slots_other (l : EntryList) (a : Append) {j : Nat}
    (h : ¬ (l.tail ≤ j ∧ j < l.tail + a.count)) : (l.reserve a).slots j = l.slots j := if_neg h

@[simp] theorem EntryList.store_slots (l : EntryList) (j v : Nat) :
    (l.store j v).slots j = .stored v := by simp [store]

theorem EntryList.store_slots_other (l : EntryList) {j j' : Nat} (h : j' ≠ j) (v : Nat) :
    (l.store j v).slots j' = l.slots j' := by simp [store, h]

/-- One atomic step of an append. -/
def Store.stepAppend (st : Store) : Appending → Store × Option Appending
  | .get a => (st.updateList a.key .create, some (.reserve a))
  | .reserve a => (st.updateList a.key (·.reserve a), a.entry (st.lists a.key).tail 0)
  | .allocate a idx i => (st.updateList a.key (·.allocate (idx + i)), some (.store a idx i))
  | .store a idx i =>
    (st.updateList a.key (·.store (idx + i) (a.first + i)), a.entry idx (i + 1))

/-- The start of an operation; a character whose filters reject the packet is done. -/
def Store.stepOp (st : Store) : Op → Store × Option Appending
  | .append a => (st, some (.get a))
  | .setOfflen id offset length =>
    ({ st with offlens := Function.update st.offlens id (some (packOfflen offset length)) }, none)
  | .appendPkt offset ts pkt len => (st.appendPkt offset ts pkt len, none)
  | .character c second id pkt =>
    (st, if (st.filters c).any (·.applyPkt pkt) then some (.get ⟨.character second c, id, 1⟩)
      else none)

/-! ## Writers -/

/-- Where a writer stands in `insert_pktburst`: it has its ids, its bytes, or
runs its operations, the append in progress first. -/
inductive Writer where
  | idle : Writer
  | reserved : Burst → (start : Nat) → Writer
  | located : Burst → (start offset : Nat) → Writer
  | running : Burst → (start offset numChars : Nat) → Option Appending → List Op → Writer

namespace Writer

/-- The ids that the writer has reserved and not yet published. -/
def block : Writer → Option Block
  | .idle => none
  | .reserved b start => some ⟨start, b.cnt⟩
  | .located b start _ => some ⟨start, b.cnt⟩
  | .running b start _ _ _ _ => some ⟨start, b.cnt⟩

/-- The bytes of the data log that the writer has reserved. -/
def region : Writer → Option Block
  | .located b _ offset => some ⟨offset, b.nbytes⟩
  | .running b _ offset _ _ _ => some ⟨offset, b.nbytes⟩
  | _ => none

/-- A step of the writer other than the two that move the id counters. -/
def step (st : Store) : Writer → Option (Store × Writer)
  | .reserved b start =>
    if (st.dtail + b.nbytes) / blockSize < numBlocks then
      some (st.requestBytes b.nbytes, .located b start st.dtail)
    else none
  | .located b start offset =>
    some (st, .running b start offset st.numFilters none (burstOps b start offset st.numFilters))
  | .running b start offset n (some a) todo =>
    let (st, cur) := st.stepAppend a
    some (st, .running b start offset n cur todo)
  | .running b start offset n none (op :: todo) =>
    let (st, cur) := st.stepOp op
    some (st, .running b start offset n cur todo)
  | _ => none

end Writer

/-- A burst that has ended, with what it reserved. -/
structure Ended where
  burst : Burst
  start : Nat
  offset : Nat
  numChars : Nat

namespace Ended

def block (e : Ended) : Block := ⟨e.start, e.burst.cnt⟩
def region (e : Ended) : Block := ⟨e.offset, e.burst.nbytes⟩
def ops (e : Ended) : List Op := burstOps e.burst e.start e.offset e.numChars

end Ended

/-- The store, its writers, and the bursts that have ended, for the record. -/
structure System (ω : Type) where
  store : Store
  writers : ω → Writer
  ended : List Ended

namespace System

variable {ω : Type} [DecidableEq ω]

def init (numFilters : Nat) (filters : Nat → List PacketFilter) : System ω :=
  ⟨.init numFilters filters, fun _ => .idle, []⟩

/-- One atomic step of one writer. A failed compare-exchange changes nothing. -/
inductive Step : System ω → System ω → Prop where
  | request (s : System ω) (w : ω) (b : Burst) (hw : s.writers w = .idle) :
      Step s
        { s with
          store := s.store.requestIdBlock b.cnt
          writers := Function.update s.writers w (.reserved b s.store.writeId) }
  | run (s : System ω) (w : ω) (st : Store) (x : Writer)
      (hw : (s.writers w).step s.store = some (st, x)) :
      Step s { s with store := st, writers := Function.update s.writers w x }
  | publish (s : System ω) (w : ω) (b : Burst) (start offset n : Nat)
      (hw : s.writers w = .running b start offset n none []) (hr : s.store.readId = start) :
      Step s
        { store := s.store.endBlock start b.cnt
          writers := Function.update s.writers w .idle
          ended := s.ended ++ [⟨b, start, offset, n⟩] }

/-- The states of a run from a store with the given characters. -/
def Reached (numFilters : Nat) (filters : Nat → List PacketFilter) (s : System ω) : Prop :=
  Relation.ReflTransGen Step (init numFilters filters) s

/-- No call is in flight. -/
def Quiescent (s : System ω) : Prop := ∀ w, s.writers w = .idle

/-- The blocks of ids reserved and not yet ended. -/
def pending (s : System ω) (w : ω) : Option Block := (s.writers w).block

end System

end Netplay
