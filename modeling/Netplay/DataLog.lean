import Netplay.BlockTail
import Netplay.Packet

/-!
# The data log

The bytes behind the offsets of a log store. `write` and `read` copy a record in
one piece, starting at a position of one block; a block has a buffer behind its
end, so that a record may stand out of it. The log as one flat array is the same
interface without blocks.
-/

namespace Netplay

/-- What a log store uses of its data log: where `ensure_alloc` finds its blocks
and where `write` stays inside the memory of one, and what `write` and `read` do. -/
class Datalog (D : Type) where
  empty : D
  allocatable : (start stop : Nat) → Bool
  writable : (offset len : Nat) → Bool
  write : D → (offset : Nat) → List UInt8 → D
  read : D → (offset len : Nat) → List UInt8
  read_write_self : ∀ d offset bytes, read (write d offset bytes) offset bytes.length = bytes
  read_write_other : ∀ d offset bytes offset' len,
    Block.Apart ⟨offset, bytes.length⟩ ⟨offset', len⟩ →
    read (write d offset bytes) offset' len = read d offset' len

/-- The data log as one flat array. -/
def FlatLog : Type := Nat → UInt8

namespace FlatLog

def write (d : FlatLog) (offset : Nat) (bytes : List UInt8) : FlatLog := fun i =>
  if offset ≤ i ∧ i < offset + bytes.length then bytes.getD (i - offset) 0 else d i

def read (d : FlatLog) (offset len : Nat) : List UInt8 :=
  (List.range len).map fun i => d (offset + i)

theorem read_write_self (d : FlatLog) (offset : Nat) (bytes : List UInt8) :
    (d.write offset bytes).read offset bytes.length = bytes := by
  refine List.ext_getElem (by simp [read]) fun i hi hi' => ?_
  simp [read, write, hi']

theorem read_write_other (d : FlatLog) (offset : Nat) (bytes : List UInt8) (offset' len : Nat)
    (h : Block.Apart ⟨offset, bytes.length⟩ ⟨offset', len⟩) :
    (d.write offset bytes).read offset' len = d.read offset' len := by
  refine List.map_congr_left fun i hi => if_neg ?_
  exact fun hin => h (offset' + i) hin ⟨Nat.le_add_right _ _,
    Nat.add_lt_add_left (List.mem_range.mp hi) _⟩

end FlatLog

instance : Datalog FlatLog where
  empty := fun _ => 0
  allocatable _ _ := true
  writable _ _ := true
  write := FlatLog.write
  read := FlatLog.read
  read_write_self := FlatLog.read_write_self
  read_write_other := FlatLog.read_write_other

/-- `__monolog_linear_base<uint8_t>` with blocks of the given size: a block and a
position in it or in its buffer. -/
def BlockLog (_size : Nat) : Type := Nat → Nat → UInt8

namespace BlockLog

/-- `NBUCKETS` and `BUFFER_SIZE`. -/
def numBuckets : Nat := 1024
def bufferSize : Nat := 1024

variable {size : Nat}

def write (d : BlockLog size) (offset : Nat) (bytes : List UInt8) : BlockLog size := fun blk i =>
  if blk = offset / size ∧ offset % size ≤ i ∧ i < offset % size + bytes.length then
    bytes.getD (i - offset % size) 0
  else d blk i

def read (d : BlockLog size) (offset len : Nat) : List UInt8 :=
  (List.range len).map fun i => d (offset / size) (offset % size + i)

/-- `ensure_alloc` looks for buckets of the array only. -/
def allocatable (size stop : Nat) : Bool := decide (stop / size < numBuckets)

/-- `write` stays in the bucket and its buffer. -/
def writable (size offset len : Nat) : Bool :=
  decide (offset / size < numBuckets ∧ offset % size + len ≤ size + bufferSize)

theorem read_write_self (d : BlockLog size) (offset : Nat) (bytes : List UInt8) :
    (d.write offset bytes).read offset bytes.length = bytes := by
  refine List.ext_getElem (by simp [read]) fun i hi hi' => ?_
  simp [read, write, hi']

theorem read_write_other (d : BlockLog size) (offset : Nat) (bytes : List UInt8) (offset' len : Nat)
    (h : Block.Apart ⟨offset, bytes.length⟩ ⟨offset', len⟩) :
    (d.write offset bytes).read offset' len = d.read offset' len := by
  refine List.map_congr_left fun i hi => if_neg ?_
  rintro ⟨hblk, h1, h2⟩
  have hd := Nat.div_add_mod offset size
  have hd' := Nat.div_add_mod offset' size
  rw [hblk] at hd'
  refine h (offset' + i) ⟨?_, ?_⟩ ⟨Nat.le_add_right _ _,
    Nat.add_lt_add_left (List.mem_range.mp hi) _⟩
  · dsimp only
    omega
  · dsimp only
    omega

end BlockLog

instance (size : Nat) : Datalog (BlockLog size) where
  empty := fun _ _ => 0
  allocatable _ stop := BlockLog.allocatable size stop
  writable := BlockLog.writable size
  write := BlockLog.write
  read := BlockLog.read
  read_write_self := BlockLog.read_write_self
  read_write_other := BlockLog.read_write_other

end Netplay
