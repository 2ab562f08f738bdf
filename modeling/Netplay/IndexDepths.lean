import Netplay.BucketedLog
import Netplay.KeyedLists
import Netplay.TieredIndex

/-!
# The classes of the tiered indexes

`__index_depth1` to `__index_depth4` one by one, as their own copies of the code divide a key,
for calls one after the other: a compare-exchange succeeds. A pointer that `get` returns is
what the caller goes on with, so what is done through it is an argument.

An access outside an array is undefined. The constructor of an indexlet counts its cells with
a `uint32_t`, which does not come to the end of every array.
-/

namespace Netplay

namespace IndexClass

/-- Why a call does not return: an access outside an array, or a loop without an end. -/
inductive Trap where
  | outside : Trap
  | endless : Trap
  deriving DecidableEq, Repr

end IndexClass

open IndexClass (Trap)

/-- What the type of the values needs: `new T()`, which is the default, and `push_back`. -/
class ValueType (V : Type) extends Inhabited V where
  pushBack : V → (val : Nat) → Except Trap V

/-- `indexlet<T, SIZE>`: what the pointers that are not null point to. -/
structure Indexlet (T : Type) (size : Nat) where
  idx : Nat → Option T

namespace Indexlet

variable {T : Type} {size : Nat}

/-- The loop of the constructor from `i` on, as far as it comes in `fuel` rounds. -/
def clear : (fuel i : Nat) → Indexlet T size → Option (Indexlet T size)
  | 0, _, _ => none
  | fuel + 1, i, ilet =>
    if i < size then clear fuel ((i + 1) % 2 ^ 32) ⟨Function.update ilet.idx i none⟩ else some ilet

/-- `new indexlet()`; behind `2 ^ 32` rounds the counter has had all its values. -/
def new : Except Trap (Indexlet T size) :=
  match clear (2 ^ 32) 0 ⟨fun _ => none⟩ with
  | some ilet => .ok ilet
  | none => .error .endless

/-- `get`, which creates with `make` what is missing, and what is done with the value. -/
def get (ilet : Indexlet T size) (make : Except Trap T) (i : Nat) (use : T → Except Trap T) :
    Except Trap (Indexlet T size) :=
  if i % 2 ^ 32 < size then do
    let item ← (ilet.idx (i % 2 ^ 32)).elim make .ok
    let item ← use item
    .ok ⟨Function.update ilet.idx (i % 2 ^ 32) (some item)⟩
  else .error .outside

/-- `at`. -/
def atKey (ilet : Indexlet T size) (i : Nat) : Except Trap (Option T) :=
  if i % 2 ^ 32 < size then .ok (ilet.idx (i % 2 ^ 32)) else .error .outside

end Indexlet

/-! ## The four depths -/

/-- `__index_depth1`; its one member is `idx_`. -/
def IndexDepth1 (V : Type) (size : Nat) : Type := Indexlet V size

/-- `__index_depth2`. -/
def IndexDepth2 (V : Type) (size1 size2 : Nat) : Type := Indexlet (IndexDepth1 V size2) size1

/-- `__index_depth3`. -/
def IndexDepth3 (V : Type) (size1 size2 size3 : Nat) : Type :=
  Indexlet (IndexDepth2 V size2 size3) size1

/-- `__index_depth4`. -/
def IndexDepth4 (V : Type) (size1 size2 size3 size4 : Nat) : Type :=
  Indexlet (IndexDepth3 V size2 size3 size4) size1

section Depths

variable {V : Type} [ValueType V] {size size1 size2 size3 size4 : Nat}

namespace IndexDepth1

def new : Except Trap (IndexDepth1 V size) := Indexlet.new

def get (index : IndexDepth1 V size) (key : Nat) (use : V → Except Trap V) :
    Except Trap (IndexDepth1 V size) := Indexlet.get index (.ok default) key use

def atKey (index : IndexDepth1 V size) (key : Nat) : Except Trap (Option V) :=
  Indexlet.atKey index key

def addEntry (index : IndexDepth1 V size) (key val : Nat) : Except Trap (IndexDepth1 V size) :=
  index.get key fun list => ValueType.pushBack list val

def maxSize (size : Nat) : Nat := size

end IndexDepth1

namespace IndexDepth2

def new : Except Trap (IndexDepth2 V size1 size2) := Indexlet.new

def get (index : IndexDepth2 V size1 size2) (key : Nat) (use : V → Except Trap V) :
    Except Trap (IndexDepth2 V size1 size2) :=
  Indexlet.get index IndexDepth1.new (key / size2) fun ilet => ilet.get (key % size2) use

def atKey (index : IndexDepth2 V size1 size2) (key : Nat) : Except Trap (Option V) := do
  let ilet ← Indexlet.atKey index (key / size2)
  ilet.elim (.ok none) fun ilet => ilet.atKey (key % size2)

def addEntry (index : IndexDepth2 V size1 size2) (key val : Nat) :
    Except Trap (IndexDepth2 V size1 size2) :=
  index.get key fun list => ValueType.pushBack list val

def maxSize (size1 size2 : Nat) : Nat := size1 * size2 % 2 ^ 64

end IndexDepth2

namespace IndexDepth3

/-- `SIZE2 * SIZE3`, the keys below a cell. -/
def below (size2 size3 : Nat) : Nat := size2 * size3 % 2 ^ 64

def new : Except Trap (IndexDepth3 V size1 size2 size3) := Indexlet.new

def get (index : IndexDepth3 V size1 size2 size3) (key : Nat) (use : V → Except Trap V) :
    Except Trap (IndexDepth3 V size1 size2 size3) :=
  Indexlet.get index IndexDepth2.new (key / below size2 size3) fun ilet =>
    ilet.get (key % below size2 size3) use

def atKey (index : IndexDepth3 V size1 size2 size3) (key : Nat) : Except Trap (Option V) := do
  let ilet ← Indexlet.atKey index (key / below size2 size3)
  ilet.elim (.ok none) fun ilet => ilet.atKey (key % below size2 size3)

def addEntry (index : IndexDepth3 V size1 size2 size3) (key val : Nat) :
    Except Trap (IndexDepth3 V size1 size2 size3) :=
  index.get key fun list => ValueType.pushBack list val

def maxSize (size1 size2 size3 : Nat) : Nat := size1 * size2 * size3 % 2 ^ 64

end IndexDepth3

namespace IndexDepth4

/-- `SIZE2 * SIZE3 * SIZE4`, the keys below a cell. -/
def below (size2 size3 size4 : Nat) : Nat := size2 * size3 * size4 % 2 ^ 64

def new : Except Trap (IndexDepth4 V size1 size2 size3 size4) := Indexlet.new

def get (index : IndexDepth4 V size1 size2 size3 size4) (key : Nat) (use : V → Except Trap V) :
    Except Trap (IndexDepth4 V size1 size2 size3 size4) :=
  Indexlet.get index IndexDepth3.new (key / below size2 size3 size4) fun ilet =>
    ilet.get (key % below size2 size3 size4) use

def atKey (index : IndexDepth4 V size1 size2 size3 size4) (key : Nat) :
    Except Trap (Option V) := do
  let ilet ← Indexlet.atKey index (key / below size2 size3 size4)
  ilet.elim (.ok none) fun ilet => ilet.atKey (key % below size2 size3 size4)

def addEntry (index : IndexDepth4 V size1 size2 size3 size4) (key val : Nat) :
    Except Trap (IndexDepth4 V size1 size2 size3 size4) :=
  index.get key fun list => ValueType.pushBack list val

/-- Without the size of the last level, unlike the other depths. -/
def maxSize (size1 size2 size3 : Nat) : Nat := size1 * size2 * size3 % 2 ^ 64

end IndexDepth4

end Depths

/-! ## The operations of a class -/

/-- A class of indexes over values `V`. -/
structure IndexClass (V : Type) where
  Index : Type
  new : Except Trap Index
  get : Index → (key : Nat) → (V → Except Trap V) → Except Trap Index
  atKey : Index → (key : Nat) → Except Trap (Option V)
  addEntry : Index → (key val : Nat) → Except Trap Index

namespace IndexClass

variable {V : Type}

/-- A call on an index, without what it returns. -/
def call (C : IndexClass V) (index : C.Index) : KeyedLists.Call Nat Nat → Except Trap C.Index
  | .get key => C.get index key .ok
  | .addEntry key val => C.addEntry index key val
  | .atKey key => (C.atKey index key).map fun _ => index

/-- Calls on a new index. -/
def run (C : IndexClass V) (calls : List (KeyedLists.Call Nat Nat)) : Except Trap C.Index :=
  C.new.bind fun index => calls.foldlM C.call index

end IndexClass

/-- An instance of one of the class templates. -/
inductive IndexType where
  | depth1 : (size : Nat) → IndexType
  | depth2 : (size1 size2 : Nat) → IndexType
  | depth3 : (size1 size2 size3 : Nat) → IndexType
  | depth4 : (size1 size2 size3 size4 : Nat) → IndexType
  deriving DecidableEq, Repr

namespace IndexType

/-- The sizes of the levels, the first one first. -/
def sizes : IndexType → List Nat
  | .depth1 size => [size]
  | .depth2 size1 size2 => [size1, size2]
  | .depth3 size1 size2 size3 => [size1, size2, size3]
  | .depth4 size1 size2 size3 size4 => [size1, size2, size3, size4]

def cls (V : Type) [ValueType V] : IndexType → IndexClass V
  | .depth1 size => ⟨IndexDepth1 V size, IndexDepth1.new, IndexDepth1.get, IndexDepth1.atKey,
      IndexDepth1.addEntry⟩
  | .depth2 size1 size2 => ⟨IndexDepth2 V size1 size2, IndexDepth2.new, IndexDepth2.get,
      IndexDepth2.atKey, IndexDepth2.addEntry⟩
  | .depth3 size1 size2 size3 => ⟨IndexDepth3 V size1 size2 size3, IndexDepth3.new,
      IndexDepth3.get, IndexDepth3.atKey, IndexDepth3.addEntry⟩
  | .depth4 size1 size2 size3 size4 => ⟨IndexDepth4 V size1 size2 size3 size4, IndexDepth4.new,
      IndexDepth4.get, IndexDepth4.atKey, IndexDepth4.addEntry⟩

/-- `max_size`. -/
def maxSize : IndexType → Nat
  | .depth1 size => IndexDepth1.maxSize size
  | .depth2 size1 size2 => IndexDepth2.maxSize size1 size2
  | .depth3 size1 size2 size3 => IndexDepth3.maxSize size1 size2 size3
  | .depth4 size1 size2 size3 _ => IndexDepth4.maxSize size1 size2 size3

end IndexType

/-! ## Entry lists -/

/-- `monolog_relaxed<uint64_t, NBUCKETS>`; an element is `none` until it is set. -/
structure MonologRelaxed (numBuckets : Nat) where
  log : BucketedLog (Option Nat) numBuckets
  tail : Nat

namespace MonologRelaxed

variable {n : Nat}

def init : MonologRelaxed n := ⟨.empty fun _ => none, 0⟩

/-- `push_back`. -/
def pushBack (list : MonologRelaxed n) (val : Nat) : Except Trap (MonologRelaxed n) :=
  match list.log.set (fun _ => none) list.tail (some val) with
  | some log => .ok ⟨log, (list.tail + 1) % 2 ^ 64⟩
  | none => .error .outside

/-- `at`; `none` where there is no value. -/
def get (list : MonologRelaxed n) (idx : Nat) : Option Nat := (list.log.get idx).join

def size (list : MonologRelaxed n) : Nat := list.tail

instance : ValueType (MonologRelaxed n) where
  default := .init
  pushBack := pushBack

/-- `entry_list`. -/
abbrev EntryLog : Type := MonologRelaxed 24

end MonologRelaxed

end Netplay
