import Mathlib.Logic.Relation
import Netplay.BucketedLog
import Netplay.LazyTree
import Netplay.TieredIndex

/-!
# Threads that add to a tiered index

`add_entry` as the sequence of its atomic steps. On every level and for the bucket of an entry
list, a cell is loaded, what is missing is allocated and put there by a compare-exchange, which
frees it again when another thread was first, and the cell is loaded a second time. The
indexlets, lists and buckets are objects with addresses; `new` returns any address that is not
in use, also one that was freed. An access through a null pointer, to an object that is not
allocated or outside an array is undefined and gives no step.
-/

namespace Netplay

namespace ConcurrentIndex

open BucketedLog

/-- `NBUCKETS` of `entry_list`, and the entries that its buckets have room for. -/
def listBuckets : Nat := 24
def listCapacity : Nat := 16 * (2 ^ listBuckets - 1)

/-- What `new` makes: an indexlet with its size, an entry list, or a bucket of one. -/
inductive Kind where
  | indexlet : (size : Nat) → Kind
  | list : Kind
  | bucket : Kind
  deriving DecidableEq, Repr

/-- The pointers in the object. -/
def Kind.cells : Kind → Nat
  | .indexlet size => size
  | .list => listBuckets
  | .bucket => 0

/-! ## The objects -/

/-- The objects: the cells are the pointers of the indexlets and of `buckets_`, the tails are
those of the lists, and the slots are in the buckets. -/
structure Heap where
  tree : LazyTree Nat Nat
  tail : Nat → Nat
  slots : Nat → Nat → Option Nat

/-- The index, which is the indexlet of its first level. -/
def root : Nat := 0

namespace Heap

/-- The index is new. -/
def init : Heap := ⟨⟨{root}, fun _ _ => none⟩, fun _ => 0, fun _ _ => none⟩

/-- An object without pointers and entries. -/
def alloc (h : Heap) (a : Nat) : Heap :=
  ⟨h.tree.alloc a, Function.update h.tail a 0, Function.update h.slots a fun _ => none⟩

def fill (h : Heap) (p c x : Nat) : Heap := { h with tree := h.tree.fill p c x }

/-- `new`; the constructor of a list also makes its first bucket. -/
def new (h : Heap) (kind : Kind) (a b : Nat) : Option Heap :=
  if kind = .list then
    if a ∉ h.tree.live ∧ b ∉ (h.alloc a).tree.live then some (((h.alloc a).alloc b).fill a 0 b)
    else none
  else if a ∉ h.tree.live then some (h.alloc a)
  else none

/-- `delete`, whose destructors delete what the cells point to. -/
def delete (h : Heap) (kind : Kind) (a : Nat) : Heap :=
  { h with tree := h.tree.free a (List.range kind.cells) }

/-- `tail_.fetch_add(1)`. -/
def fetchAdd (h : Heap) (list : Nat) : Heap :=
  { h with tail := Function.update h.tail list (h.tail list + 1) }

def store (h : Heap) (bucket off val : Nat) : Heap :=
  { h with slots := Function.update h.slots bucket (Function.update (h.slots bucket) off (some val)) }

@[simp] theorem store_slots (h : Heap) (bucket off val : Nat) :
    (h.store bucket off val).slots bucket off = some val := by
  simp [store]

theorem store_slots_other (h : Heap) {bucket off bucket' off' : Nat} (val : Nat)
    (hne : ¬ (bucket' = bucket ∧ off' = off)) :
    (h.store bucket off val).slots bucket' off' = h.slots bucket' off' := by
  by_cases hb : bucket' = bucket
  · subst hb
    have hoff : off' ≠ off := fun heq => hne ⟨rfl, heq⟩
    simp [store, hoff]
  · simp [store, hb]

end Heap

/-! ## One cell -/

/-- Where a thread stands with a cell: before the first load, the allocation, the
compare-exchange with its object, or the second load. -/
inductive Fetch where
  | check : Fetch
  | create : Fetch
  | exchange : (item : Nat) → Fetch
  | reload : Fetch
  deriving DecidableEq, Repr

/-- The object that no other thread has seen. -/
def Fetch.item : Fetch → Option Nat
  | .exchange item => some item
  | _ => none

/-- `indexlet::get`, or the head of `__monolog_base::set`, up to the second load: a step on
cell `c` of the object `p`. -/
def Heap.fetch (h : Heap) (kind : Kind) (a b p c : Nat) : Fetch → Option (Heap × Fetch)
  | .check =>
    if p ∈ h.tree.live then
      some (h, if (h.tree.cells p c).isNone then .create else .reload)
    else none
  | .create => (h.new kind a b).map fun h => (h, .exchange a)
  | .exchange item =>
    if p ∈ h.tree.live then
      some (if (h.tree.cells p c).isNone then h.fill p c item else h.delete kind item, .reload)
    else none
  | .reload => none

/-! ## A call -/

/-- The arguments of `add_entry`. -/
structure Call where
  key : Nat
  val : Nat
  deriving DecidableEq, Repr

/-- What a cell is needed for: a level of `size` cells, with the levels below it and what is
left of the key, or the bucket of a position. -/
inductive Goal where
  | level : (size : Nat) → (below : List Nat) → (rest : Nat) → Goal
  | bucket : (idx : Nat) → Goal
  deriving DecidableEq, Repr

/-- What is missing when the cell is null. -/
def Goal.kind : Goal → Kind
  | .level _ [] _ => .list
  | .level _ (size :: _) _ => .indexlet size
  | .bucket _ => .bucket

/-- The cell, if it is in its array. -/
def Goal.cell : Goal → Option Nat
  | .level size below rest => if Tier.cell below rest < size then some (Tier.cell below rest) else none
  | .bucket idx => (locate idx).bind fun p => if p.1 < listBuckets then some p.1 else none

/-- Where a thread stands in `add_entry`: on its way to the list or to a bucket of it, before
`push_back`, or before the store of the value. -/
inductive Adder where
  | idle : Adder
  | fetching : Call → (node : Nat) → Goal → Fetch → Adder
  | pushing : Call → (list : Nat) → Adder
  | storing : Call → (list idx bucket : Nat) → Adder
  deriving DecidableEq, Repr

/-- Behind the second load of the cell, which returned `x`. -/
def Goal.reached (call : Call) (node x : Nat) : Goal → Adder
  | .level _ [] _ => .pushing call x
  | .level _ (size :: below) rest =>
    .fetching call x (.level size below (rest % span (size :: below))) .check
  | .bucket idx => .storing call node idx x

/-- A call that has returned, with the list and the position of its value. -/
structure Added where
  call : Call
  list : Nat
  idx : Nat
  deriving DecidableEq, Repr

/-- One atomic step of a thread, with the addresses for what it allocates. A list with
`listCapacity` entries takes no more. -/
def Adder.next (h : Heap) (a b : Nat) : Adder → Option (Heap × Adder × Option Added)
  | .idle => none
  | .fetching call node goal .reload =>
    goal.cell.bind fun c =>
      if node ∈ h.tree.live then
        (h.tree.cells node c).map fun x => (h, goal.reached call node x, none)
      else none
  | .fetching call node goal f =>
    goal.cell.bind fun c =>
      (h.fetch goal.kind a b node c f).map fun p => (p.1, .fetching call node goal p.2, none)
  | .pushing call list =>
    if list ∈ h.tree.live ∧ h.tail list < listCapacity then
      some (h.fetchAdd list, .fetching call list (.bucket (h.tail list)) .check, none)
    else none
  | .storing call list idx bucket =>
    (locate idx).bind fun p =>
      if bucket ∈ h.tree.live ∧ p.2 < bucketElems p.1 then
        some (h.store bucket p.2 call.val, .idle, some ⟨call, list, idx⟩)
      else none

/-- The objects, the threads, and, for the record, the calls that have returned and all that
were begun. -/
structure Adding (ω : Type) where
  heap : Heap
  adders : ω → Adder
  done : List Added
  begun : List Call

namespace Adding

variable {ω : Type}

def init : Adding ω := ⟨.init, fun _ => .idle, [], []⟩

variable [DecidableEq ω]

/-- A step of one thread, for an index with levels of the sizes `size :: below`. -/
inductive Step (size : Nat) (below : List Nat) : Adding ω → Adding ω → Prop where
  | call (s : Adding ω) (w : ω) (call : Call) (hw : s.adders w = .idle)
      (hkey : call.key < span (size :: below)) :
      Step size below s
        { s with
          adders := Function.update s.adders w
            (.fetching call root (.level size below call.key) .check)
          begun := s.begun ++ [call] }
  | run (s : Adding ω) (w : ω) (a b : Nat) (h : Heap) (x : Adder) (ret : Option Added)
      (hw : (s.adders w).next s.heap a b = some (h, x, ret)) :
      Step size below s ⟨h, Function.update s.adders w x, s.done ++ ret.toList, s.begun⟩

/-- The states of a run from a new index. -/
def Reached (size : Nat) (below : List Nat) (s : Adding ω) : Prop :=
  Relation.ReflTransGen (Step size below) init s

end Adding

/-! ## What a step does -/

theorem Heap.fetch_cases {h h' : Heap} {kind : Kind} {a b p c : Nat} {f f' : Fetch}
    (hf : h.fetch kind a b p c f = some (h', f')) :
    (f = .check ∧ p ∈ h.tree.live ∧ h' = h ∧ ((h.tree.cells p c = none ∧ f' = .create) ∨
      (∃ x, h.tree.cells p c = some x) ∧ f' = .reload)) ∨
    (f = .create ∧ h.new kind a b = some h' ∧ f' = .exchange a) ∨
    (∃ item, f = .exchange item ∧ p ∈ h.tree.live ∧ f' = .reload ∧
      ((h.tree.cells p c = none ∧ h' = h.fill p c item) ∨
        (∃ x, h.tree.cells p c = some x) ∧ h' = h.delete kind item)) := by
  cases f with
  | check =>
    rw [fetch] at hf
    split at hf
    · next hp =>
      obtain ⟨rfl, rfl⟩ := Prod.mk.inj (Option.some.inj hf)
      refine .inl ⟨rfl, hp, rfl, ?_⟩
      cases hc : h.tree.cells p c with
      | none => exact .inl ⟨rfl, rfl⟩
      | some x => exact .inr ⟨⟨x, rfl⟩, rfl⟩
    · cases hf
  | create =>
    obtain ⟨h1, hnew, heq⟩ := Option.map_eq_some_iff.mp hf
    obtain ⟨rfl, rfl⟩ := Prod.mk.inj heq
    exact .inr (.inl ⟨rfl, hnew, rfl⟩)
  | exchange item =>
    rw [fetch] at hf
    split at hf
    · next hp =>
      obtain ⟨rfl, rfl⟩ := Prod.mk.inj (Option.some.inj hf)
      refine .inr (.inr ⟨item, rfl, hp, rfl, ?_⟩)
      cases hc : h.tree.cells p c with
      | none => exact .inl ⟨rfl, rfl⟩
      | some x => exact .inr ⟨⟨x, rfl⟩, rfl⟩
    · cases hf
  | reload => cases hf

/-- Up to the second load, a step is one on the cell. -/
theorem Adder.next_fetching {h : Heap} {a b node : Nat} {call : Call} {goal : Goal} {f : Fetch}
    (hf : f ≠ .reload) : (Adder.fetching call node goal f).next h a b = goal.cell.bind fun c =>
      (h.fetch goal.kind a b node c f).map fun p => (p.1, .fetching call node goal p.2, none) := by
  cases f with
  | reload => exact absurd rfl hf
  | _ => rfl

theorem Adder.next_cases {h h' : Heap} {a b : Nat} {x x' : Adder} {ret : Option Added}
    (hx : x.next h a b = some (h', x', ret)) :
    (∃ call node goal f f' c, x = .fetching call node goal f ∧ goal.cell = some c ∧
      h.fetch goal.kind a b node c f = some (h', f') ∧ x' = .fetching call node goal f' ∧
      ret = none) ∨
    (∃ call node goal c y, x = .fetching call node goal .reload ∧ goal.cell = some c ∧
      h.tree.cells node c = some y ∧ h' = h ∧ x' = goal.reached call node y ∧ ret = none) ∨
    (∃ call list, x = .pushing call list ∧ list ∈ h.tree.live ∧ h.tail list < listCapacity ∧
      h' = h.fetchAdd list ∧ x' = .fetching call list (.bucket (h.tail list)) .check ∧
      ret = none) ∨
    (∃ call list idx bucket p, x = .storing call list idx bucket ∧ locate idx = some p ∧
      bucket ∈ h.tree.live ∧ p.2 < bucketElems p.1 ∧ h' = h.store bucket p.2 call.val ∧
      x' = .idle ∧ ret = some ⟨call, list, idx⟩) := by
  cases x with
  | idle => cases hx
  | fetching call node goal f =>
    by_cases hf : f = .reload
    · subst hf
      obtain ⟨c, hc, hx⟩ := Option.bind_eq_some_iff.mp hx
      split at hx
      · obtain ⟨y, hy, heq⟩ := Option.map_eq_some_iff.mp hx
        simp only [Prod.mk.injEq] at heq
        obtain ⟨rfl, rfl, rfl⟩ := heq
        exact .inr (.inl ⟨call, node, goal, c, y, rfl, hc, hy, rfl, rfl, rfl⟩)
      · cases hx
    · rw [Adder.next_fetching hf] at hx
      obtain ⟨c, hc, hx⟩ := Option.bind_eq_some_iff.mp hx
      obtain ⟨⟨h1, f'⟩, hfetch, heq⟩ := Option.map_eq_some_iff.mp hx
      simp only [Prod.mk.injEq] at heq
      obtain ⟨rfl, rfl, rfl⟩ := heq
      exact .inl ⟨call, node, goal, f, f', c, rfl, hc, hfetch, rfl, rfl⟩
  | pushing call list =>
    rw [Adder.next] at hx
    split at hx
    · next hin =>
      simp only [Option.some.injEq, Prod.mk.injEq] at hx
      obtain ⟨rfl, rfl, rfl⟩ := hx
      exact .inr (.inr (.inl ⟨call, list, rfl, hin.1, hin.2, rfl, rfl, rfl⟩))
    · cases hx
  | storing call list idx bucket =>
    obtain ⟨p, hp, hx⟩ := Option.bind_eq_some_iff.mp hx
    split at hx
    · next hin =>
      simp only [Option.some.injEq, Prod.mk.injEq] at hx
      obtain ⟨rfl, rfl, rfl⟩ := hx
      exact .inr (.inr (.inr ⟨call, list, idx, bucket, p, rfl, hp, hin.1, hin.2, rfl, rfl, rfl⟩))
    · cases hx

end ConcurrentIndex

end Netplay
