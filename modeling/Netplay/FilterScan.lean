import Netplay.PacketStore

/-!
# The scan of a query

The insertion loop over a `filter_result`, over a `packet_filter_result` and over
a `complex_character_index::result` as the sequence of its reads: the pointers
of the lists, their sizes and their entries. The two iterators differ in their
loop tests only. Tokens are below the largest `uint64_t`, so that adding one does
not wrap; a null list, a negative position and a key outside the index are
undefined and give no step.
-/

namespace Netplay

open Packet NetplayUtils

/-- What is scanned: the lists of an index, by token, or those of a character, by second. -/
inductive Target where
  | index : Attribute → Target
  | character : Nat → Target
  deriving DecidableEq, Repr

namespace Target

def key : Target → Nat → ListKey
  | .index a, tok => .index a.index tok
  | .character c, ts => .character ts c

/-- The number of keys of the index. -/
def keys : Target → Nat
  | .index a => if a.isPort then 65536 else 4294967296
  | .character _ => 4294967296

end Target

/-- `filter_result` with the filter of a `packet_filter_result` around it, if
any, or `complex_character_index::result`. -/
structure Scan where
  target : Target
  tokMin : Nat
  tokMax : Nat
  pktFilter : Option PacketFilter

/-- An iterator: `cur_tok_`, `cur_idx_`, and that `cur_entry_list_` is not null. -/
structure Iter where
  tok : Nat
  idx : Int
  list : Bool
  deriving DecidableEq, Repr

/-- Where the insertion loop stands. The position is the first one until the
first `++`. -/
inductive Pc where
  | construct : Pc
  | advance : (first : Bool) → Iter → Pc
  | next : (first : Bool) → (tok : Nat) → Pc
  | check : Iter → Pc
  | apply : Iter → Pc
  | visit : (first : Bool) → Iter → Pc
  | finished : Pc
  deriving DecidableEq, Repr

/-- `lookup`, `ptr` and `apply` for an id in `packet_filter_iterator::operator++`. -/
def Store.applyAt (st : Store) (f : PacketFilter) (id : Nat) : Option Bool :=
  (st.offlens id).map fun ol =>
    let (offset, _) := unpackOfflen ol
    f.apply (fun i => st.ptr offset (8 + i)) (UInt32.ofNat (u64 (st.ptr offset) 0))

namespace Scan

variable (q : Scan)

def list (st : Store) (tok : Nat) : EntryList := st.lists (q.target.key tok)

/-- The insertion loop at a position: it is the end, or `*it` is inserted. -/
def arrive (first : Bool) (it : Iter) : Pc :=
  if it.tok = q.tokMax + 1 ∧ it.idx = 0 then .finished else .visit first it

/-- The test of the token in the loop of `operator++`. -/
def more (tok : Nat) : Bool :=
  match q.target with
  | .index _ => tok != q.tokMax + 1
  | .character _ => decide (tok ≤ q.tokMax)

/-- Behind `advance`: the constructor returns, `operator++` tests the position. -/
def advanced (first : Bool) (it : Iter) : Pc :=
  if first then q.arrive true it
  else if q.more it.tok then .check it
  else q.arrive false it

/-- `advance` behind a list. The loop of `filter_iterator` has its test at the end. -/
def exhausted (first : Bool) (tok : Nat) : Pc :=
  match q.target with
  | .index _ => .next first tok
  | .character _ => if tok ≤ q.tokMax then .next first tok else q.advanced first ⟨tok, 0, false⟩

/-- The slot at the position. -/
def slot (st : Store) (it : Iter) : Slot := (q.list st it.tok).slots it.idx.toNat

/-- `cur_entry_list_->get(cur_idx_)`. -/
def get (st : Store) (junk : Nat) (it : Iter) : Option Nat :=
  if it.list = true ∧ 0 ≤ it.idx then some ((q.slot st it).read junk) else none

/-- One read of the scan, with the value of a slot that is not stored, and the ids it inserts. -/
def step (st : Store) (maxRid junk : Nat) : Pc → Option (Pc × List Nat)
  | .construct =>
    if q.tokMin < q.target.keys then
      some (.advance true ⟨q.tokMin, -1, (q.list st q.tokMin).created⟩, [])
    else none
  | .advance first it =>
    if it.tok = q.tokMax + 1 then some (q.advanced first it, [])
    else if it.list = false ∨ it.idx + 1 = (q.list st it.tok).tail then
      some (q.exhausted first it.tok, [])
    else some (q.advanced first { it with idx := it.idx + 1 }, [])
  | .next first tok =>
    if tok + 1 < q.target.keys then
      if (q.list st (tok + 1)).created = false ∧ tok + 1 ≤ q.tokMax then
        some (.next first (tok + 1), [])
      else some (q.advanced first ⟨tok + 1, 0, (q.list st (tok + 1)).created⟩, [])
    else none
  | .check it => (q.get st junk it).map fun v =>
    if maxRid ≤ v then (.advance false it, [])
    else match q.pktFilter with
      | none => (q.arrive false it, [])
      | some _ => (.apply it, [])
  | .apply it => q.pktFilter.bind fun f => (q.get st junk it).bind fun v =>
    (st.applyAt f v).map fun ok => (if ok then q.arrive false it else .advance false it, [])
  | .visit _ it => (q.get st junk it).map fun v => (.advance false it, [v])
  | .finished => none

/-- The scan from a state on, on one store: the ids inserted when it finishes
within `n` steps. -/
def drain (st : Store) (maxRid : Nat) : (n : Nat) → (junk : Nat → Nat) → Pc → List Nat →
    Option (List Nat)
  | _, _, .finished, res => some res
  | 0, _, _, _ => none
  | n + 1, junk, pc, res =>
    (q.step st maxRid (junk 0) pc).bind fun p =>
      drain st maxRid n (fun i => junk (i + 1)) p.1 (res ++ p.2)

end Scan

end Netplay
