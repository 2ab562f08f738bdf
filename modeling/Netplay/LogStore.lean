import Netplay.DataLog
import Netplay.FilterResult
import Netplay.PacketStore
import Netplay.TieredIndex

/-!
# The log store

`log_store` over its offset log, its data log and its index logs: insertion, by
the store itself and through a handle, the lookup of a record, and the filters of
an index. An insertion takes its ids and bytes, runs its operations and ends; the
operations are a list, so that the same list is run at once by a call on its own
and one after the other by a call among others.

Counters are unbounded. What no operation here reads is left out: the streams,
and the allocation of buckets, but for an access behind the last bucket, which is
undefined. So is a token for an index that was not added, or with a key outside it.
-/

namespace Netplay

/-- Why a call does not return. -/
inductive Halt where
  | undefined : Halt
  | spins : Halt
  deriving DecidableEq, Repr

theorem ok_of_bind {α β : Type} {x : Except Halt α} {f : α → Except Halt β} {b : β}
    (h : x.bind f = .ok b) : ∃ a, x = .ok a ∧ f a = .ok b := by
  cases x with
  | error e => cases h
  | ok a => exact ⟨a, rfl, h⟩

/-- `token_t`. -/
structure Token where
  indexId : Nat
  data : Nat
  deriving DecidableEq, Repr

/-- The arguments of an insertion; the length is a `uint16_t`. -/
structure Record where
  bytes : List UInt8
  tokens : List Token
  len_lt : bytes.length < 65536
  deriving DecidableEq

def Record.len (r : Record) : Nat := r.bytes.length

def Record.oneByte : Record := ⟨[7], [], by decide⟩

def Record.ofByte (b : UInt8) (tokens : List Token) : Record :=
  ⟨[b], tokens, show 1 < 65536 by decide⟩

/-! ## The offset log -/

structure OffsetLog where
  offlens : Nat → Option Nat
  writeId : Nat
  readId : Nat

namespace OffsetLog

def empty : OffsetLog := ⟨fun _ => none, 0, 0⟩

/-- `NBUCKETS` and `BLOCK_SIZE` of `offlen_type`. -/
def numBuckets : Nat := 1024
def bucketSize : Nat := 16777216

/-- The entry has a bucket. -/
def inBuckets (id : Nat) : Bool := decide (id / bucketSize < numBuckets)

/-- `current_write_id_.fetch_add(n)`; it returns the old `writeId`. -/
def fetchAdd (ol : OffsetLog) (n : Nat) : OffsetLog := { ol with writeId := ol.writeId + n }

/-- `set`, also behind the `fetch_add` of `start`. -/
def set (ol : OffsetLog) (id offset length : Nat) : Except Halt OffsetLog :=
  if inBuckets id then
    .ok { ol with offlens := Function.update ol.offlens id (some (packOfflen offset length)) }
  else .error .undefined

/-- `request_id_block`; the block starts at the old `writeId`. -/
def requestIdBlock (ol : OffsetLog) (n : Nat) : Except Halt OffsetLog :=
  if inBuckets (ol.writeId + n) then .ok (ol.fetchAdd n) else .error .undefined

/-- `end` of a call by itself: its compare-exchange finds the same tail every time. -/
def endBlock (ol : OffsetLog) (start count : Nat) : Except Halt OffsetLog :=
  if ol.readId = start then .ok { ol with readId := start + count } else .error .spins

theorem requestIdBlock_eq {ol ol' : OffsetLog} {n : Nat} (h : ol.requestIdBlock n = .ok ol') :
    inBuckets (ol.writeId + n) = true ∧ ol' = ol.fetchAdd n := by
  rw [requestIdBlock] at h
  split at h
  · next hin =>
    cases h
    exact ⟨hin, rfl⟩
  · cases h

/-- `lookup`; `junk` is the memory's content where no entry was set. -/
def lookup (ol : OffsetLog) (junk id : Nat) : Nat × Nat :=
  unpackOfflen ((ol.offlens id).getD junk)

def isValid (ol : OffsetLog) (id : Nat) : Bool := decide (id < ol.writeId)

def numIds (ol : OffsetLog) : Nat := ol.readId

end OffsetLog

/-! ## The indexes -/

/-- The level sizes of `__index1` to `__index8`. -/
def indexSizes : Nat → List Nat
  | 1 => [256]
  | 2 => [65536]
  | 3 => [65536, 256]
  | 4 => [65536, 65536]
  | 5 => [65536, 65536, 256]
  | 6 => [65536, 65536, 65536]
  | 7 => [65536, 65536, 65536, 256]
  | 8 => [65536, 65536, 65536, 65536]
  | _ => []

/-- `__index1` to `__index8`, with their entry lists. -/
def LogIndex (k : Nat) : Type := Tier (List Nat) (indexSizes k)

namespace LogIndex

variable {k : Nat}

def fresh (k : Nat) : LogIndex k := Tier.fresh (indexSizes k)

/-- The entry list of a key of the index, where the pointer is not null. -/
def list (index : LogIndex k) (key : Nat) : Option (List Nat) :=
  Tier.atKey (indexSizes k) index key

/-- `get` and `push_back`. -/
def added (index : LogIndex k) (key val : Nat) : LogIndex k :=
  Tier.modify (fun list => list ++ [val]) (indexSizes k) index key

/-- `at`; it has no result for a key outside the index. -/
def atKey (index : LogIndex k) (key : Nat) : Option (Option (List Nat)) :=
  if Tier.inBounds (indexSizes k) key then some (index.list key) else none

/-- `add_entry`. -/
def addEntry (index : LogIndex k) (key val : Nat) : Except Halt (LogIndex k) :=
  if Tier.inBounds (indexSizes k) key then .ok (index.added key val) else .error .undefined

end LogIndex

/-- `OFFSETMIN` and `OFFSET1` to `OFFSET8`. -/
def offsetMin : Nat := 1024

def indexOffset : Nat → Nat
  | 1 => 1024
  | 2 => 2048
  | 3 => 4096
  | 4 => 8192
  | 5 => 16384
  | 6 => 32768
  | 7 => 65536
  | 8 => 131072
  | _ => 0

/-- The cases of the switches over `index_id / OFFSETMIN`. -/
def indexFamily : Nat → Option Nat
  | 1 => some 1
  | 2 => some 2
  | 4 => some 3
  | 8 => some 4
  | 16 => some 5
  | 32 => some 6
  | 64 => some 7
  | 128 => some 8
  | _ => none

/-! ## The store -/

/-- `indexes k` is `idx1_` to `idx8_`. -/
structure LogStore (D : Type) where
  olog : OffsetLog
  dlog : D
  dtail : Nat
  indexes : (k : Nat) → List (LogIndex k)

/-- What a call does between the reservation of its ids and its `end`. -/
inductive LogOp where
  | set : (id offset length : Nat) → LogOp
  | append : (bytes : List UInt8) → (offset : Nat) → LogOp
  | index : (id : Nat) → List Token → LogOp

namespace LogStore

variable {D : Type} [Datalog D]

def empty : LogStore D := ⟨.empty, Datalog.empty, 0, fun _ => []⟩

def numRecords (st : LogStore D) : Nat := st.olog.numIds

/-- `add_index`, for a `len_t`. -/
def addIndex (st : LogStore D) (tokenLength : Nat) : LogStore D × Nat :=
  if 1 ≤ tokenLength ∧ tokenLength ≤ 8 then
    ({ st with
        indexes := Function.update st.indexes tokenLength
          (st.indexes tokenLength ++ [.fresh tokenLength]) },
      indexOffset tokenLength + (st.indexes tokenLength).length)
  else (st, 0)

/-- `request_bytes`; the bytes start at the old `dtail`. -/
def requestBytes (st : LogStore D) (n : Nat) : Except Halt (LogStore D) :=
  if Datalog.allocatable D st.dtail (st.dtail + n) then .ok { st with dtail := st.dtail + n }
  else .error .undefined

/-- `append_record`. -/
def appendRecord (st : LogStore D) (bytes : List UInt8) (offset : Nat) : Except Halt (LogStore D) :=
  if Datalog.writable D offset bytes.length then
    .ok { st with dlog := Datalog.write st.dlog offset bytes }
  else .error .undefined

/-- The body of the loop of `update_indexes`. -/
def addEntry (st : LogStore D) (id : Nat) (token : Token) : Except Halt (LogStore D) :=
  match indexFamily (token.indexId / offsetMin) with
  | none => .ok st
  | some k =>
    match (st.indexes k)[token.indexId % offsetMin]? with
    | none => .error .undefined
    | some index => (index.addEntry token.data id).map fun index =>
      { st with
        indexes := Function.update st.indexes k
          ((st.indexes k).set (token.indexId % offsetMin) index) }

def updateIndexes (st : LogStore D) (id : Nat) (tokens : List Token) : Except Halt (LogStore D) :=
  tokens.foldlM (fun st token => st.addEntry id token) st

def setOfflen (st : LogStore D) (id offset length : Nat) : Except Halt (LogStore D) :=
  (st.olog.set id offset length).map fun olog => { st with olog := olog }

def runOp (st : LogStore D) : LogOp → Except Halt (LogStore D)
  | .set id offset length => st.setOfflen id offset length
  | .append bytes offset => st.appendRecord bytes offset
  | .index id tokens => st.updateIndexes id tokens

def runOps (st : LogStore D) (ops : List LogOp) : Except Halt (LogStore D) := ops.foldlM runOp st

/-- `end` of a call by itself. -/
def endBlock (st : LogStore D) (start count : Nat) : Except Halt (LogStore D) :=
  (st.olog.endBlock start count).map fun olog => { st with olog := olog }

/-! ## What the operations change -/

section

variable {st st' : LogStore D}

theorem requestBytes_eq {n : Nat} (h : st.requestBytes n = .ok st') :
    Datalog.allocatable D st.dtail (st.dtail + n) = true ∧ st' = { st with dtail := st.dtail + n } := by
  rw [requestBytes] at h
  split at h
  · next halloc =>
    cases h
    exact ⟨halloc, rfl⟩
  · cases h

theorem appendRecord_eq {bytes : List UInt8} {offset : Nat}
    (h : st.appendRecord bytes offset = .ok st') :
    Datalog.writable D offset bytes.length = true ∧
      st' = { st with dlog := Datalog.write st.dlog offset bytes } := by
  rw [appendRecord] at h
  split at h
  · next hwrite =>
    cases h
    exact ⟨hwrite, rfl⟩
  · cases h

omit [Datalog D] in
theorem setOfflen_eq {id offset length : Nat} (h : st.setOfflen id offset length = .ok st') :
    OffsetLog.inBuckets id = true ∧ st' = { st with
      olog := { st.olog with
        offlens := Function.update st.olog.offlens id (some (packOfflen offset length)) } } := by
  rw [setOfflen, OffsetLog.set] at h
  split at h
  · next hin =>
    cases h
    exact ⟨hin, rfl⟩
  · cases h

omit [Datalog D] in
theorem endBlock_eq {start count : Nat} (h : st.endBlock start count = .ok st') :
    st.olog.readId = start ∧
      st' = { st with olog := { st.olog with readId := start + count } } := by
  rw [endBlock, OffsetLog.endBlock] at h
  split at h
  · next hread =>
    cases h
    exact ⟨hread, rfl⟩
  · cases h

omit [Datalog D] in
/-- The index updates leave the logs alone. -/
theorem addEntry_frame {id : Nat} {t : Token} (h : st.addEntry id t = .ok st') :
    st' = { st with indexes := st'.indexes } := by
  rw [addEntry] at h
  split at h
  · cases h
    rfl
  · next k _ =>
    split at h
    · cases h
    · next index _ =>
      cases hadd : index.addEntry t.data id with
      | error e =>
        rw [hadd] at h
        cases h
      | ok index' =>
        rw [hadd] at h
        cases h
        rfl

omit [Datalog D] in
theorem updateIndexes_frame {id : Nat} {tokens : List Token} :
    ∀ {st : LogStore D}, st.updateIndexes id tokens = .ok st' →
      st' = { st with indexes := st'.indexes } := by
  induction tokens with
  | nil =>
    intro st h
    cases h
    rfl
  | cons t tokens ih =>
    intro st h
    rw [updateIndexes, List.foldlM_cons] at h
    obtain ⟨st₁, h₁, h⟩ := ok_of_bind h
    rw [ih h, addEntry_frame h₁]

theorem runOps_cons (st : LogStore D) (op : LogOp) (ops : List LogOp) :
    st.runOps (op :: ops) = (st.runOp op).bind fun st => st.runOps ops := List.foldlM_cons

/-- The operations leave the counters alone. -/
theorem runOp_counters {op : LogOp} (h : st.runOp op = .ok st') :
    st'.olog.readId = st.olog.readId ∧ st'.olog.writeId = st.olog.writeId ∧
      st'.dtail = st.dtail := by
  cases op with
  | set id offset length =>
    rw [(setOfflen_eq h).2]
    exact ⟨rfl, rfl, rfl⟩
  | append bytes offset =>
    rw [(appendRecord_eq h).2]
    exact ⟨rfl, rfl, rfl⟩
  | index id tokens =>
    rw [updateIndexes_frame h]
    exact ⟨rfl, rfl, rfl⟩

end

/-! ## Insertion -/

/-- `log_store::insert` between its two `fetch_add`s and its `end`: the rest of
`start`, `append_record` and `update_indexes`. -/
def insertOps (r : Record) (offset id : Nat) : List LogOp :=
  [.set id offset r.len, .append r.bytes offset, .index id r.tokens]

/-- The `fetch_add` of `start`. -/
def takeId (st : LogStore D) : LogStore D := { st with olog := st.olog.fetchAdd 1 }

/-- `log_store::insert` up to its `end`. The bytes start at the old `dtail`, and
the id is the old `writeId`. -/
def insertBody (st : LogStore D) (r : Record) : Except Halt (LogStore D) :=
  (st.requestBytes r.len).bind fun st' =>
    st'.takeId.runOps (insertOps r st.dtail st.olog.writeId)

/-- `log_store::insert`, with the id it returns. -/
def insert (st : LogStore D) (r : Record) : Except Halt (LogStore D × Nat) :=
  (st.insertBody r).bind fun st' =>
    (st'.endBlock st.olog.writeId 1).map fun st' => (st', st.olog.writeId)

/-- An insertion that returns found `current_read_id_` at the id it had taken. -/
theorem insert_eq {st st' : LogStore D} {r : Record} {id : Nat} (h : st.insert r = .ok (st', id)) :
    id = st.olog.writeId ∧ ∃ body, st.insertBody r = .ok body ∧ body.olog.readId = id ∧
      st' = { body with olog := { body.olog with readId := id + 1 } } := by
  obtain ⟨body, hbody, h⟩ := ok_of_bind h
  cases hend : body.endBlock st.olog.writeId 1 with
  | error e =>
    rw [hend] at h
    cases h
  | ok st₁ =>
    rw [hend] at h
    cases h
    obtain ⟨hread, rfl⟩ := endBlock_eq hend
    exact ⟨rfl, body, hbody, hread, rfl⟩

/-- The store behind the reservations of an insertion and its writes to the two logs. -/
def logged (st : LogStore D) (r : Record) : LogStore D :=
  { st with
    olog := { st.olog with
      writeId := st.olog.writeId + 1
      offlens := Function.update st.olog.offlens st.olog.writeId (some (packOfflen st.dtail r.len)) }
    dlog := Datalog.write st.dlog st.dtail r.bytes
    dtail := st.dtail + r.len }

/-- An insertion gets to its `end` where its bytes and its entry have memory and
its tokens have indexes. -/
theorem insertBody_iff {st body : LogStore D} {r : Record} :
    st.insertBody r = .ok body ↔ Datalog.allocatable D st.dtail (st.dtail + r.len) = true ∧
      OffsetLog.inBuckets st.olog.writeId = true ∧
      Datalog.writable D st.dtail r.bytes.length = true ∧
      (st.logged r).updateIndexes st.olog.writeId r.tokens = .ok body := by
  constructor
  · intro h
    obtain ⟨st₁, h₁, h⟩ := ok_of_bind h
    obtain ⟨halloc, rfl⟩ := requestBytes_eq h₁
    rw [insertOps, runOps_cons] at h
    obtain ⟨st₂, h₂, h⟩ := ok_of_bind h
    obtain ⟨hin, rfl⟩ := setOfflen_eq h₂
    rw [runOps_cons] at h
    obtain ⟨st₃, h₃, h⟩ := ok_of_bind h
    obtain ⟨hwrite, rfl⟩ := appendRecord_eq h₃
    rw [runOps_cons] at h
    obtain ⟨st₄, h₄, h⟩ := ok_of_bind h
    cases h
    exact ⟨halloc, hin, hwrite, h₄⟩
  · rintro ⟨halloc, hin, hwrite, hindex⟩
    have hindex' : (st.logged r).runOps [.index st.olog.writeId r.tokens] = .ok body := by
      rw [runOps_cons, runOp, hindex]
      rfl
    simp only [insertBody, requestBytes, halloc, if_true, Except.bind, insertOps, runOps_cons, runOp,
      setOfflen, OffsetLog.set, takeId, hin, appendRecord, hwrite, Except.map]
    exact hindex'

theorem insertBody_counters {st body : LogStore D} {r : Record} (h : st.insertBody r = .ok body) :
    body.olog.readId = st.olog.readId ∧ body.olog.writeId = st.olog.writeId + 1 ∧
      body.dtail = st.dtail + r.len := by
  obtain ⟨-, -, -, hindex⟩ := insertBody_iff.mp h
  rw [updateIndexes_frame hindex]
  exact ⟨rfl, rfl, rfl⟩

end LogStore

/-- `--` on a `uint64_t`. -/
def dec64 (n : Nat) : Nat := if n = 0 then 2 ^ 64 - 1 else n - 1

/-- `log_store::handle`. -/
structure Handle where
  idBlockSize : Nat
  dataBlockSize : Nat
  curId : Nat
  remainingIds : Nat
  curOffset : Nat
  remainingBytes : Nat
  deriving DecidableEq, Repr

namespace Handle

def new (requestBatchSize dataBlockSize : Nat) : Handle :=
  ⟨requestBatchSize, dataBlockSize, 0, 0, 0, 0⟩

/-- The operations of `handle::insert` in their order. -/
def insertOps (h : Handle) (r : Record) : List LogOp :=
  [.append r.bytes h.curOffset, .index h.curId r.tokens, .set h.curId h.curOffset r.len]

/-- The last three lines of `handle::insert`. -/
def finish (h : Handle) (len : Nat) : Handle :=
  { h with
    remainingIds := dec64 h.remainingIds
    curOffset := h.curOffset + len
    curId := h.curId + 1 }

end Handle

namespace LogStore

variable {D : Type} [Datalog D]

/-- The first test of `handle::insert`. -/
def takeIds (st : LogStore D) (h : Handle) : Except Halt (LogStore D × Handle) :=
  if h.remainingIds = 0 then
    (st.olog.requestIdBlock h.idBlockSize).map fun olog =>
      ({ st with olog := olog },
        { h with curId := st.olog.writeId, remainingIds := h.idBlockSize })
  else .ok (st, h)

/-- The second test of `handle::insert`. -/
def takeBytes (st : LogStore D) (h : Handle) (len : Nat) : Except Halt (LogStore D × Handle) :=
  if h.remainingBytes < len then
    (st.requestBytes h.dataBlockSize).map fun st' =>
      (st', { h with curOffset := st.dtail, remainingBytes := h.dataBlockSize })
  else .ok (st, h)

omit [Datalog D] in
theorem takeIds_cases {st : LogStore D} {h : Handle} {p : LogStore D × Handle}
    (hp : st.takeIds h = .ok p) :
    (h.remainingIds = 0 ∧ OffsetLog.inBuckets (st.olog.writeId + h.idBlockSize) = true ∧
      p = ({ st with olog := st.olog.fetchAdd h.idBlockSize },
        { h with curId := st.olog.writeId, remainingIds := h.idBlockSize })) ∨
    (h.remainingIds ≠ 0 ∧ p = (st, h)) := by
  rw [takeIds] at hp
  split at hp
  · next h0 =>
    cases hreq : st.olog.requestIdBlock h.idBlockSize with
    | error e =>
      rw [hreq] at hp
      cases hp
    | ok olog =>
      rw [hreq] at hp
      cases hp
      obtain ⟨hin, rfl⟩ := OffsetLog.requestIdBlock_eq hreq
      exact .inl ⟨h0, hin, rfl⟩
  · next h0 =>
    cases hp
    exact .inr ⟨h0, rfl⟩

theorem takeBytes_cases {st : LogStore D} {h : Handle} {len : Nat} {p : LogStore D × Handle}
    (hp : st.takeBytes h len = .ok p) :
    (h.remainingBytes < len ∧ Datalog.allocatable D st.dtail (st.dtail + h.dataBlockSize) = true ∧
      p = ({ st with dtail := st.dtail + h.dataBlockSize },
        { h with curOffset := st.dtail, remainingBytes := h.dataBlockSize })) ∨
    (len ≤ h.remainingBytes ∧ p = (st, h)) := by
  rw [takeBytes] at hp
  split at hp
  · next hlt =>
    cases hreq : st.requestBytes h.dataBlockSize with
    | error e =>
      rw [hreq] at hp
      cases hp
    | ok st' =>
      rw [hreq] at hp
      cases hp
      obtain ⟨halloc, rfl⟩ := requestBytes_eq hreq
      exact .inl ⟨hlt, halloc, rfl⟩
  · next hlt =>
    cases hp
    exact .inr ⟨Nat.le_of_not_lt hlt, rfl⟩

/-- `handle::insert` up to its `end`. -/
def handleBody (st : LogStore D) (h : Handle) (r : Record) : Except Halt (LogStore D × Handle) :=
  (st.takeIds h).bind fun p =>
    (p.1.takeBytes p.2 r.len).bind fun p =>
      (p.1.runOps (p.2.insertOps r)).map fun st => (st, p.2)

/-- `handle::insert`, with the handle behind it and the id it returns. -/
def handleInsert (st : LogStore D) (h : Handle) (r : Record) :
    Except Halt (LogStore D × Handle × Nat) :=
  (st.handleBody h r).bind fun p =>
    (p.1.endBlock p.2.curId 1).map fun st => (st, p.2.finish r.len, p.2.curId + 1)

/-! ## Queries -/

/-- `get`: the bytes copied, if it returns true. -/
def get (st : LogStore D) (junk id : Nat) : Option (List UInt8) :=
  if st.olog.isValid id then
    some (Datalog.read st.dlog (st.olog.lookup junk id).1 (st.olog.lookup junk id).2)
  else none

/-- The address that `extract` copies from and the updated `length`. -/
def extractSpan (st : LogStore D) (junk id offset length : Nat) : Nat × Nat :=
  let (recordOffset, recordLength) := st.olog.lookup junk id
  ((recordOffset + offset) % 2 ^ 64, min length (((recordLength : Int) - offset) % 65536).toNat)

/-- `extract`: the bytes copied, as many as the updated `length`, if it returns true. -/
def extract (st : LogStore D) (junk id offset length : Nat) : Option (List UInt8) :=
  if st.olog.isValid id then
    let (address, length) := st.extractSpan junk id offset length
    some (Datalog.read st.dlog address length)
  else none

/-- `filter`, where it is defined. -/
def filter (st : LogStore D) (indexId tokMin tokMax : Nat) : Option FilterResult :=
  match indexFamily (indexId / offsetMin) with
  | none => some .empty
  | some k => (st.indexes k)[indexId % offsetMin]?.map fun index =>
    ⟨some index.atKey, tokMin, tokMax, st.olog.numIds⟩

end LogStore

end Netplay
