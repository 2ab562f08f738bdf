import Netplay.RecordHistory
import Netplay.Schedule

/-!
# Extracts of records

The cells of the data log that `extract` copies from, for the records of completed insertions
of all kinds. The address is computed again from the record's offset and the inner one, the
difference of two lengths is cut to 16 bits, a packet's bytes are behind those of its second,
and a handle may have written over the record.
-/

namespace Netplay

namespace BlockLog

variable {size : Nat}

/-- The cells of a copy: the block of its address, and the positions from there on. -/
def cells (size offset len : Nat) : List (Nat × Nat) :=
  (List.range len).map fun i => (offset / size, offset % size + i)

theorem mem_cells {offset len : Nat} {c : Nat × Nat} :
    c ∈ cells size offset len ↔
      c.1 = offset / size ∧ offset % size ≤ c.2 ∧ c.2 < offset % size + len := by
  rw [cells, List.mem_map]
  constructor
  · rintro ⟨i, hi, rfl⟩
    have := List.mem_range.mp hi
    dsimp only
    omega
  · rintro ⟨h1, h2, h3⟩
    refine ⟨c.2 - offset % size, List.mem_range.mpr (by omega), Prod.ext h1.symm ?_⟩
    dsimp only
    omega

theorem read_eq_cells (d : BlockLog size) (offset len : Nat) :
    d.read offset len = (cells size offset len).map fun c => d c.1 c.2 := by
  rw [read, cells, List.map_map]
  rfl

/-- A write leaves the other cells alone. -/
theorem write_other (d : BlockLog size) {offset : Nat} {bytes : List UInt8} {c : Nat × Nat}
    (h : c ∉ cells size offset bytes.length) : d.write offset bytes c.1 c.2 = d c.1 c.2 :=
  if_neg fun hin => h (mem_cells.mpr hin)

/-- What is written later in other cells. -/
theorem foldl_write_other {is : List Insertion} {c : Nat × Nat} :
    ∀ {d : BlockLog size}, (∀ i ∈ is, c ∉ cells size i.offset i.bytes.length) →
      is.foldl (fun d i => BlockLog.write d i.offset i.bytes) d c.1 c.2 = d c.1 c.2 := by
  induction is with
  | nil => exact fun _ => rfl
  | cons i is ih =>
    intro d h
    rw [List.foldl_cons, ih fun j hj => h j (List.mem_cons_of_mem _ hj),
      write_other d (h i List.mem_cons_self)]

theorem div_mod_same {ro offset : Nat} (h : (ro + offset) / size = ro / size) :
    (ro + offset) % size = ro % size + offset := by
  have h1 := Nat.div_add_mod ro size
  have h2 := Nat.div_add_mod (ro + offset) size
  rw [h] at h2
  omega

/-- A copy of a part of a write is where the part was written if it starts in the same block
and nothing stands in front of the part. -/
theorem cells_eq_slice_iff {ro front offset len : Nat} :
    cells size (ro + offset) len =
        (List.range len).map (fun k => (ro / size, ro % size + front + (offset + k))) ↔
      len = 0 ∨ (front = 0 ∧ (ro + offset) / size = ro / size) := by
  rw [cells]
  constructor
  · intro h
    by_cases hzero : len = 0
    · exact .inl hzero
    · obtain ⟨k, rfl⟩ := Nat.exists_eq_succ_of_ne_zero hzero
      rw [List.range_succ_eq_map, List.map_cons, List.map_cons] at h
      obtain ⟨hblock, hpos⟩ := Prod.mk.inj (List.cons.inj h).1
      rw [div_mod_same hblock] at hpos
      exact .inr ⟨by omega, hblock⟩
  · rintro (rfl | ⟨rfl, hblock⟩)
    · rfl
    · rw [hblock, div_mod_same hblock]
      exact List.map_congr_left fun k _ => by rw [Nat.add_zero, Nat.add_assoc]

end BlockLog

namespace Insertion

/-- The cells that the insertion writes. -/
def cells (size : Nat) (i : Insertion) : List (Nat × Nat) :=
  BlockLog.cells size i.offset i.bytes.length

/-- The cells of the record's bytes. -/
def recordCells (size : Nat) (i : Insertion) : List (Nat × Nat) :=
  (i.cells size).drop i.front.length

variable {size : Nat} {i : Insertion}

theorem recordCells_slice (i : Insertion) (offset length : Nat) :
    ((i.recordCells size).drop offset).take length =
      (List.range (min length (i.record.length - offset))).map fun k =>
        (i.offset / size, i.offset % size + i.front.length + (offset + k)) := by
  refine List.ext_getElem ?_ fun k hk hk' => ?_
  · simp only [recordCells, cells, BlockLog.cells, bytes_length, List.length_take, List.length_drop,
      List.length_map, List.length_range]
    omega
  · simp only [recordCells, cells, BlockLog.cells, List.getElem_take, List.getElem_drop,
      List.getElem_map, List.getElem_range, Nat.add_assoc]

/-- The insertion writes the record's bytes to the cells of the record. -/
theorem write_slice (d : BlockLog size) (i : Insertion) (offset length : Nat) :
    (((i.recordCells size).drop offset).take length).map
        (fun c => BlockLog.write d i.offset i.bytes c.1 c.2) =
      (i.record.drop offset).take length := by
  have hall : (i.cells size).map (fun c => BlockLog.write d i.offset i.bytes c.1 c.2) = i.bytes := by
    rw [cells, ← BlockLog.read_eq_cells]
    exact BlockLog.read_write_self d i.offset i.bytes
  rw [List.map_take, List.map_drop, recordCells, List.map_drop, hall, bytes, List.drop_left]

end Insertion

namespace LogStore

variable {size : Nat}

/-- `extract` returns the slice of the record: its length, the cells, which are in allocated
memory and were not written again by one of the later insertions, and the bytes. -/
structure Extracts (st : LogStore (BlockLog size)) (i : Insertion) (later : List Insertion)
    (junk offset length : Nat) : Prop where
  updated : (st.extractSpan junk i.id offset length).2 =
    if offset ≤ i.record.length then min length (i.record.length - offset) else 0
  allocated : BlockLog.writable size (st.extractSpan junk i.id offset length).1
    (st.extractSpan junk i.id offset length).2 = true
  cells : BlockLog.cells size (st.extractSpan junk i.id offset length).1
      (st.extractSpan junk i.id offset length).2 =
    ((i.recordCells size).drop offset).take length
  own : ∀ c ∈ BlockLog.cells size (st.extractSpan junk i.id offset length).1
      (st.extractSpan junk i.id offset length).2, ∀ j ∈ later, c ∉ j.cells size
  bytes : st.extract junk i.id offset length =
    some ((i.record.drop offset).take length)

/-- The address is in a block. The slice is empty, or it is of a record without bytes in front
of it, starts in the record's block and was not written over; behind the record's end, what is
cut to 16 bits must be nothing. -/
def Extractable (size : Nat) (i : Insertion) (later : List Insertion) (offset length : Nat) :
    Prop :=
  (i.offset + offset) % 2 ^ 64 / size < BlockLog.numBuckets ∧
    if offset ≤ i.record.length then
      length = 0 ∨ offset = i.record.length ∨
        (i.front = [] ∧ (i.offset + offset) / size = i.offset / size ∧
          ∀ j ∈ later, j.offset / size = i.offset / size →
            Block.Apart ⟨j.offset, j.bytes.length⟩
              ⟨i.offset + offset, min length (i.record.length - offset)⟩)
    else length = 0 ∨ 65536 ∣ offset - i.record.length

/-- The insertion is complete: its entry is written, and its bytes were written, to memory,
before those of the later insertions. -/
structure Completed (st : LogStore (BlockLog size)) (i : Insertion) (later : List Insertion) :
    Prop where
  valid : i.id < st.olog.writeId
  entry : i.entry.Written st
  small : i.record.length < 65536
  writable : BlockLog.writable size i.offset i.bytes.length = true
  dlog : ∃ d : BlockLog size, st.dlog =
    later.foldl (fun d j => BlockLog.write d j.offset j.bytes) (BlockLog.write d i.offset i.bytes)

variable {st : LogStore (BlockLog size)} {i : Insertion} {later : List Insertion}

theorem extractSpan_eq (h : st.Completed i later) (hoff : i.offset < 2 ^ 48)
    (junk offset length : Nat) :
    st.extractSpan junk i.id offset length = ((i.offset + offset) % 2 ^ 64,
      min length (((i.record.length : Int) - offset) % 65536).toNat) := by
  have hentry : st.olog.offlens i.id = some (packOfflen i.offset i.record.length) := h.entry
  have hlook : st.olog.lookup junk i.id = (i.offset, i.record.length) := by
    rw [OffsetLog.lookup, hentry, Option.getD_some, unpack_packOfflen hoff]
  rw [extractSpan, hlook]

/-- Up to the record's end the difference of the lengths fits in 16 bits. -/
theorem extractSpan_inside (h : st.Completed i later) (hoff : i.offset < 2 ^ 48)
    (junk length : Nat) {offset : Nat} (hle : offset ≤ i.record.length) :
    st.extractSpan junk i.id offset length =
      (i.offset + offset, min length (i.record.length - offset)) := by
  have hlen := h.small
  rw [extractSpan_eq h hoff, Nat.mod_eq_of_lt (by omega)]
  congr 2
  omega

/-- Behind it, nothing is left of a difference by a multiple of 65536 only. -/
theorem extractSpan_behind (h : st.Completed i later) (hoff : i.offset < 2 ^ 48)
    (junk length : Nat) {offset : Nat} (hlt : i.record.length < offset) :
    (st.extractSpan junk i.id offset length).2 = 0 ↔
      length = 0 ∨ 65536 ∣ offset - i.record.length := by
  rw [extractSpan_eq h hoff]
  dsimp only
  omega

/-- The bytes of the record's cells are the record's where nothing was written later. -/
theorem extract_of_cells (h : st.Completed i later) {junk offset length : Nat}
    (hcells : BlockLog.cells size (st.extractSpan junk i.id offset length).1
        (st.extractSpan junk i.id offset length).2 =
      ((i.recordCells size).drop offset).take length)
    (hown : ∀ c ∈ BlockLog.cells size (st.extractSpan junk i.id offset length).1
      (st.extractSpan junk i.id offset length).2, ∀ j ∈ later, c ∉ j.cells size) :
    st.extract junk i.id offset length = some ((i.record.drop offset).take length) := by
  obtain ⟨d, hdlog⟩ := h.dlog
  have hread : BlockLog.read st.dlog (st.extractSpan junk i.id offset length).1
      (st.extractSpan junk i.id offset length).2 = (i.record.drop offset).take length := by
    rw [BlockLog.read_eq_cells, ← i.write_slice d, ← hcells, hdlog]
    exact List.map_congr_left fun c hc => BlockLog.foldl_write_other (hown c hc)
  rw [extract, OffsetLog.isValid, if_pos (decide_eq_true h.valid)]
  exact congrArg some hread

/-- Cells of the record's block are written again by insertions that overlap them. -/
theorem own_iff {ro offset len : Nat} (hsame : (ro + offset) / size = ro / size) :
    (∀ c ∈ BlockLog.cells size (ro + offset) len, ∀ j ∈ later, c ∉ j.cells size) ↔
      ∀ j ∈ later, j.offset / size = ro / size →
        Block.Apart ⟨j.offset, j.bytes.length⟩ ⟨ro + offset, len⟩ := by
  have haddr := Nat.div_add_mod (ro + offset) size
  constructor
  · intro h j hj hblock k hk hk'
    have hj' := Nat.div_add_mod j.offset size
    rw [hblock] at hj'
    rw [hsame] at haddr
    obtain ⟨h1, h2⟩ := hk
    obtain ⟨h3, h4⟩ := hk'
    dsimp only at h1 h2 h3 h4
    refine h (ro / size, k - size * (ro / size)) (BlockLog.mem_cells.mpr ⟨hsame.symm, ?_, ?_⟩) j hj
      (BlockLog.mem_cells.mpr ⟨hblock.symm, ?_, ?_⟩)
    all_goals
      dsimp only
      omega
  · intro h c hc j hj hcj
    obtain ⟨h1, h2, h3⟩ := BlockLog.mem_cells.mp hc
    obtain ⟨h4, h5, h6⟩ := BlockLog.mem_cells.mp hcj
    have hblock : j.offset / size = ro / size := by rw [← h4, h1, hsame]
    have hj' := Nat.div_add_mod j.offset size
    rw [hblock] at hj'
    rw [hsame] at haddr
    refine h j hj hblock (size * (ro / size) + c.2) ⟨?_, ?_⟩ ⟨?_, ?_⟩
    all_goals
      dsimp only
      omega

/-- Up to the record's end. -/
theorem extracts_inside (h : st.Completed i later) (hsize : 1 ≤ size) (hoff : i.offset < 2 ^ 48)
    (junk length : Nat) {offset : Nat} (hle : offset ≤ i.record.length) :
    st.Extracts i later junk offset length ↔ Extractable size i later offset length := by
  have hwritable := of_decide_eq_true h.writable
  rw [Insertion.bytes_length] at hwritable
  have hspan := extractSpan_inside h hoff junk length hle
  have hlen := h.small
  rw [Extractable, if_pos hle, Nat.mod_eq_of_lt (by omega)]
  constructor
  · rintro ⟨-, hallocated, hcells, hown, -⟩
    rw [hspan] at hallocated hcells hown
    refine ⟨(of_decide_eq_true hallocated).1, ?_⟩
    rw [Insertion.recordCells_slice, BlockLog.cells_eq_slice_iff] at hcells
    rcases hcells with hzero | ⟨hfront, hsame⟩
    · omega
    · exact .inr (.inr ⟨List.eq_nil_of_length_eq_zero hfront, hsame, (own_iff hsame).mp hown⟩)
  · rintro ⟨hblock, hslice⟩
    have hmod := Nat.mod_lt (i.offset + offset) hsize
    have hcases : min length (i.record.length - offset) = 0 ∨ (i.front = [] ∧
        (i.offset + offset) / size = i.offset / size ∧
        ∀ j ∈ later, j.offset / size = i.offset / size →
          Block.Apart ⟨j.offset, j.bytes.length⟩
            ⟨i.offset + offset, min length (i.record.length - offset)⟩) := by
      rcases hslice with hzero | hend | hsame
      · exact .inl (by omega)
      · exact .inl (by omega)
      · exact .inr hsame
    have hcells : BlockLog.cells size (st.extractSpan junk i.id offset length).1
        (st.extractSpan junk i.id offset length).2 =
        ((i.recordCells size).drop offset).take length := by
      rw [hspan, Insertion.recordCells_slice, BlockLog.cells_eq_slice_iff]
      exact hcases.imp_right fun hsame => ⟨List.length_eq_zero_iff.mpr hsame.1, hsame.2.1⟩
    have hown : ∀ c ∈ BlockLog.cells size (st.extractSpan junk i.id offset length).1
        (st.extractSpan junk i.id offset length).2, ∀ j ∈ later, c ∉ j.cells size := by
      rw [hspan]
      rcases hcases with hzero | ⟨-, hsame, hapart⟩
      · rw [hzero]
        exact fun _ hc => absurd hc List.not_mem_nil
      · exact (own_iff hsame).mpr hapart
    refine ⟨by rw [hspan, if_pos hle], ?_, hcells, hown, extract_of_cells h hcells hown⟩
    rw [hspan]
    refine decide_eq_true ⟨hblock, ?_⟩
    dsimp only
    rcases hcases with hzero | ⟨-, hsame, -⟩
    · omega
    · rw [BlockLog.div_mod_same hsame]
      omega

/-- Behind it only an empty slice is right. -/
theorem extracts_behind (h : st.Completed i later) (hsize : 1 ≤ size) (hoff : i.offset < 2 ^ 48)
    (junk length : Nat) {offset : Nat} (hlt : i.record.length < offset) :
    st.Extracts i later junk offset length ↔ Extractable size i later offset length := by
  have hle := Nat.not_le_of_lt hlt
  have hslice : ((i.recordCells size).drop offset).take length = [] := by
    rw [Insertion.recordCells_slice, Nat.sub_eq_zero_of_le (Nat.le_of_lt hlt), Nat.min_zero]
    rfl
  have haddr : (st.extractSpan junk i.id offset length).1 = (i.offset + offset) % 2 ^ 64 := by
    rw [extractSpan_eq h hoff]
  rw [Extractable, if_neg hle, ← extractSpan_behind h hoff junk length hlt, ← haddr]
  constructor
  · intro hex
    exact ⟨(of_decide_eq_true hex.allocated).1, by rw [hex.updated, if_neg hle]⟩
  · rintro ⟨hblock, hzero⟩
    have hcells : BlockLog.cells size (st.extractSpan junk i.id offset length).1
        (st.extractSpan junk i.id offset length).2 =
        ((i.recordCells size).drop offset).take length := by
      rw [hzero, hslice]
      rfl
    have hown : ∀ c ∈ BlockLog.cells size (st.extractSpan junk i.id offset length).1
        (st.extractSpan junk i.id offset length).2, ∀ j ∈ later, c ∉ j.cells size := by
      rw [hzero]
      exact fun _ hc => absurd hc List.not_mem_nil
    refine ⟨by rw [hzero, if_neg hle], ?_, hcells, hown, extract_of_cells h hcells hown⟩
    have hmod := Nat.mod_lt (st.extractSpan junk i.id offset length).1 hsize
    rw [hzero]
    exact decide_eq_true ⟨hblock, by omega⟩

theorem extracts_iff (h : st.Completed i later) (hsize : 1 ≤ size) (hoff : i.offset < 2 ^ 48)
    (junk offset length : Nat) :
    st.Extracts i later junk offset length ↔ Extractable size i later offset length := by
  rcases Nat.lt_or_ge i.record.length offset with hlt | hle
  · exact extracts_behind h hsize hoff junk length hlt
  · exact extracts_inside h hsize hoff junk length hle

end LogStore

namespace WriteHistory

variable {ω : Type} [DecidableEq ω] {indexes : (k : Nat) → List (LogIndex k)} {roles : ω → Role}
  {s : WriteHistory (BlockLog blockSize) ω}

/-- The insertions of ids that have been ended are complete. -/
theorem completed_reached (hroles : ∀ w requestBatchSize dataBlockSize,
      roles w = .handle requestBatchSize dataBlockSize → 1 ≤ requestBatchSize)
    (h : Reached indexes roles s) {before later : List Insertion} {i : Insertion}
    (hsplit : s.appends = before ++ i :: later) (hid : i.id < s.sys.store.numRecords) :
    s.sys.store.Completed i later ∧ i.offset < 2 ^ 48 := by
  obtain ⟨calls, hledger⟩ := ledger_reached hroles h
  have hids := Callers.idsHeld_reached hroles (reached_sys h)
  have hmem : i ∈ s.appends := by
    rw [hsplit]
    exact List.mem_append_right _ List.mem_cons_self
  have hwritable := hledger.writable i hmem
  refine ⟨⟨Nat.lt_of_lt_of_le hid hids.tiles.le, hledger.ended i hmem hid, hledger.small i hmem,
    hwritable, ?_⟩, ?_⟩
  · refine ⟨before.foldl (fun d j => Datalog.write d j.offset j.bytes) Datalog.empty, ?_⟩
    rw [hledger.dlog, hsplit, List.foldl_append, List.foldl_cons]
    rfl
  · have hlt := (Nat.div_lt_iff_lt_mul (by decide)).mp (of_decide_eq_true hwritable).1
    have hcells : BlockLog.numBuckets * blockSize = 2 ^ 40 := by decide
    omega

/-- In every state of every run, the ids below `num_records` are those of insertions, and an
extract of such a record is its slice exactly if the slice is `Extractable`. -/
theorem extracts_reached_iff (hroles : ∀ w requestBatchSize dataBlockSize,
      roles w = .handle requestBatchSize dataBlockSize → 1 ≤ requestBatchSize)
    (h : Reached indexes roles s) :
    (∀ id, id < s.sys.store.numRecords → ∃ i ∈ s.appends, i.id = id) ∧
      ∀ before i later, s.appends = before ++ i :: later → i.id < s.sys.store.numRecords →
        ∀ junk offset length, s.sys.store.Extracts i later junk offset length ↔
          LogStore.Extractable blockSize i later offset length := by
  obtain ⟨calls, hledger⟩ := ledger_reached hroles h
  refine ⟨hledger.all, fun before i later hsplit hid junk offset length => ?_⟩
  obtain ⟨hcompleted, hoff⟩ := completed_reached hroles h hsplit hid
  exact LogStore.extracts_iff hcompleted (by decide) hoff junk offset length

/-- A handle with data blocks of one byte, and a thread in `log_store::insert`. -/
def handleAndStore (w : Bool) : Role := if w then .store else .handle 1 1

/-- They insert a record of one byte each, and then the handle inserts another one. -/
def overwriting : List (Bool × Option Insertable) :=
  [(false, some (.record (.ofByte 7 []))), (false, none),
    (true, some (.record (.ofByte 8 []))), (true, none), (false, none), (true, none),
    (false, none), (true, none), (false, none), (true, none), (false, none), (true, none),
    (false, some (.record (.ofByte 9 []))), (false, none), (false, none), (false, none),
    (false, none), (false, none)]

/-- The handle's second record is written over the other thread's. -/
theorem overwriting_run : ∃ s : WriteHistory (BlockLog blockSize) Bool,
    Reached (fun _ => []) handleAndStore s ∧ s.sys.store.numRecords = 3 ∧
      s.appends = [⟨0, 0, [], [7]⟩, ⟨1, 1, [], [8]⟩, ⟨2, 1, [], [9]⟩] := by
  obtain ⟨s, hs, hsee⟩ := Schedule.exists_run step_of_turn overwriting
    (by decide +kernel : (Schedule.after turn (init (fun _ => []) handleAndStore :
      WriteHistory (BlockLog blockSize) Bool) overwriting).map (fun s =>
        (s.sys.store.numRecords, s.appends)) =
      some (3, [⟨0, 0, [], [7]⟩, ⟨1, 1, [], [8]⟩, ⟨2, 1, [], [9]⟩]))
  obtain ⟨hread, happends⟩ := Prod.mk.inj hsee
  exact ⟨s, hs, hread, happends⟩

theorem handleAndStore_batch (w : Bool) (requestBatchSize dataBlockSize : Nat)
    (h : handleAndStore w = .handle requestBatchSize dataBlockSize) : 1 ≤ requestBatchSize := by
  cases w with
  | false =>
    cases h
    decide
  | true => cases h

/-- The handle's first record is extracted, and the other thread's is not. -/
theorem extracts_overwriting : ∃ s : WriteHistory (BlockLog blockSize) Bool,
    s.sys.store.Extracts ⟨0, 0, [], [7]⟩ [⟨1, 1, [], [8]⟩, ⟨2, 1, [], [9]⟩] 0 0 1 ∧
      ¬ s.sys.store.Extracts ⟨1, 1, [], [8]⟩ [⟨2, 1, [], [9]⟩] 0 0 1 := by
  obtain ⟨s, hs, hread, happends⟩ := overwriting_run
  have hiff := (extracts_reached_iff handleAndStore_batch hs).2
  rw [hread] at hiff
  refine ⟨s, (hiff [] _ _ happends (by decide) 0 0 1).mpr ⟨by decide, .inr (.inr ⟨rfl, rfl, ?_⟩)⟩,
    fun hex => ?_⟩
  · intro j hj _
    rcases List.mem_cons.mp hj with rfl | hj
    · exact (Block.apart_of_le (by decide)).symm
    · obtain rfl := List.mem_singleton.mp hj
      exact (Block.apart_of_le (by decide)).symm
  · rcases ((hiff [⟨0, 0, [], [7]⟩] _ _ happends (by decide) 0 0 1).mp hex).2 with h | h | h
    · cases h
    · cases h
    · exact h.2.2 _ (List.mem_singleton_self _) rfl 1 ⟨by decide, by decide⟩
        ⟨by decide, by decide⟩

/-- One byte is asked for from behind the end of the handle's first record. -/
theorem not_extracts : ¬ ∀ (indexes : (k : Nat) → List (LogIndex k)) (roles : Bool → Role)
    (s : WriteHistory (BlockLog blockSize) Bool), Reached indexes roles s →
    ∀ before i later, s.appends = before ++ i :: later → i.id < s.sys.store.numRecords →
      ∀ junk offset length, offset < 2 ^ 64 → length < 65536 →
        s.sys.store.Extracts i later junk offset length := by
  intro h
  obtain ⟨s, hs, hread, happends⟩ := overwriting_run
  have hid : 0 < s.sys.store.numRecords := by
    rw [hread]
    decide
  have hex := h _ _ s hs [] _ _ happends hid 0 2 1 (by decide) (by decide)
  obtain ⟨hcompleted, hoff⟩ := completed_reached handleAndStore_batch hs
    (show s.appends = [] ++ _ :: _ from happends) hid
  have hzero := (LogStore.extractSpan_behind hcompleted hoff 0 1 (by decide)).mp hex.updated
  exact absurd hzero (by decide)

end WriteHistory

end Netplay
