import Mathlib.Data.List.Pairwise
import Netplay.HandleCalls

/-!
# The bytes of the handles

A handle writes its records one behind the other from the start of a data block
and does not count them against the block. While every record of the handle is no
longer than a block, it obtains one block only, and what it inserts stays in the
block exactly as long as all of it together fits.
-/

namespace Netplay

namespace Session

variable {D η : Type} [Datalog D] [DecidableEq η]

/-- The bytes of all records that go through the handle. -/
def bytesOf (cs : List (η × Record)) (w : η) : Nat :=
  ((cs.filter fun c => c.1 = w).map fun c => c.2.len).sum

theorem bytesOf_snoc_self (cs : List (η × Record)) (w : η) (r : Record) :
    bytesOf (cs ++ [(w, r)]) w = bytesOf cs w + r.len := by
  simp [bytesOf]

theorem bytesOf_snoc_other (cs : List (η × Record)) {w v : η} (r : Record) (h : v ≠ w) :
    bytesOf (cs ++ [(w, r)]) v = bytesOf cs v := by
  simp [bytesOf, Ne.symm h]

theorem bytesOf_le_snoc (cs : List (η × Record)) (w : η) (r : Record) (v : η) :
    bytesOf cs v ≤ bytesOf (cs ++ [(w, r)]) v := by
  by_cases hv : v = w
  · subst hv
    rw [bytesOf_snoc_self]
    exact Nat.le_add_right _ _
  · rw [bytesOf_snoc_other cs r hv]

/-- The region that the offset log has for the id. -/
def region (s : Session D η) (id : Nat) : Option Block :=
  (s.store.olog.offlens id).map fun offlen => ⟨(unpackOfflen offlen).1, (unpackOfflen offlen).2⟩

/-- The records are apart, each in a block of its handle, and with the bytes that
were inserted. A region without bytes lies anywhere. -/
structure Intact (s : Session D η) : Prop where
  apart : ∀ x ∈ s.done, ∀ y ∈ s.done, x.id ≠ y.id →
    ∀ b b', s.region x.id = some b → s.region y.id = some b' → b.Apart b'
  inside : ∀ x ∈ s.done, ∀ b, s.region x.id = some b →
    b.count = 0 ∨ ∃ b' ∈ s.blocks x.who, b.Inside b'
  kept : ∀ x ∈ s.done, ∃ b, s.region x.id = some b ∧
    Datalog.read s.store.dlog b.start b.count = x.record.bytes

/-! ## What the handles have inserted -/

/-- The records inserted, with their entries in the offset log. -/
structure Recorded (dataBlockSize : η → Nat) (cs : List (η × Record)) (s : Session D η) : Prop where
  done : s.done.map (fun x => (x.who, x.record)) = cs
  ids : s.done.map (fun x => x.id) = List.range cs.length
  readId : s.store.olog.readId = cs.length
  size : ∀ w, (s.handles w).dataBlockSize = dataBlockSize w
  count : ∀ w, ∀ b ∈ s.blocks w, b.count = dataBlockSize w
  entry : ∀ x ∈ s.done, s.store.olog.offlens x.id = some (packOfflen x.offset x.record.len)
  writable : ∀ x ∈ s.done, Datalog.writable D x.offset x.record.bytes.length = true

variable {indexes : (k : Nat) → List (LogIndex k)} {requestBatchSize dataBlockSize : η → Nat}
  {cs : List (η × Record)} {s s' : Session D η} {w : η} {r : Record} {id : Nat}

omit [DecidableEq η] in
theorem Recorded.init :
    Recorded (D := D) dataBlockSize [] (init indexes requestBatchSize dataBlockSize) :=
  ⟨rfl, rfl, rfl, fun _ => rfl, fun _ _ h => (List.not_mem_nil h).elim,
    fun _ h => (List.not_mem_nil h).elim, fun _ h => (List.not_mem_nil h).elim⟩

omit [DecidableEq η] in
theorem Recorded.id_lt (h : Recorded dataBlockSize cs s) {x : HandleDone η} (hx : x ∈ s.done) :
    x.id < cs.length := by
  have hmem : x.id ∈ s.done.map (fun x => x.id) := List.mem_map.mpr ⟨x, hx, rfl⟩
  rw [h.ids] at hmem
  exact List.mem_range.mp hmem

theorem Recorded.call (h : Recorded dataBlockSize cs s) (hc : s.call (.handle w r) = .ok (s', id)) :
    Recorded dataBlockSize (cs ++ [(w, r)]) s' := by
  have hread' := call_readId hc
  obtain ⟨st', h', hbody, hread, -, rfl⟩ := call_handle_eq hc
  have hid : h'.curId = cs.length := by rw [← hread, hbody.readId, h.readId]
  refine ⟨?_, ?_, ?_, fun v => ?_, fun v b hb => ?_, fun x hx => ?_, fun x hx => ?_⟩
  · simp [h.done]
  · simp [h.ids, hid, List.range_succ]
  · rw [hread', h.readId, List.length_append]
    rfl
  · by_cases hv : v = w
    · subst hv
      simp only [Function.update_self, Handle.finish, hbody.dataBlockSize, h.size]
    · simp only [Function.update_of_ne hv, h.size]
  · by_cases hv : v = w
    · subst hv
      simp only [Function.update_self, List.mem_append, obtained] at hb
      rcases hb with hb | hb
      · exact h.count v b hb
      · split at hb
        · obtain rfl := List.mem_singleton.mp hb
          exact h.size v
        · cases hb
    · simp only [Function.update_of_ne hv] at hb
      exact h.count v b hb
  · rw [hbody.offlens]
    rcases List.mem_append.mp hx with hx | hx
    · have hne : x.id ≠ h'.curId := by
        have := h.id_lt hx
        omega
      rw [Function.update_of_ne hne]
      exact h.entry x hx
    · obtain rfl := List.mem_singleton.mp hx
      exact Function.update_self _ _ _
  · rcases List.mem_append.mp hx with hx | hx
    · exact h.writable x hx
    · obtain rfl := List.mem_singleton.mp hx
      exact hbody.writable

/-- Where a call through the handle has put its record. -/
structure Placing (s : Session D η) (w : η) (r : Record) (s' : Session D η) (x : HandleDone η) :
    Prop where
  done : s'.done = s.done ++ [x]
  who : x.who = w
  record : x.record = r
  curOffset : (s'.handles w).curOffset = x.offset + r.len
  dlog : s'.store.dlog = Datalog.write s.store.dlog x.offset r.bytes
  others : ∀ v, v ≠ w → s'.handles v = s.handles v
  block : (r.len ≤ (s.handles w).remainingBytes ∧ s'.blocks = s.blocks ∧
      (s'.handles w).remainingBytes = (s.handles w).remainingBytes ∧
      s'.store.dtail = s.store.dtail ∧ x.offset = (s.handles w).curOffset) ∨
    ((s.handles w).remainingBytes < r.len ∧
      s'.blocks = Function.update s.blocks w
        (s.blocks w ++ [⟨s.store.dtail, (s.handles w).dataBlockSize⟩]) ∧
      (s'.handles w).remainingBytes = (s.handles w).dataBlockSize ∧
      s'.store.dtail = s.store.dtail + (s.handles w).dataBlockSize ∧ x.offset = s.store.dtail)

theorem Placing.blocks_other {x : HandleDone η} (hp : Placing s w r s' x) {v : η} (hv : v ≠ w) :
    s'.blocks v = s.blocks v := by
  rcases hp.block with ⟨-, hb, -⟩ | ⟨-, hb, -⟩
  · rw [hb]
  · rw [hb, Function.update_of_ne hv]

theorem call_placing (hc : s.call (.handle w r) = .ok (s', id)) : ∃ x, Placing s w r s' x := by
  obtain ⟨st', h', hbody, -, -, rfl⟩ := call_handle_eq hc
  refine ⟨⟨w, r, h'.curId, h'.curOffset⟩, rfl, rfl, rfl, ?_, hbody.dlog, fun v hv => ?_, ?_⟩
  · simp only [Function.update_self, Handle.finish]
  · exact Function.update_of_ne hv _ _
  · simp only [Function.update_self, Handle.finish, obtained]
    rcases hbody.bytes with ⟨hlt, ho, hrem, hd⟩ | ⟨hle, ho, hrem, hd⟩
    · rw [if_pos hlt]
      exact .inr ⟨hlt, rfl, hrem, hd, ho⟩
    · rw [if_neg (Nat.not_lt.mpr hle), List.append_nil, Function.update_eq_self]
      exact .inl ⟨hle, rfl, hrem, hd, ho⟩

/-! ## One block for each handle -/

/-- The handle has inserted nothing but records without bytes, or it has one block
and its last record with bytes ends behind all its bytes. -/
def OneBlock (d : Nat) (total : Nat) (w : η) (s : Session D η) : Prop :=
  (s.blocks w = [] ∧ (s.handles w).remainingBytes = 0 ∧ total = 0) ∨
  ∃ a, s.blocks w = [⟨a, d⟩] ∧ (s.handles w).remainingBytes = d ∧
    (s.handles w).curOffset = a + total ∧
    ∃ x ∈ s.done, x.who = w ∧ x.record.len ≠ 0 ∧ x.offset + x.record.len = a + total

variable {d total : Nat} {x : HandleDone η}

theorem OneBlock.call (h : OneBlock d total w s) (hp : Placing s w r s' x)
    (hsize : (s.handles w).dataBlockSize = d) (hr : r.len ≤ d) :
    OneBlock d (total + r.len) w s' := by
  have hx : x ∈ s'.done := by
    rw [hp.done]
    exact List.mem_append_right _ List.mem_cons_self
  rcases h with ⟨hb, hrem, rfl⟩ | ⟨a, hb, hrem, hcur, y, hy, hyw, hy0, hyend⟩ <;>
    rcases hp.block with ⟨hle, hb', hrem', -, ho⟩ | ⟨hlt, hb', hrem', -, ho⟩
  · exact .inl ⟨by rw [hb', hb], by rw [hrem', hrem], by omega⟩
  · refine .inr ⟨s.store.dtail, ?_, by rw [hrem', hsize], by rw [hp.curOffset, ho]; omega,
      x, hx, hp.who, by rw [hp.record]; omega, by rw [hp.record, ho]; omega⟩
    rw [hb', Function.update_self, hb, hsize]
    rfl
  · refine .inr ⟨a, by rw [hb', hb], by rw [hrem', hrem], by rw [hp.curOffset, ho, hcur]; omega, ?_⟩
    by_cases h0 : r.len = 0
    · refine ⟨y, ?_, hyw, hy0, by omega⟩
      rw [hp.done]
      exact List.mem_append_left _ hy
    · exact ⟨x, hx, hp.who, by rw [hp.record]; exact h0, by rw [hp.record, ho, hcur]; omega⟩
  · omega

theorem OneBlock.other (h : OneBlock d total w s) {v : η} (hp : Placing s v r s' x) (hv : w ≠ v) :
    OneBlock d total w s' := by
  have hb := hp.blocks_other hv
  rcases h with ⟨hb', hrem, h0⟩ | ⟨a, hb', hrem, hcur, y, hy, hyd⟩
  · exact .inl ⟨hb.trans hb', by rw [hp.others w hv]; exact hrem, h0⟩
  · refine .inr ⟨a, hb.trans hb', by rw [hp.others w hv]; exact hrem,
      by rw [hp.others w hv]; exact hcur, y, ?_, hyd⟩
    rw [hp.done]
    exact List.mem_append_left _ hy

/-! ## Records that fit -/

omit [DecidableEq η] in
theorem apart_of_len {x y : HandleDone η} (h : x.record.len = 0 ∨ y.record.len = 0) :
    Block.Apart x.block y.block := by
  rintro i ⟨h1, h2⟩ ⟨h3, h4⟩
  simp only [HandleDone.block] at h1 h2 h3 h4
  omega

/-- Every handle has at most one block, these do not overlap, and in them the
records lie one behind the other. -/
structure Separate (dataBlockSize : η → Nat) (cs : List (η × Record)) (s : Session D η) : Prop where
  oneBlock : ∀ w, OneBlock (dataBlockSize w) (bytesOf cs w) w s
  allocated : BlockTail.Allocated s.store.dtail (fun w => (s.blocks w).head?) []
  placed : ∀ x ∈ s.done, x.record.len ≠ 0 → ∃ a, s.blocks x.who = [⟨a, dataBlockSize x.who⟩] ∧
    a ≤ x.offset ∧ x.offset + x.record.len ≤ (s.handles x.who).curOffset
  apart : s.done.Pairwise fun x y => x.block.Apart y.block
  kept : ∀ x ∈ s.done, Datalog.read s.store.dlog x.offset x.record.len = x.record.bytes

theorem Separate.init :
    Separate (D := D) dataBlockSize [] (init indexes requestBatchSize dataBlockSize) :=
  ⟨fun _ => .inl ⟨rfl, rfl, rfl⟩, .init, fun _ h => (List.not_mem_nil h).elim, .nil,
    fun _ h => (List.not_mem_nil h).elim⟩

omit [Datalog D] [DecidableEq η] in
theorem OneBlock.head? (h : OneBlock d total w s) {b : Block} (hb : b ∈ s.blocks w) :
    s.blocks w = [b] ∧ (s.handles w).remainingBytes = d ∧
      (s.handles w).curOffset = b.start + total := by
  rcases h with ⟨hb', -⟩ | ⟨a, hb', hrem, hcur, -⟩
  · rw [hb'] at hb
    cases hb
  · rw [hb'] at hb
    obtain rfl := List.mem_singleton.mp hb
    exact ⟨hb', hrem, hcur⟩

/-- While everything fits, a record with bytes is inside the block of its handle. -/
theorem Separate.inside (h : Separate dataBlockSize cs s) (hfit : ∀ w, bytesOf cs w ≤ dataBlockSize w)
    (hx : x ∈ s.done) (h0 : x.record.len ≠ 0) :
    ∃ b, s.blocks x.who = [b] ∧ Block.Inside x.block b := by
  obtain ⟨a, hb, hle, hend⟩ := h.placed x hx h0
  obtain ⟨-, -, hcur⟩ := (h.oneBlock x.who).head? (hb ▸ List.mem_cons_self)
  have := hfit x.who
  refine ⟨_, hb, hle, ?_⟩
  simp only [HandleDone.block] at hcur ⊢
  omega

/-- The record that a call has put lies in the block that the handle then has. -/
theorem Placing.inside (hp : Placing s w r s' x) (h : OneBlock d (total + r.len) w s')
    (hfit : total + r.len ≤ d) (h0 : r.len ≠ 0) :
    ∃ a, s'.blocks w = [⟨a, d⟩] ∧ x.offset = a + total ∧ Block.Inside x.block ⟨a, d⟩ := by
  rcases h with ⟨-, -, htot⟩ | ⟨a, hb, -, hcur, -⟩
  · omega
  · have hoff : x.offset = a + total := by
      have := hp.curOffset
      omega
    refine ⟨a, hb, hoff, ?_⟩
    simp only [Block.Inside, HandleDone.block, hoff, hp.record]
    omega

/-- It is apart from the records that lie in the blocks already. -/
theorem Separate.new_apart (h : Separate dataBlockSize cs s)
    (hfit : ∀ v, bytesOf cs v ≤ dataBlockSize v) (hp : Placing s w r s' x)
    (halloc : BlockTail.Allocated s'.store.dtail (fun v => (s'.blocks v).head?) [])
    (hone : OneBlock (dataBlockSize w) (bytesOf cs w + r.len) w s')
    (hw : bytesOf cs w + r.len ≤ dataBlockSize w) {y : HandleDone η} (hy : y ∈ s.done) :
    Block.Apart y.block x.block := by
  by_cases h0 : r.len = 0
  · exact apart_of_len (.inr (by rw [hp.record]; exact h0))
  by_cases hy0 : y.record.len = 0
  · exact apart_of_len (.inl hy0)
  obtain ⟨b, hb, hin⟩ := h.inside hfit hy hy0
  obtain ⟨a, hb', hoff, hin'⟩ := hp.inside hone hw h0
  by_cases hv : y.who = w
  · subst hv
    obtain ⟨-, hrem, hcur⟩ := (h.oneBlock y.who).head? (hb ▸ List.mem_cons_self)
    obtain ⟨a', -, -, hend⟩ := h.placed y hy hy0
    rcases hp.block with ⟨-, -, -, -, ho⟩ | ⟨hlt, -⟩
    · refine Block.apart_of_le ?_
      simp only [HandleDone.block, ho]
      exact hend
    · omega
  · have hapart := halloc.apart y.who w b ⟨a, dataBlockSize w⟩ hv
      (by rw [hp.blocks_other hv, hb]; rfl) (by rw [hb']; rfl)
    exact fun i hi hi' => hapart i (hin.holds hi) (hin'.holds hi')

theorem Separate.oneBlock_call (h : Separate dataBlockSize cs s)
    (hsize : (s.handles w).dataBlockSize = dataBlockSize w) (hp : Placing s w r s' x)
    (hw : bytesOf cs w + r.len ≤ dataBlockSize w) (v : η) :
    OneBlock (dataBlockSize v) (bytesOf (cs ++ [(w, r)]) v) v s' := by
  by_cases hv : v = w
  · subst hv
    rw [bytesOf_snoc_self]
    exact (h.oneBlock v).call hp hsize (by omega)
  · rw [bytesOf_snoc_other cs r hv]
    exact (h.oneBlock v).other hp hv

/-- A handle that takes a block had none. -/
theorem Separate.allocated_call (h : Separate dataBlockSize cs s) (hp : Placing s w r s' x)
    (hw : bytesOf cs w + r.len ≤ dataBlockSize w) :
    BlockTail.Allocated s'.store.dtail (fun v => (s'.blocks v).head?) [] := by
  rcases hp.block with ⟨-, hb, -, ht, -⟩ | ⟨hlt, hb, -, ht, -⟩
  · rw [hb, ht]
    exact h.allocated
  · have hnil : s.blocks w = [] := by
      rcases h.oneBlock w with ⟨hnil, -⟩ | ⟨a, -, hrem, -⟩
      · exact hnil
      · omega
    have hheld : (fun v => (s'.blocks v).head?) =
        Function.update (fun v => (s.blocks v).head?) w
          (some ⟨s.store.dtail, (s.handles w).dataBlockSize⟩) := by
      funext v
      rw [hb, hnil]
      by_cases hv : v = w
      · subst hv
        simp
      · simp [hv]
    rw [hheld, ht]
    exact h.allocated.reserve w _

/-- The records in the blocks stay where they are. -/
theorem Separate.placed_call (h : Separate dataBlockSize cs s) (hp : Placing s w r s' x)
    (hw : bytesOf cs w + r.len ≤ dataBlockSize w) {y : HandleDone η} (hy : y ∈ s.done)
    (h0 : y.record.len ≠ 0) : ∃ a, s'.blocks y.who = [⟨a, dataBlockSize y.who⟩] ∧
      a ≤ y.offset ∧ y.offset + y.record.len ≤ (s'.handles y.who).curOffset := by
  obtain ⟨a, hb, hle, hend⟩ := h.placed y hy h0
  by_cases hv : y.who = w
  · obtain ⟨-, hrem, -⟩ := (h.oneBlock y.who).head? (hb ▸ List.mem_cons_self)
    subst hv
    rcases hp.block with ⟨-, hs, -, -, ho⟩ | ⟨hlt, -⟩
    · refine ⟨a, by rw [hs, hb], hle, ?_⟩
      rw [hp.curOffset, ho]
      omega
    · omega
  · exact ⟨a, (hp.blocks_other hv).trans hb, hle, by rw [hp.others _ hv]; exact hend⟩

theorem Separate.call (h : Separate dataBlockSize cs s)
    (hsize : (s.handles w).dataBlockSize = dataBlockSize w) (hp : Placing s w r s' x)
    (hfit : ∀ v, bytesOf (cs ++ [(w, r)]) v ≤ dataBlockSize v) :
    Separate dataBlockSize (cs ++ [(w, r)]) s' := by
  have hw : bytesOf cs w + r.len ≤ dataBlockSize w := by
    rw [← bytesOf_snoc_self]
    exact hfit w
  have hone := h.oneBlock_call hsize hp hw
  have halloc := h.allocated_call hp hw
  have hold : ∀ v, bytesOf cs v ≤ dataBlockSize v :=
    fun v => Nat.le_trans (bytesOf_le_snoc cs w r v) (hfit v)
  have honew : OneBlock (dataBlockSize w) (bytesOf cs w + r.len) w s' := by
    rw [← bytesOf_snoc_self]
    exact hone w
  have hnew : ∀ y ∈ s.done, Block.Apart y.block x.block := fun y hy =>
    h.new_apart hold hp halloc honew hw hy
  refine ⟨hone, halloc, fun y hy h0 => ?_, ?_, fun y hy => ?_⟩
  · rw [hp.done] at hy
    rcases List.mem_append.mp hy with hy | hy
    · exact h.placed_call hp hw hy h0
    · obtain rfl := List.mem_singleton.mp hy
      rw [hp.record] at h0 ⊢
      obtain ⟨a, hb, hoff, -⟩ := hp.inside honew hw h0
      rw [hp.who]
      exact ⟨a, hb, by omega, Nat.le_of_eq hp.curOffset.symm⟩
  · rw [hp.done]
    refine List.pairwise_append.mpr ⟨h.apart, List.pairwise_singleton _ _, fun y hy z hz => ?_⟩
    obtain rfl := List.mem_singleton.mp hz
    exact hnew y hy
  · rw [hp.done] at hy
    rw [hp.dlog]
    rcases List.mem_append.mp hy with hy | hy
    · have hapart := (hnew y hy).symm
      rw [HandleDone.block, hp.record] at hapart
      exact (Datalog.read_write_other _ _ _ _ _ hapart).trans (h.kept y hy)
    · obtain rfl := List.mem_singleton.mp hy
      rw [hp.record]
      exact Datalog.read_write_self _ _ _

/-! ## Runs -/

variable {ids : List Nat}

theorem recorded_calls
    (h : (init indexes requestBatchSize dataBlockSize : Session D η).handleCalls cs = .ok (s, ids)) :
    Recorded dataBlockSize cs s :=
  handleCalls_induction (P := fun cs s _ => Recorded dataBlockSize cs s) .init
    (fun _ _ _ _ _ _ _ h hc => h.call hc) cs h

/-- A handle whose records are no longer than a block obtains one block only. -/
theorem oneBlock_calls
    (h : (init indexes requestBatchSize dataBlockSize : Session D η).handleCalls cs = .ok (s, ids))
    (hlen : ∀ r, (w, r) ∈ cs → r.len ≤ dataBlockSize w) :
    OneBlock (dataBlockSize w) (bytesOf cs w) w s := by
  refine (handleCalls_induction (P := fun cs s _ => Recorded dataBlockSize cs s ∧
    ((∀ r, (w, r) ∈ cs → r.len ≤ dataBlockSize w) →
      OneBlock (dataBlockSize w) (bytesOf cs w) w s)) ⟨.init, fun _ => .inl ⟨rfl, rfl, rfl⟩⟩
    ?_ cs h).2 hlen
  rintro cs v r s s' - id ⟨hrec, ih⟩ hc
  refine ⟨hrec.call hc, fun hlen => ?_⟩
  have hone := ih fun r' hr' => hlen r' (List.mem_append_left _ hr')
  obtain ⟨x, hp⟩ := call_placing hc
  by_cases hv : w = v
  · subst hv
    rw [bytesOf_snoc_self]
    exact hone.call hp (hrec.size w) (hlen r (List.mem_append_right _ List.mem_cons_self))
  · rw [bytesOf_snoc_other cs r hv]
    exact hone.other hp hv

theorem separate_calls
    (h : (init indexes requestBatchSize dataBlockSize : Session D η).handleCalls cs = .ok (s, ids))
    (hfit : ∀ w, bytesOf cs w ≤ dataBlockSize w) : Separate dataBlockSize cs s := by
  refine (handleCalls_induction (P := fun cs s _ => Recorded dataBlockSize cs s ∧
    ((∀ w, bytesOf cs w ≤ dataBlockSize w) → Separate dataBlockSize cs s))
    ⟨.init, fun _ => .init⟩ ?_ cs h).2 hfit
  rintro cs w r s s' - id ⟨hrec, ih⟩ hc
  refine ⟨hrec.call hc, fun hfit => ?_⟩
  obtain ⟨x, hp⟩ := call_placing hc
  refine (ih fun v => ?_).call (hrec.size w) hp hfit
  refine Nat.le_trans ?_ (hfit v)
  by_cases hv : v = w
  · subst hv
    rw [bytesOf_snoc_self]
    omega
  · rw [bytesOf_snoc_other cs r hv]

end Session

namespace Session

variable {η : Type} [DecidableEq η] {indexes : (k : Nat) → List (LogIndex k)}
  {requestBatchSize dataBlockSize : η → Nat} {cs : List (η × Record)}
  {s : Session (BlockLog blockSize) η} {ids : List Nat}

omit [DecidableEq η] in
/-- The entry of an inserted record leads to its bytes. -/
theorem Recorded.region (h : Recorded dataBlockSize cs s) {x : HandleDone η} (hx : x ∈ s.done) :
    s.region x.id = some x.block := by
  have hlt : x.offset < 2 ^ 48 := by
    obtain ⟨hlt, -⟩ := of_decide_eq_true (h.writable x hx)
    rw [Nat.div_lt_iff_lt_mul (by decide)] at hlt
    exact Nat.lt_trans hlt (by decide)
  rw [Session.region, h.entry x hx, Option.map_some, unpack_packOfflen hlt]
  rfl

omit [DecidableEq η] in
theorem Separate.intact [DecidableEq η] (h : Separate dataBlockSize cs s)
    (hrec : Recorded dataBlockSize cs s) (hfit : ∀ w, bytesOf cs w ≤ dataBlockSize w) : Intact s := by
  refine ⟨fun x hx y hy hne b b' hb hb' => ?_, fun x hx b hb => ?_, fun x hx => ?_⟩
  · rw [hrec.region hx] at hb
    rw [hrec.region hy] at hb'
    cases hb
    cases hb'
    have : Std.Symm fun x y : HandleDone η => x.block.Apart y.block := ⟨fun _ _ hxy => hxy.symm⟩
    exact h.apart.forall hx hy fun heq => hne (congrArg HandleDone.id heq)
  · rw [hrec.region hx] at hb
    cases hb
    by_cases h0 : x.record.len = 0
    · exact .inl h0
    · obtain ⟨b, hb, hin⟩ := h.inside hfit hx h0
      exact .inr ⟨b, hb ▸ List.mem_cons_self, hin⟩
  · exact ⟨x.block, hrec.region hx, h.kept x hx⟩

/-- More bytes than a block has do not stay inside it. -/
theorem Intact.fits (h : Intact s)
    (hcalls : (init indexes requestBatchSize dataBlockSize).handleCalls cs = .ok (s, ids)) (w : η) :
    bytesOf cs w ≤ dataBlockSize w := by
  have hrec := recorded_calls hcalls
  by_contra hlt
  by_cases hlen : ∀ r, (w, r) ∈ cs → r.len ≤ dataBlockSize w
  · rcases oneBlock_calls hcalls hlen with ⟨-, -, h0⟩ | ⟨a, hb, -, -, x, hx, hw, h0, hend⟩
    · omega
    · rcases h.inside x hx x.block (hrec.region hx) with hz | ⟨b, hmem, -, hin⟩
      · exact h0 hz
      · rw [hw, hb] at hmem
        obtain rfl := List.mem_singleton.mp hmem
        simp only [HandleDone.block] at hin
        omega
  · push Not at hlen
    obtain ⟨r, hr, hlong⟩ := hlen
    rw [← hrec.done] at hr
    obtain ⟨x, hx, heq⟩ := List.mem_map.mp hr
    cases heq
    rcases h.inside x hx x.block (hrec.region hx) with hz | ⟨b, hmem, hin⟩
    · simp only [HandleDone.block] at hz
      omega
    · have hcount := hrec.count x.who b hmem
      simp only [Block.Inside, HandleDone.block] at hin
      omega

/-- Handles leave each other's records alone exactly if the records of each handle
fit together into one data block of it. -/
theorem intact_iff
    (hcalls : (init indexes requestBatchSize dataBlockSize).handleCalls cs = .ok (s, ids)) :
    Intact s ↔ ∀ w, bytesOf cs w ≤ dataBlockSize w :=
  ⟨fun h w => h.fits hcalls w, fun hfit =>
    (separate_calls hcalls hfit).intact (recorded_calls hcalls) hfit⟩

/-- Two handles take turns; one of them comes twice. -/
def twoHandles : List (Bool × Record) :=
  [(true, .oneByte), (false, .ofByte 8 []), (true, .oneByte)]

/-- Their blocks have room for two bytes each. -/
theorem intact_twoHandles : ∃ (s : Session (BlockLog blockSize) Bool) (ids : List Nat),
    (init (fun _ => []) (fun _ => 1) (fun _ => 2)).handleCalls twoHandles = .ok (s, ids) ∧
      Intact s := by
  have hcalls : ∃ p, (init (fun _ => []) (fun _ => 1) (fun _ => 2) :
      Session (BlockLog blockSize) Bool).handleCalls twoHandles = .ok p := ⟨_, rfl⟩
  obtain ⟨⟨s, ids⟩, hcalls⟩ := hcalls
  exact ⟨s, ids, hcalls, (intact_iff hcalls).mpr fun w => by cases w <;> decide⟩

/-- With room for one byte, the second record of the first handle is written over the record of the
other. -/
theorem overwritten : ∃ (s : Session (BlockLog blockSize) Bool) (ids : List Nat),
    (init (fun _ => []) (fun _ => 1) (fun _ => 1)).handleCalls twoHandles = .ok (s, ids) ∧
      s.store.get 0 1 = some [7] ∧ ¬ Intact s := by
  have hcalls : ∃ p, (init (fun _ => []) (fun _ => 1) (fun _ => 1) :
      Session (BlockLog blockSize) Bool).handleCalls twoHandles = .ok p ∧
        p.1.store.get 0 1 = some [7] := ⟨_, rfl, rfl⟩
  obtain ⟨⟨s, ids⟩, hcalls, hget⟩ := hcalls
  exact ⟨s, ids, hcalls, hget, fun h => absurd (h.fits hcalls true) (by decide)⟩

end Session

end Netplay
