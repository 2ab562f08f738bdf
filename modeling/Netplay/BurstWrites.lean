import Netplay.IdBlocks

/-!
# What the bursts write to the two logs

The entries of the offset log and the records of the data log that a burst has
written stay: ids and bytes of different bursts are disjoint, and so are those
of the packets of one burst.
-/

namespace Netplay

open Packet NetplayUtils BlockTail

theorem Mbuf.size_le (m : Mbuf) : m.size ≤ m.pktLen.toNat := Nat.mod_le _ _

/-! ## Records -/

namespace Store

theorem ptr_appendPkt_self (st : Store) (offset ts : Nat) (pkt : Memory) {len i : Nat}
    (hi : i < 8 + len) : (st.appendPkt offset ts pkt len).ptr offset i = record ts pkt i := by
  simp [ptr, appendPkt, hi]

/-- A byte outside the record keeps its value. -/
theorem ptr_appendPkt_other (st : Store) {offset offset' : Nat} (ts : Nat) (pkt : Memory)
    {len i : Nat} (h : offset + (8 + len) ≤ offset' + i ∨ offset' + i < offset) :
    (st.appendPkt offset ts pkt len).ptr offset' i = st.ptr offset' i := by
  have hd := Nat.div_add_mod offset blockSize
  have hd' := Nat.div_add_mod offset' blockSize
  simp only [ptr, appendPkt]
  rw [if_neg]
  rintro ⟨hblk, h1, h2⟩
  rw [hblk] at hd'
  omega

end Store

/-! ## The operations of a burst do not overlap -/

namespace Op

/-- The ids and the bytes that the operation writes lie in the blocks. -/
def Within (ids bytes : Block) : Op → Prop
  | .setOfflen id _ _ => ids.Holds id
  | .appendPkt offset _ _ len => Block.Inside ⟨offset, 8 + len⟩ bytes
  | _ => True

/-- The operation's entry of the offset log, or its record, is there. -/
def Written (st : Store) : Op → Prop
  | .setOfflen id offset length => st.offlens id = some (packOfflen offset length)
  | .appendPkt offset ts pkt len => ∀ i, i < 8 + len → st.ptr offset i = record ts pkt i
  | _ => True

/-- The operations do not write the same entry or the same bytes. -/
def Independent : Op → Op → Prop
  | .setOfflen id _ _, .setOfflen id' _ _ => id ≠ id'
  | .appendPkt offset _ _ len, .appendPkt offset' _ _ len' =>
    offset + (8 + len) ≤ offset' ∨ offset' + (8 + len') ≤ offset
  | _, _ => True

theorem Within.mono {ids ids' bytes bytes' : Block} {op : Op} (h : op.Within ids bytes)
    (hi : ids.Inside ids') (hb : bytes.Inside bytes') : op.Within ids' bytes' := by
  cases op with
  | setOfflen id offset length => exact ⟨Nat.le_trans hi.1 h.1, Nat.lt_of_lt_of_le h.2 hi.2⟩
  | appendPkt offset ts pkt len => exact ⟨Nat.le_trans hb.1 h.1, Nat.le_trans h.2 hb.2⟩
  | append a => trivial
  | character c second id pkt => trivial

theorem Independent.of_within {ids ids' bytes bytes' : Block} {op op' : Op}
    (h : op.Within ids bytes) (h' : op'.Within ids' bytes') (hi : ids.Apart ids')
    (hb : bytes.Apart bytes') : op.Independent op' := by
  cases op with
  | setOfflen id offset length =>
    cases op' with
    | setOfflen id' offset' length' =>
      rintro rfl
      exact hi id h h'
    | _ => trivial
  | appendPkt offset ts pkt len =>
    cases op' with
    | appendPkt offset' ts' pkt' len' =>
      obtain ⟨h1, h2⟩ := h
      obtain ⟨h1', h2'⟩ := h'
      have hmax := hb (max offset offset')
      simp only [Block.Holds] at hmax
      simp only [Independent]
      dsimp only at h1 h2 h1' h2'
      omega
    | _ => trivial
  | append a => cases op' <;> trivial
  | character c second id pkt => cases op' <;> trivial

theorem written_stepOp_self (st : Store) (op : Op) : op.Written (st.stepOp op).1 := by
  cases op with
  | setOfflen id offset length => simp [Written, Store.stepOp]
  | appendPkt offset ts pkt len => exact fun i hi => st.ptr_appendPkt_self offset ts pkt hi
  | append a => trivial
  | character c second id pkt => trivial

/-- What is written stays under an operation that does not overlap it. -/
theorem Written.stepOp {st : Store} {op op' : Op} (h : op.Written st)
    (hi : op.Independent op') : op.Written (st.stepOp op').1 := by
  cases op with
  | setOfflen id offset length =>
    cases op' with
    | setOfflen id' offset' length' =>
      have hne : id ≠ id' := hi
      simpa [Written, Store.stepOp, hne] using h
    | _ => exact h
  | appendPkt offset ts pkt len =>
    cases op' with
    | appendPkt offset' ts' pkt' len' =>
      intro i hlt
      have hor : offset + (8 + len) ≤ offset' ∨ offset' + (8 + len') ≤ offset := hi
      exact (st.ptr_appendPkt_other ts' pkt' (by omega)).trans (h i hlt)
    | _ => exact h
  | append a => trivial
  | character c second id pkt => trivial

theorem Written.of_logs {st st' : Store} {op : Op} (h : op.Written st)
    (ho : st'.offlens = st.offlens) (hd : st'.dlog = st.dlog) : op.Written st' := by
  cases op with
  | setOfflen id offset length => exact (congrFun ho id).trans h
  | appendPkt offset ts pkt len =>
    intro i hi
    rw [← h i hi, Store.ptr, Store.ptr, hd]
  | append a => trivial
  | character c second id pkt => trivial

theorem Written.stepAppend {st : Store} {op : Op} (h : op.Written st) (a : Appending) :
    op.Written (st.stepAppend a).1 :=
  h.of_logs (by cases a <;> rfl) (by cases a <;> rfl)

end Op

theorem pktOps_within (now numChars id offset : Nat) (m : Mbuf) :
    ∀ op ∈ pktOps now numChars id offset m, op.Within ⟨id, 1⟩ ⟨offset, 8 + m.size⟩ := by
  intro op hop
  simp only [pktOps, List.mem_append, List.mem_map, List.mem_cons, List.not_mem_nil,
    or_false] at hop
  rcases hop with (⟨k, -, rfl⟩ | rfl | rfl) | ⟨c, -, rfl⟩
  · trivial
  · exact ⟨Nat.le_refl _, Nat.lt_succ_self _⟩
  · exact ⟨Nat.le_refl _, Nat.le_refl _⟩
  · trivial

theorem pktOps_independent (now numChars id offset : Nat) (m : Mbuf) :
    (pktOps now numChars id offset m).Pairwise Op.Independent := by
  have happ : ∀ (a : Append) (op : Op), Op.Independent (.append a) op := fun a op => by
    cases op <;> trivial
  have hchar : ∀ (op : Op) c s i p, Op.Independent op (.character c s i p) := fun op c s i p => by
    cases op <;> trivial
  rw [pktOps, List.pairwise_append, List.pairwise_append]
  refine ⟨⟨?_, ?_, ?_⟩, ?_, ?_⟩
  · exact List.pairwise_map.mpr (List.pairwise_of_forall fun _ _ => trivial)
  · exact List.pairwise_pair.mpr trivial
  · intro op hop op' _
    obtain ⟨k, -, rfl⟩ := List.mem_map.mp hop
    exact happ _ op'
  · exact List.pairwise_map.mpr (List.pairwise_of_forall fun _ _ => trivial)
  · intro op _ op' hop'
    obtain ⟨c, -, rfl⟩ := List.mem_map.mp hop'
    exact hchar op _ _ _ _

theorem loopOps_within (now numChars : Nat) (ms : List Mbuf) : ∀ id offset : Nat,
    ∀ op ∈ loopOps now numChars id offset ms, op.Within ⟨id, ms.length⟩
      ⟨offset, ms.length * 8 + (ms.map fun m => m.pktLen.toNat).sum⟩ := by
  induction ms with
  | nil => simp [loopOps]
  | cons m ms ih =>
    intro id offset op hop
    have hsize := m.size_le
    rcases List.mem_append.mp hop with hop | hop
    · refine (pktOps_within now numChars id offset m op hop).mono ⟨?_, ?_⟩ ⟨?_, ?_⟩ <;>
        simp only [List.length_cons, List.map_cons, List.sum_cons] <;> omega
    · refine (ih _ _ op hop).mono ⟨?_, ?_⟩ ⟨?_, ?_⟩ <;>
        simp only [List.length_cons, List.map_cons, List.sum_cons] <;> omega

theorem loopOps_independent (now numChars : Nat) (ms : List Mbuf) : ∀ id offset : Nat,
    (loopOps now numChars id offset ms).Pairwise Op.Independent := by
  induction ms with
  | nil => exact fun _ _ => List.Pairwise.nil
  | cons m ms ih =>
    intro id offset
    rw [loopOps, List.pairwise_append]
    refine ⟨pktOps_independent _ _ _ _ m, ih _ _, fun op hop op' hop' => ?_⟩
    exact Op.Independent.of_within (pktOps_within now numChars id offset m op hop)
      (loopOps_within now numChars ms _ _ op' hop')
      (Block.apart_of_le (Nat.le_refl _)) (Block.apart_of_le (Nat.le_refl _))

theorem burstOps_within (b : Burst) (start offset numChars : Nat) :
    ∀ op ∈ burstOps b start offset numChars, op.Within ⟨start, b.cnt⟩ ⟨offset, b.nbytes⟩ := by
  intro op hop
  rcases List.mem_cons.mp hop with rfl | hop
  · trivial
  · exact loopOps_within _ _ _ _ _ op hop

theorem burstOps_independent (b : Burst) (start offset numChars : Nat) :
    (burstOps b start offset numChars).Pairwise Op.Independent :=
  List.pairwise_cons.mpr ⟨fun op _ => by cases op <;> trivial, loopOps_independent _ _ _ _ _⟩

/-! ## Disjoint bytes -/

namespace Writer

/-- The operations of the call that the writer runs. -/
def ops : Writer → List Op
  | .running b start offset n _ _ => burstOps b start offset n
  | _ => []

theorem ops_within {x : Writer} {op : Op} (h : op ∈ x.ops) :
    ∃ ids bytes, x.block = some ids ∧ x.region = some bytes ∧ op.Within ids bytes := by
  cases x with
  | running b start offset n cur todo =>
    exact ⟨_, _, rfl, rfl, burstOps_within b start offset n op h⟩
  | idle => cases h
  | reserved b start => cases h
  | located b start offset => cases h

/-- The operations that the writer has left behind are written. -/
def Progress (st : Store) : Writer → Prop
  | .running b start offset n _ todo =>
    ∃ done, burstOps b start offset n = done ++ todo ∧ ∀ op ∈ done, op.Written st
  | _ => True

theorem Progress.mono {st st' : Store} {x : Writer} (h : x.Progress st)
    (hst : ∀ op ∈ x.ops, op.Written st → op.Written st') : x.Progress st' := by
  cases x with
  | running b start offset n cur todo =>
    obtain ⟨done, heq, hdone⟩ := h
    refine ⟨done, heq, fun op hop => hst op ?_ (hdone op hop)⟩
    rw [ops, heq]
    exact List.mem_append_left _ hop
  | idle => trivial
  | reserved b start => trivial
  | located b start offset => trivial

end Writer

namespace System

variable {ω : Type}

/-- The bytes that the writers have reserved. -/
def regions (s : System ω) (w : ω) : Option Block := (s.writers w).region

/-- The bytes reserved by the writers and by the bursts that have ended lie below
`dtail` and do not overlap. -/
def BytesApart (s : System ω) : Prop :=
  Allocated s.store.dtail s.regions (s.ended.map Ended.region)

theorem bytesApart_init (numFilters : Nat) (filters : Nat → List PacketFilter) :
    BytesApart (init numFilters filters : System ω) := Allocated.init

variable [DecidableEq ω]

theorem regions_update (s : System ω) (st : Store) (es : List Ended) (w : ω) (x : Writer) :
    regions ⟨st, Function.update s.writers w x, es⟩ = Function.update s.regions w x.region :=
  Function.comp_update Writer.region s.writers w x

theorem bytesApart_same {s : System ω} (h : BytesApart s) {st : Store} {w : ω} {x : Writer}
    (hd : st.dtail = s.store.dtail) (hx : x.region = (s.writers w).region) :
    BytesApart ⟨st, Function.update s.writers w x, s.ended⟩ := by
  rw [BytesApart, regions_update, hx, show (s.writers w).region = s.regions w from rfl,
    Function.update_eq_self, hd]
  exact h

theorem bytesApart_step {s s' : System ω} (h : BytesApart s) (hs : Step s s') : BytesApart s' := by
  cases hs with
  | request w b hw => exact bytesApart_same h rfl (by rw [hw]; rfl)
  | run w st x hw =>
    rcases Writer.step_cases hw with ⟨b, start, hx, -, rfl, rfl⟩ |
      ⟨b, start, offset, hx, rfl, rfl⟩ | ⟨b, start, offset, n, a, todo, hx, rfl, rfl⟩ |
      ⟨b, start, offset, n, op, todo, hx, rfl, rfl⟩
    · rw [BytesApart, regions_update]
      exact h.reserve w b.nbytes
    · exact bytesApart_same h rfl (by rw [hx]; rfl)
    · exact bytesApart_same h (by cases a <;> rfl) (by rw [hx]; rfl)
    · exact bytesApart_same h (by cases op <;> rfl) (by rw [hx]; rfl)
  | publish w b start offset n hw hr =>
    rw [BytesApart, regions_update, List.map_append]
    exact h.keep (b := ⟨offset, b.nbytes⟩) (by rw [regions, hw]; rfl)

/-! ## What is written stays -/

/-- The operations left behind by the writers, and all of those of the bursts that
have ended, are written. -/
structure LogsWritten (s : System ω) : Prop where
  running : ∀ w, (s.writers w).Progress s.store
  ended : ∀ e ∈ s.ended, ∀ op ∈ e.ops, op.Written s.store

omit [DecidableEq ω] in
theorem logsWritten_init (numFilters : Nat) (filters : Nat → List PacketFilter) :
    LogsWritten (init numFilters filters : System ω) :=
  ⟨fun _ => trivial, fun _ h => by simp [init] at h⟩

omit [DecidableEq ω] in
theorem ended_apart_pending {s : System ω} (h : IdsTiled s) {e : Ended} (he : e ∈ s.ended) {w : ω}
    {b : Block} (hw : s.pending w = some b) : e.block.Apart b := by
  intro i hi hi'
  have hlt := (h.ended_iff i).mp ⟨e, he, hi⟩
  have hle := (h.tiles.inside ⟨b, hw, hi'⟩).1
  omega

omit [DecidableEq ω] in
/-- Operations of different writers are independent. -/
theorem independent_of_ne {s : System ω} (hi : IdsTiled s) (hb : BytesApart s) {v w : ω}
    (hne : v ≠ w) {op op' : Op} (hv : op ∈ (s.writers v).ops) (hw : op' ∈ (s.writers w).ops) :
    op.Independent op' := by
  obtain ⟨ids, bytes, h1, h2, hin⟩ := Writer.ops_within hv
  obtain ⟨ids', bytes', h1', h2', hin'⟩ := Writer.ops_within hw
  exact Op.Independent.of_within hin hin' (hi.tiles.apart hne h1 h1') (hb.apart v w _ _ hne h2 h2')

omit [DecidableEq ω] in
theorem independent_of_ended {s : System ω} (hi : IdsTiled s) (hb : BytesApart s) {e : Ended}
    (he : e ∈ s.ended) {w : ω} {op op' : Op} (hop : op ∈ e.ops) (hw : op' ∈ (s.writers w).ops) :
    op.Independent op' := by
  obtain ⟨ids', bytes', h1', h2', hin'⟩ := Writer.ops_within hw
  have hin := burstOps_within e.burst e.start e.offset e.numChars op hop
  exact Op.Independent.of_within hin hin' (ended_apart_pending hi he h1')
    (hb.kept_apart w _ h2' e.region (List.mem_map_of_mem he)).symm

/-- A step that changes only lists and counters, and puts the writer where its
progress is clear. -/
theorem logsWritten_same {s : System ω} (h : LogsWritten s) {st : Store} {w : ω} {x : Writer}
    (ho : st.offlens = s.store.offlens) (hd : st.dlog = s.store.dlog) (hx : x.Progress st) :
    LogsWritten ⟨st, Function.update s.writers w x, s.ended⟩ := by
  refine ⟨fun v => ?_, fun e he op hop => (h.ended e he op hop).of_logs ho hd⟩
  by_cases hv : v = w
  · subst hv
    simpa using hx
  · simpa [hv] using (h.running v).mono fun op _ hop => hop.of_logs ho hd

theorem logsWritten_step {s s' : System ω} (hi : IdsTiled s) (hb : BytesApart s)
    (h : LogsWritten s) (hs : Step s s') : LogsWritten s' := by
  cases hs with
  | request w b hw => exact logsWritten_same h rfl rfl trivial
  | run w st x hw =>
    have hself := h.running w
    rcases Writer.step_cases hw with ⟨b, start, hx, -, rfl, rfl⟩ |
      ⟨b, start, offset, hx, rfl, rfl⟩ | ⟨b, start, offset, n, a, todo, hx, rfl, rfl⟩ |
      ⟨b, start, offset, n, op, todo, hx, rfl, rfl⟩
    · exact logsWritten_same h rfl rfl trivial
    · exact logsWritten_same h rfl rfl ⟨[], rfl, fun _ hop => by simp at hop⟩
    · rw [hx] at hself
      obtain ⟨done, heq, hdone⟩ := hself
      exact logsWritten_same h (by cases a <;> rfl) (by cases a <;> rfl)
        ⟨done, heq, fun op hop => (hdone op hop).stepAppend a⟩
    · have hop : op ∈ (s.writers w).ops := by
        rw [hx] at hself ⊢
        obtain ⟨done, heq, -⟩ := hself
        simp [Writer.ops, heq]
      refine ⟨fun v => ?_, fun e he op' hop' =>
        (h.ended e he op' hop').stepOp (independent_of_ended hi hb he hop' hop)⟩
      by_cases hv : v = w
      · subst hv
        rw [hx] at hself
        obtain ⟨done, heq, hdone⟩ := hself
        have hpair := burstOps_independent b start offset n
        rw [heq, List.pairwise_append] at hpair
        simp only [Function.update_self]
        refine ⟨done ++ [op], by simp [heq], fun op' hop' => ?_⟩
        rcases List.mem_append.mp hop' with hop' | hop'
        · exact (hdone op' hop').stepOp (hpair.2.2 op' hop' op List.mem_cons_self)
        · obtain rfl := List.mem_singleton.mp hop'
          exact op'.written_stepOp_self s.store
      · simpa [hv] using (h.running v).mono fun op' hop' hwr =>
          hwr.stepOp (independent_of_ne hi hb hv hop' hop)
  | publish w b start offset n hw hr =>
    have hlogs : ∀ op : Op, op.Written s.store → op.Written (s.store.endBlock start b.cnt) :=
      fun op hop => hop.of_logs rfl rfl
    refine ⟨fun v => ?_, fun e he op hop => hlogs op ?_⟩
    · by_cases hv : v = w
      · subst hv
        simp [Writer.Progress]
      · simpa [hv] using (h.running v).mono fun op _ => hlogs op
    · rcases List.mem_append.mp he with he | he
      · exact h.ended e he op hop
      · obtain rfl := List.mem_singleton.mp he
        have hself := h.running w
        rw [hw] at hself
        obtain ⟨done, heq, hdone⟩ := hself
        rw [List.append_nil] at heq
        exact hdone op (heq ▸ hop)

theorem bytesApart_reached {numFilters : Nat} {filters : Nat → List PacketFilter} {s : System ω}
    (h : Reached numFilters filters s) : BytesApart s := by
  induction h with
  | refl => exact bytesApart_init numFilters filters
  | tail _ hs ih => exact bytesApart_step ih hs

theorem logsWritten_reached {numFilters : Nat} {filters : Nat → List PacketFilter} {s : System ω}
    (h : Reached numFilters filters s) : LogsWritten s := by
  induction h with
  | refl => exact logsWritten_init numFilters filters
  | tail hr hs ih => exact logsWritten_step (idsTiled_reached hr) (bytesApart_reached hr) ih hs

end System

end Netplay
