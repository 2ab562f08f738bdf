import Netplay.History
import Netplay.PlanIndexes
import Netplay.QueryAtomicity
import Netplay.ScanResult

/-!
# The answer of a cast

`filter_pkts` on the store of a history. Each clause scans one index; a clause with a
packet filter also inserts the first id of its scan, which the filter never sees.
-/

namespace Netplay

open Text Packet NetplayUtils QueryPlanner

/-- The scan of a clause. -/
def ClausePlan.scan (c : ClausePlan) (a : Attribute) : Scan :=
  ⟨.index a, c.idxFilter.tokRange.first, c.idxFilter.tokRange.second,
    if c.performPktFilter then some c.pktFilter else none⟩

/-- `filter_pkts` by itself: the ids inserted when each scan finishes within `n`
steps, `junk` being what it reads where nothing is stored. -/
def Store.filterPkts (st : Store) (n : Nat) : (junk : Nat → Nat → Nat) → QueryPlan →
    Option (List Nat)
  | _, [] => some []
  | junk, c :: plan =>
    (Attribute.ofIndex c.idxFilter.indexId).bind fun a =>
      ((c.scan a).drain st st.numPkts n (junk 0) .construct []).bind fun res =>
        (st.filterPkts n (fun i => junk (i + 1)) plan).map (res ++ ·)

/-! ## A clause on the store of a history -/

namespace ClausePlan

/-- The token lies in the range of the index filter, and the packet filter, where
there is one, accepts the packet. -/
def Accepts (c : ClausePlan) (pkt : Memory) (ts : UInt32) : Prop :=
  c.idxFilter.Satisfied pkt ts ∧ (c.performPktFilter = true → c.pktFilter.apply pkt ts = true)

/-- `first <= second`, and `second` is below the largest key of the index. -/
def InRange (c : ClausePlan) : Prop :=
  c.idxFilter.tokRange.first ≤ c.idxFilter.tokRange.second ∧
    ∀ a : Attribute, c.idxFilter.indexId = a.index →
      c.idxFilter.tokRange.second + 1 < (Target.index a).keys

/-- The id is in the first slot of the first list with entries that the clause scans. -/
def IsFirst (c : ClausePlan) (st : Store) (id : Nat) : Prop :=
  ∃ a : Attribute, c.idxFilter.indexId = a.index ∧ (c.scan a).IsFirst st id

end ClausePlan

/-- The packet with the id is accepted by a clause. -/
def FullScan (plan : QueryPlan) (bs : List Burst) (id : Nat) : Prop :=
  ∃ m ts, (packets bs)[id]? = some (m, ts) ∧ ∃ c ∈ plan, c.Accepts m.data ts

/-- The packets that a clause with a packet filter meets first are accepted by some clause. -/
def FirstsAccepted (plan : QueryPlan) (bs : List Burst) (st : Store) : Prop :=
  ∀ c ∈ plan, c.performPktFilter = true → ∀ id, c.IsFirst st id → FullScan plan bs id

/-- A run that has inserted a history of TCP and UDP packets. -/
structure Inserted (numFilters : Nat) (filters : Nat → List PacketFilter) (s : System Unit)
    (bs : List Burst) : Prop where
  reached : System.Reached numFilters filters s
  history : s.HistoryOf bs
  nonempty : s.store.NoneEmpty
  tcpOrUdp : ∀ p ∈ packets bs, p.1.TcpOrUdp

namespace Inserted

variable {numFilters : Nat} {filters : Nat → List PacketFilter} {s : System Unit} {bs : List Burst}

/-- The packet filter is applied to the packet and its second. -/
theorem applyAt_eq (h : Inserted numFilters filters s bs) {id : Nat} {m : Mbuf} {ts : UInt32}
    (hid : (packets bs)[id]? = some (m, ts)) (f : PacketFilter) :
    s.store.applyAt f id = some (f.apply m.data ts) := by
  obtain ⟨e, off, hp, rfl⟩ := h.history.packetAt h.reached hid
  have hoff : off < 2 ^ 48 := by
    have h1 := hp.bound
    have h2 := System.dtail_lt h.reached
    simp only [numBlocks, blockSize] at h2
    omega
  have hsize := (h.tcpOrUdp _ (List.mem_of_getElem? hid)).2
  have hsame : SameHeaders (fun i => s.store.ptr off (8 + i)) m.data := by
    intro i hi
    have hlt : 8 + i < 8 + m.size := Nat.add_lt_add_left (Nat.lt_of_lt_of_le hi hsize) 8
    change s.store.ptr off (8 + i) = m.data i
    rw [hp.bytes (8 + i) hlt, record, if_neg (by omega), Nat.add_sub_cancel_left]
  rw [Store.applyAt, hp.offlen, Option.map_some, unpack_packOfflen hoff]
  dsimp only
  rw [hp.timestamp, UInt32.ofNat_toNat, f.apply_congr hsame]

theorem stored_lt (h : Inserted numFilters filters s bs) {a : Attribute} {tok j : Nat}
    (hj : j < (s.store.lists (.index a.index tok)).tail) :
    ∃ id, (s.store.lists (.index a.index tok)).slots j = .stored id ∧ id < s.store.numPkts := by
  obtain ⟨id, e, m, off, hid, -, hslot, -⟩ :=
    System.stored_of_quiescent h.reached h.history.quiescent hj
  exact ⟨id, hslot, hid⟩

theorem exists_packet (h : Inserted numFilters filters s bs) {id : Nat} (hid : id < s.store.numPkts) :
    ∃ m ts, (packets bs)[id]? = some (m, ts) := by
  rw [Store.numPkts, h.history.count] at hid
  exact ⟨_, _, List.getElem?_eq_getElem hid⟩

variable {c : ClausePlan} {a : Attribute}

theorem settled (h : Inserted numFilters filters s bs) (c : ClausePlan) (a : Attribute) :
    (c.scan a).Settled s.store s.store.numPkts where
  stored _ _ hj := h.stored_lt hj
  null _ hc := (System.listsCreated_reached h.reached).tail _ hc

theorem lt_numPkts (h : Inserted numFilters filters s bs) {id : Nat}
    (hl : (c.scan a).Listed s.store id) : id < s.store.numPkts := by
  obtain ⟨tok, j, -, -, hslot⟩ := hl
  have hj : j < (s.store.lists (.index a.index tok)).tail := by
    by_contra hge
    have hfree := ((System.slotsOwed_reached h.reached).free_iff (.index a.index tok) j).mpr
      (Nat.le_of_not_lt hge)
    exact absurd (hfree.symm.trans hslot) (by simp)
  obtain ⟨id', hslot', hlt⟩ := h.stored_lt hj
  cases hslot.symm.trans hslot'
  exact hlt

/-- The ids listed in the range of a clause are those of the packets with the token in it. -/
theorem listed_iff (h : Inserted numFilters filters s bs) (ha : c.idxFilter.indexId = a.index)
    (id : Nat) : (c.scan a).Listed s.store id ↔
      ∃ m ts, (packets bs)[id]? = some (m, ts) ∧ c.idxFilter.Satisfied m.data ts := by
  constructor
  · intro hl
    obtain ⟨e, he, m, hm, hsel⟩ := (System.listed_iff h.reached (h.lt_numPkts hl)).mp hl
    exact ⟨m, e.burst.now, h.history.packet e he id m hm, a, ha, hsel.2⟩
  · rintro ⟨m, ts, hid, b, hb, hin⟩
    obtain rfl : a = b := Attribute.index_injective (ha.symm.trans hb)
    obtain ⟨e, off, hp, rfl⟩ := h.history.packetAt h.reached hid
    have hports := (h.tcpOrUdp _ (List.mem_of_getElem? hid)).1
    have hlt := (System.idsTiled_reached h.reached).ended_iff id |>.mp ⟨e, hp.mem, hp.gave.holds⟩
    exact (System.listed_iff h.reached hlt).mpr ⟨e, hp.mem, m, hp.gave, fun _ => hports, hin⟩

/-- The packet with the id passes the packet filter of the clause. -/
def Passes (bs : List Burst) (c : ClausePlan) (id : Nat) : Prop :=
  ∀ m ts, (packets bs)[id]? = some (m, ts) →
    c.performPktFilter = true → c.pktFilter.apply m.data ts = true

theorem sensible (h : Inserted numFilters filters s bs) (c : ClausePlan) (a : Attribute) :
    (c.scan a).Sensible s.store s.store.numPkts (Passes bs c) where
  null _ j hc := by
    refine ((System.slotsOwed_reached h.reached).free_iff _ j).mpr ?_
    rw [(System.listsCreated_reached h.reached).tail _ hc]
    exact Nat.zero_le j
  free _ j hj := ((System.slotsOwed_reached h.reached).free_iff _ j).mpr hj
  unfiltered hnone id m ts _ hperform := by
    rw [ClausePlan.scan, if_pos hperform] at hnone
    cases hnone
  filtered f hf id ok _ hid hok := by
    have hperform : c.performPktFilter = true := by
      by_contra hne
      rw [ClausePlan.scan, if_neg hne] at hf
      cases hf
    rw [ClausePlan.scan, if_pos hperform] at hf
    cases hf
    obtain ⟨m, ts, hpkt⟩ := h.exists_packet hid
    rw [h.applyAt_eq hpkt] at hok
    cases hok
    constructor
    · intro happ m' ts' hpkt' _
      cases hpkt.symm.trans hpkt'
      exact happ
    · exact fun hpass => hpass m ts hpkt hperform

theorem finite (h : Inserted numFilters filters s bs) (ha : c.idxFilter.indexId = a.index)
    (hr : c.InRange) : (c.scan a).Finite s.store where
  range := hr.1
  keys := hr.2 a ha
  nonempty tok _ _ hc := h.nonempty _ hc
  lookup f _ tok j _ _ hj := by
    obtain ⟨id, hslot, hid⟩ := h.stored_lt hj
    obtain ⟨m, ts, hpkt⟩ := h.exists_packet hid
    exact ⟨id, hslot, by rw [h.applyAt_eq hpkt]; rfl⟩

/-- A clause accepts the packet with the id. -/
def AcceptedBy (bs : List Burst) (c : ClausePlan) (id : Nat) : Prop :=
  ∃ m ts, (packets bs)[id]? = some (m, ts) ∧ c.Accepts m.data ts

theorem listed_passes_iff (h : Inserted numFilters filters s bs)
    (ha : c.idxFilter.indexId = a.index) (id : Nat) :
    (c.scan a).Listed s.store id ∧ Passes bs c id ↔ AcceptedBy bs c id := by
  rw [h.listed_iff ha]
  constructor
  · rintro ⟨⟨m, ts, hid, hsat⟩, hpass⟩
    exact ⟨m, ts, hid, hsat, hpass m ts hid⟩
  · rintro ⟨m, ts, hid, hsat, hpass⟩
    refine ⟨⟨m, ts, hid, hsat⟩, fun m' ts' hid' => ?_⟩
    cases hid.symm.trans hid'
    exact hpass

/-- A clause inserts the ids of the packets that it accepts, and the one it meets first. -/
theorem clause_drain (h : Inserted numFilters filters s bs) (ha : c.idxFilter.indexId = a.index)
    (hr : c.InRange) (junk : Nat → Nat) : ∃ n out,
      (c.scan a).drain s.store s.store.numPkts n junk .construct [] = some out ∧
        ∀ id, id ∈ out ↔ AcceptedBy bs c id ∨ c.IsFirst s.store id := by
  obtain ⟨n, out, hd⟩ := Scan.drain_finishes (h.finite ha hr) s.store.numPkts junk .construct trivial []
  refine ⟨n, out, hd, fun id => ?_⟩
  have hfirst : c.IsFirst s.store id ↔ (c.scan a).IsFirst s.store id := by
    constructor
    · rintro ⟨b, hb, hf⟩
      obtain rfl := Attribute.index_injective (ha.symm.trans hb)
      exact hf
    · exact fun hf => ⟨a, ha, hf⟩
  have hlisted : (c.scan a).IsFirst s.store id → (c.scan a).Listed s.store id := by
    rintro ⟨tok, h1, h2, hslot, -⟩
    exact ⟨tok, 0, h1, h2, hslot⟩
  rw [Scan.mem_drain_iff (h.finite ha hr) (h.settled c a) (h.sensible c a) hd, hfirst,
    ← h.listed_passes_iff ha, and_or_left, and_iff_right_of_imp hlisted]

end Inserted

theorem filterPkts_mono {st : Store} {n m : Nat} (hnm : n ≤ m) (plan : QueryPlan) :
    ∀ {junk : Nat → Nat → Nat} {out : List Nat}, st.filterPkts n junk plan = some out →
      st.filterPkts m junk plan = some out := by
  induction plan with
  | nil => exact fun h => h
  | cons c plan ih =>
    intro junk out h
    obtain ⟨a, ha, h1⟩ := Option.bind_eq_some_iff.mp h
    obtain ⟨res, hres, h2⟩ := Option.bind_eq_some_iff.mp h1
    obtain ⟨rest, hrest, rfl⟩ := Option.map_eq_some_iff.mp h2
    simp only [Store.filterPkts, ha, Option.bind_some, Scan.drain_mono hnm hres, ih hrest,
      Option.map_some]

namespace Inserted

variable {numFilters : Nat} {filters : Nat → List PacketFilter} {s : System Unit} {bs : List Burst}

/-- The answer is the union over the clauses. -/
theorem mem_filterPkts (h : Inserted numFilters filters s bs) (plan : QueryPlan)
    (hknown : ∀ c ∈ plan, ∃ a : Attribute, c.idxFilter.indexId = a.index)
    (hr : ∀ c ∈ plan, c.InRange) : ∀ junk : Nat → Nat → Nat, ∃ n out,
      s.store.filterPkts n junk plan = some out ∧
        ∀ id, id ∈ out ↔ ∃ c ∈ plan, AcceptedBy bs c id ∨ c.IsFirst s.store id := by
  induction plan with
  | nil => exact fun junk => ⟨0, [], rfl, by simp⟩
  | cons c plan ih =>
    intro junk
    obtain ⟨a, ha⟩ := hknown c List.mem_cons_self
    obtain ⟨n1, res, hres, hmem⟩ := h.clause_drain ha (hr c List.mem_cons_self) (junk 0)
    obtain ⟨n2, rest, hrest, hmem'⟩ := ih (fun c hc => hknown c (List.mem_cons_of_mem _ hc))
      (fun c hc => hr c (List.mem_cons_of_mem _ hc)) fun i => junk (i + 1)
    refine ⟨max n1 n2, res ++ rest, ?_, fun id => ?_⟩
    · simp only [Store.filterPkts, ha, Attribute.ofIndex_index, Option.bind_some,
        Scan.drain_mono (Nat.le_max_left n1 n2) hres,
        filterPkts_mono (Nat.le_max_right n1 n2) plan hrest, Option.map_some]
    · rw [List.mem_append, hmem, hmem', List.exists_mem_cons_iff]

/-- A clause without packet filter accepts the packet that it meets first. -/
theorem accepted_of_isFirst (h : Inserted numFilters filters s bs) {c : ClausePlan} {id : Nat}
    (hperform : c.performPktFilter = false) (hf : c.IsFirst s.store id) : AcceptedBy bs c id := by
  obtain ⟨a, ha, tok, h1, h2, hslot, -⟩ := hf
  refine (h.listed_passes_iff ha id).mp ⟨⟨tok, 0, h1, h2, hslot⟩, fun m ts _ htrue => ?_⟩
  rw [hperform] at htrue
  cases htrue

end Inserted

theorem fullScan_iff (plan : QueryPlan) (bs : List Burst) (id : Nat) :
    FullScan plan bs id ↔ ∃ c ∈ plan, Inserted.AcceptedBy bs c id := by
  constructor
  · rintro ⟨m, ts, hid, c, hc, hacc⟩
    exact ⟨c, hc, m, ts, hid, hacc⟩
  · rintro ⟨c, hc, m, ts, hid, hacc⟩
    exact ⟨m, ts, hid, c, hc, hacc⟩

/-- Every history of bursts of TCP and UDP packets is such a run. -/
theorem history_inserted {numFilters : Nat} {filters : Nat → List PacketFilter} {bs : List Burst}
    {st : Store} (hbs : ∀ b ∈ bs, b.pkts ≠ [] ∧ ∀ m ∈ b.pkts, m.TcpOrUdp)
    (hst : bs.foldlM Store.insertPktburst (Store.init numFilters filters) = some st) :
    ∃ s : System Unit, s.store = st ∧ Inserted numFilters filters s bs := by
  obtain ⟨s, hreached, rfl, hhist⟩ := System.history_reached bs hst
  refine ⟨s, rfl, hreached, hhist, ?_, fun p hp => ?_⟩
  · exact System.history_noneEmpty bs (fun b hb => (hbs b hb).1) hst
  · obtain ⟨b, hb, hp⟩ := List.mem_flatMap.mp hp
    obtain ⟨m, hm, rfl⟩ := List.mem_map.mp hp
    exact (hbs b hb).2 m hm

/-- After every history of bursts of TCP and UDP packets and for every plan, the scans
come to their end, and the answer is that of a full scan exactly if the packets that
clauses with a packet filter meet first are in it. -/
theorem cast_full_scan_iff {numFilters : Nat} {filters : Nat → List PacketFilter} {bs : List Burst}
    {st : Store} {counts : Counts} {e : Expression} {now : UInt32} {plan : QueryPlan}
    (hbs : ∀ b ∈ bs, b.pkts ≠ [] ∧ ∀ m ∈ b.pkts, m.TcpOrUdp)
    (hst : bs.foldlM Store.insertPktburst (Store.init numFilters filters) = some st)
    (hplan : QueryPlanner.plan counts e now = .ok plan) (hr : ∀ c ∈ plan, c.InRange)
    (junk : Nat → Nat → Nat) :
    st.numPkts = (packets bs).length ∧ ∃ n out, st.filterPkts n junk plan = some out ∧
      ((∀ id, id ∈ out ↔ FullScan plan bs id) ↔ FirstsAccepted plan bs st) := by
  obtain ⟨s, rfl, h⟩ := history_inserted hbs hst
  obtain ⟨n, out, hout, hmem⟩ := h.mem_filterPkts plan (plan_known hplan) hr junk
  refine ⟨h.history.count, n, out, hout, ?_⟩
  constructor
  · intro hall c hc _ id hf
    exact (hall id).mp ((hmem id).mpr ⟨c, hc, .inr hf⟩)
  · intro hfirst id
    rw [hmem, fullScan_iff]
    constructor
    · rintro ⟨c, hc, hacc | hf⟩
      · exact ⟨c, hc, hacc⟩
      · cases hp : c.performPktFilter with
        | false => exact ⟨c, hc, h.accepted_of_isFirst hp hf⟩
        | true => exact (fullScan_iff plan bs id).mp (hfirst c hc hp id hf)
    · rintro ⟨c, hc, hacc⟩
      exact ⟨c, hc, .inl hacc⟩

/-- A TCP packet from port 0 to a port. -/
def portPkt (port : UInt8) : Memory := fun i => if i = 23 then 6 else if i = 36 then port else 0

/-- A burst of packets to ports 0 and 1. -/
def portBurst : Burst := ⟨0, [⟨portPkt 0, 60⟩, ⟨portPkt 1, 60⟩]⟩

def portStore : Store := ((Store.init 0 fun _ => []).burstBody portBurst).endBlock 0 2

theorem portStore_history :
    [portBurst].foldlM Store.insertPktburst (Store.init 0 fun _ => []) = some portStore := by
  have h := Store.insertPktburst_eq (Store.init 0 fun _ => []) portBurst rfl (by decide)
  simp only [List.foldlM_cons, List.foldlM_nil, h, Option.bind_eq_bind, Option.bind_some]
  rfl

theorem portBurst_tcpOrUdp : ∀ b ∈ [portBurst], b.pkts ≠ [] ∧ ∀ m ∈ b.pkts, m.TcpOrUdp := by
  simp only [forall_eq, portBurst, List.mem_cons, List.not_mem_nil, or_false,
    forall_eq_or_imp]
  exact ⟨by simp, ⟨by decide, by decide⟩, by decide, by decide⟩

/-- `src_port==0&&dst_port==0` and `src_port==0&&dst_port==1`. -/
def portQuery (port : Bytes) : Expression :=
  .conjunction [.predicate ⟨lit "src_port", lit "==", lit "0"⟩,
    .predicate ⟨lit "dst_port", lit "==", port⟩]

/-- Their plans: the scan of source port 0, filtered by the destination port. -/
def portClause (port : Nat) : ClausePlan :=
  ⟨⟨srcportIdx, ⟨0, 0⟩⟩, { openFilter with dstPort := ⟨port, port⟩ }, true⟩

theorem portQuery_plan {port : Nat} {v : Bytes}
    (h : buildIndexFilter ⟨lit "dst_port", lit "==", v⟩ 0 = .ok ⟨dstportIdx, ⟨port, port⟩⟩) :
    QueryPlanner.plan (fun _ _ _ => .ok 0) (portQuery v) 0 = .ok [portClause port] := by
  have hsrc : buildIndexFilter ⟨lit "src_port", lit "==", lit "0"⟩ 0 = .ok ⟨srcportIdx, ⟨0, 0⟩⟩ := rfl
  have hclause : buildClause 0 [.predicate ⟨lit "src_port", lit "==", lit "0"⟩,
      .predicate ⟨lit "dst_port", lit "==", v⟩] =
      .ok [⟨srcportIdx, ⟨0, 0⟩⟩, ⟨dstportIdx, ⟨port, port⟩⟩] := by
    simp only [buildClause, hsrc, h]
    rfl
  have hreduce : reduceClause [⟨srcportIdx, ⟨0, 0⟩⟩, ⟨dstportIdx, ⟨port, port⟩⟩] =
      some [⟨srcportIdx, ⟨0, 0⟩⟩, ⟨dstportIdx, ⟨port, port⟩⟩] := by
    simp [reduceClause, mergeRange, srcportIdx, dstportIdx]
  refine bind_eq_ok.mpr ⟨_, hclause, bind_eq_ok.mpr ⟨some (portClause port), ?_, rfl⟩⟩
  rw [buildClausePlan, hreduce]
  rfl

theorem portClause_inRange (port : Nat) : ∀ c ∈ [portClause port], c.InRange := by
  intro c hc
  obtain rfl := List.mem_singleton.mp hc
  refine ⟨Nat.le_refl 0, fun a ha => ?_⟩
  obtain rfl : Attribute.srcPort = a := Attribute.index_injective ha
  exact (by decide : 0 + 1 < (Target.index .srcPort).keys)

/-- Both clauses meet the packet to port 0 first. -/
theorem portClause_isFirst (port id : Nat) : (portClause port).IsFirst portStore id ↔ id = 0 := by
  have hslot : (portStore.lists (.index srcportIdx 0)).slots 0 = .stored 0 := rfl
  constructor
  · rintro ⟨a, ha, tok, -, hle, hid, -⟩
    obtain rfl : Attribute.srcPort = a := Attribute.index_injective ha
    obtain rfl : tok = 0 := Nat.le_zero.mp hle
    exact Slot.stored.inj (hid.symm.trans hslot)
  · rintro rfl
    exact ⟨.srcPort, rfl, 0, Nat.le_refl 0, Nat.le_refl 0, hslot, fun t _ ht => by omega⟩

/-- For port 0 the answer is right. -/
theorem cast_full_scan_port : ∃ n out,
    portStore.filterPkts n (fun _ _ => 0) [portClause 0] = some out ∧
      ∀ id, id ∈ out ↔ FullScan [portClause 0] [portBurst] id := by
  have hplan := @portQuery_plan 0 (lit "0") rfl
  obtain ⟨-, n, out, hout, hiff⟩ := cast_full_scan_iff portBurst_tcpOrUdp portStore_history hplan
    (portClause_inRange 0) fun _ _ => 0
  refine ⟨n, out, hout, hiff.mpr fun c hc _ id hf => ?_⟩
  obtain rfl := List.mem_singleton.mp hc
  obtain rfl := (portClause_isFirst 0 id).mp hf
  exact ⟨_, _, rfl, _, List.mem_singleton_self _, ⟨.srcPort, rfl, by decide⟩, fun _ => by decide⟩

/-- For port 1 the answer has the packet to port 0. -/
theorem cast_not_full_scan : ∃ (bs : List Burst) (st : Store) (counts : Counts) (e : Expression)
    (plan : QueryPlan) (n : Nat) (out : List Nat),
    (∀ b ∈ bs, b.pkts ≠ [] ∧ ∀ m ∈ b.pkts, m.TcpOrUdp) ∧
    bs.foldlM Store.insertPktburst (Store.init 0 fun _ => []) = some st ∧
    QueryPlanner.plan counts e 0 = .ok plan ∧ (∀ c ∈ plan, c.InRange) ∧
    st.filterPkts n (fun _ _ => 0) plan = some out ∧ ¬ ∀ id, id ∈ out ↔ FullScan plan bs id := by
  obtain ⟨s, hs, h⟩ := history_inserted portBurst_tcpOrUdp portStore_history
  have hplan := @portQuery_plan 1 (lit "1") rfl
  obtain ⟨n, out, hout, hmem⟩ := h.mem_filterPkts [portClause 1] (plan_known hplan)
    (portClause_inRange 1) fun _ _ => 0
  rw [hs] at hout hmem
  refine ⟨_, _, _, _, _, n, out, portBurst_tcpOrUdp, portStore_history, hplan,
    portClause_inRange 1, hout, fun hall => ?_⟩
  have hin : 0 ∈ out :=
    (hmem 0).mpr ⟨_, List.mem_singleton_self _, .inr ((portClause_isFirst 1 0).mpr rfl)⟩
  obtain ⟨m, ts, hid, c, hc, -, happ⟩ := (hall 0).mp hin
  obtain rfl := List.mem_singleton.mp hc
  cases hid
  exact absurd (happ rfl) (by decide)

end Netplay
