import Mathlib.Algebra.BigOperators.Group.Finset.Basic
import Mathlib.Data.Finset.Fold
import Mathlib.Data.Finset.Lattice.Fold
import Mathlib.Order.Bounds.Defs
import Netplay.Cast
import Netplay.PacketReading

/-!
# Aggregates of a cast

`execute_cast` hands the set of ids to the aggregate. The loops of `sum` and `minimum` run over
the set's elements, converted to the `value_type` of the attribute; `A::get` is not called.
-/

namespace Netplay

open Packet NetplayUtils

/-- A numeric attribute: where its field is in the packet, and the bytes of its `value_type`. -/
structure NumericAttribute where
  offset : Nat
  bytes : Nat
  deriving DecidableEq, Repr

/-- An unsigned number of `n` bytes at an address. -/
def numberAt (m : Memory) : (a n : Nat) → Nat
  | _, 0 => 0
  | a, n + 1 => (m a).toNat + 256 * numberAt m (a + 1) n

theorem numberAt_lt (m : Memory) (n : Nat) : ∀ a, numberAt m a n < 256 ^ n := by
  induction n with
  | zero => exact fun a => Nat.zero_lt_one
  | succ n ih =>
    intro a
    have hbyte := (m a).toNat_lt
    have hrest := ih (a + 1)
    rw [numberAt, Nat.pow_succ]
    omega

theorem numberAt_congr {m m' : Memory} {n : Nat} : ∀ {a : Nat},
    (∀ i, i < n → m (a + i) = m' (a + i)) → numberAt m a n = numberAt m' a n := by
  induction n with
  | zero => exact fun _ => rfl
  | succ n ih =>
    intro a h
    rw [numberAt, numberAt, ih fun i hi => by rw [Nat.add_assoc]; exact h (1 + i) (by omega)]
    exact congrArg (fun b : UInt8 => b.toNat + 256 * numberAt m' (a + 1) n) (h 0 (by omega))

namespace NumericAttribute

def bits (attr : NumericAttribute) : Nat := 8 * attr.bytes

/-- `get`. -/
def get (attr : NumericAttribute) (pkt : Memory) : Nat := numberAt pkt attr.offset attr.bytes

def etherType : NumericAttribute := ⟨12, 2⟩

def ipv4VersionIhl : NumericAttribute := ⟨etherHdr, 1⟩
def ipv4Tos : NumericAttribute := ⟨etherHdr + 1, 1⟩
def ipv4TotalLength : NumericAttribute := ⟨etherHdr + 2, 2⟩
def ipv4PacketId : NumericAttribute := ⟨etherHdr + 4, 2⟩
def ipv4FragmentOffset : NumericAttribute := ⟨etherHdr + 6, 2⟩
def ipv4Ttl : NumericAttribute := ⟨etherHdr + 8, 1⟩
def ipv4NextProtoId : NumericAttribute := ⟨etherHdr + 9, 1⟩
def ipv4HdrChecksum : NumericAttribute := ⟨etherHdr + 10, 2⟩
def ipv4SrcAddr : NumericAttribute := ⟨etherHdr + 12, 4⟩
def ipv4DstAddr : NumericAttribute := ⟨etherHdr + 16, 4⟩

def tcpSrcPort : NumericAttribute := ⟨etherHdr + ipv4Hdr, 2⟩
def tcpDstPort : NumericAttribute := ⟨etherHdr + ipv4Hdr + 2, 2⟩
def tcpSentSeq : NumericAttribute := ⟨etherHdr + ipv4Hdr + 4, 4⟩
def tcpRecvAck : NumericAttribute := ⟨etherHdr + ipv4Hdr + 8, 4⟩
def tcpDataOff : NumericAttribute := ⟨etherHdr + ipv4Hdr + 12, 1⟩
def tcpFlags : NumericAttribute := ⟨etherHdr + ipv4Hdr + 13, 1⟩
def tcpRxWin : NumericAttribute := ⟨etherHdr + ipv4Hdr + 14, 2⟩
def tcpChecksum : NumericAttribute := ⟨etherHdr + ipv4Hdr + 16, 2⟩
def tcpUrp : NumericAttribute := ⟨etherHdr + ipv4Hdr + 18, 2⟩

def udpSrcPort : NumericAttribute := ⟨etherHdr + ipv4Hdr, 2⟩
def udpDstPort : NumericAttribute := ⟨etherHdr + ipv4Hdr + 2, 2⟩
def udpDgramLen : NumericAttribute := ⟨etherHdr + ipv4Hdr + 4, 2⟩
def udpDgramChecksum : NumericAttribute := ⟨etherHdr + ipv4Hdr + 6, 2⟩

theorem get_lt (attr : NumericAttribute) (pkt : Memory) : attr.get pkt < 2 ^ attr.bits := by
  rw [bits, Nat.pow_mul]
  exact numberAt_lt pkt attr.bytes attr.offset

end NumericAttribute

/-! ## The aggregates -/

namespace Aggregate

/-- `count`. -/
def count (container : List Nat) : Nat := container.length

/-- `sum`, for a `value_type` of `w` bits. -/
def sum (w : Nat) (container : List Nat) : Nat :=
  container.foldl (fun s x => (s + x % 2 ^ w) % 2 ^ w) 0

/-- `minimum`. -/
def minimum (w : Nat) (container : List Nat) : Nat :=
  container.foldl (fun m x => if x % 2 ^ w < m then x % 2 ^ w else m) (2 ^ w - 1)

/-- The sum of a value over the ids, modulo `2 ^ w`. -/
def sumOver (w : Nat) (f : Nat → Nat) (ids : Finset Nat) : Nat := (∑ id ∈ ids, f id) % 2 ^ w

/-- The least value over the ids, the type's maximum when there are none. -/
def leastOver (w : Nat) (f : Nat → Nat) (ids : Finset Nat) : Nat := ids.fold min (2 ^ w - 1) f

/-- The least value is one of the values. -/
theorem leastOver_isLeast {w : Nat} {f : Nat → Nat} (hf : ∀ id, f id < 2 ^ w) {ids : Finset Nat}
    (hids : ids.Nonempty) : IsLeast (f '' ids) (leastOver w f ids) := by
  have hlower : ∀ id ∈ ids, leastOver w f ids ≤ f id :=
    fun id hid => (Finset.fold_min_le _).mpr (.inr ⟨id, hid, Nat.le_refl _⟩)
  constructor
  · rcases (Finset.fold_min_le _).mp (Nat.le_refl (leastOver w f ids)) with htop | ⟨id, hid, hle⟩
    · obtain ⟨id, hid⟩ := hids
      refine ⟨id, hid, Nat.le_antisymm ?_ (hlower id hid)⟩
      have := hf id
      omega
    · exact ⟨id, hid, Nat.le_antisymm hle (hlower id hid)⟩
  · rintro v ⟨id, hid, rfl⟩
    exact hlower id hid

theorem foldl_sum (w : Nat) (container : List Nat) : ∀ s,
    container.foldl (fun s x => (s + x % 2 ^ w) % 2 ^ w) (s % 2 ^ w) =
      (s + container.sum) % 2 ^ w := by
  induction container with
  | nil => exact fun s => by rw [List.foldl_nil, List.sum_nil, Nat.add_zero]
  | cons x container ih =>
    intro s
    rw [List.foldl_cons, List.sum_cons, ← Nat.add_assoc, ← ih (s + x), Nat.add_mod s x]

theorem le_foldl_minimum (w c : Nat) (container : List Nat) : ∀ m,
    c ≤ container.foldl (fun m x => if x % 2 ^ w < m then x % 2 ^ w else m) m ↔
      c ≤ m ∧ ∀ x ∈ container, c ≤ x % 2 ^ w := by
  induction container with
  | nil => exact fun m => by simp
  | cons x container ih =>
    intro m
    rw [List.foldl_cons, ih, List.forall_mem_cons, ← and_assoc]
    refine and_congr_left fun _ => ?_
    split <;> omega

/-- `sum` adds the ids. -/
theorem sum_eq (w : Nat) {container : List Nat} (hnodup : container.Nodup) :
    sum w container = sumOver w (fun id => id) container.toFinset := by
  have hfold := foldl_sum w container 0
  rw [Nat.zero_mod, Nat.zero_add] at hfold
  rw [sum, hfold, sumOver, List.sum_toFinset _ hnodup, List.map_id']

/-- `minimum` is the least id, converted. -/
theorem minimum_eq (w : Nat) (container : List Nat) :
    minimum w container = leastOver w (fun id => id % 2 ^ w) container.toFinset := by
  refine eq_of_forall_le_iff fun c => ?_
  rw [minimum, le_foldl_minimum, leastOver, Finset.le_fold_min]
  simp only [List.mem_toFinset]

end Aggregate

/-! ## Casts -/

/-- An order in which the elements of an `unordered_set` come. -/
structure SetOrder where
  iterate : List Nat → List Nat
  nodup : ∀ inserted, (iterate inserted).Nodup
  mem : ∀ inserted id, id ∈ iterate inserted ↔ id ∈ inserted

theorem SetOrder.toFinset (order : SetOrder) (inserted : List Nat) :
    (order.iterate inserted).toFinset = inserted.toFinset := by
  ext id
  rw [List.mem_toFinset, List.mem_toFinset, order.mem]

namespace Store

/-- `execute_cast`, where the scans finish within `n` steps. -/
def executeCast (st : Store) (aggregate : List Nat → Nat) (order : SetOrder) (n : Nat)
    (junk : Nat → Nat → Nat) (plan : QueryPlan) : Option Nat :=
  (st.filterPkts n junk plan).map fun inserted => aggregate (order.iterate inserted)

/-- The packet of an id, in the data log. -/
def packet (st : Store) (id : Nat) : Memory := fun i =>
  st.ptr (unpackOfflen ((st.offlens id).getD 0)).1 (8 + i)

/-- The aggregates of the plan are those of the attribute over the ids. -/
structure CastsOver (st : Store) (attr : NumericAttribute) (order : SetOrder) (n : Nat)
    (junk : Nat → Nat → Nat) (plan : QueryPlan) (ids : Finset Nat) : Prop where
  sum : st.executeCast (Aggregate.sum attr.bits) order n junk plan =
    some (Aggregate.sumOver attr.bits (fun id => attr.get (st.packet id)) ids)
  minimum : st.executeCast (Aggregate.minimum attr.bits) order n junk plan =
    some (Aggregate.leastOver attr.bits (fun id => attr.get (st.packet id)) ids)
  count : st.executeCast Aggregate.count order n junk plan = some ids.card

/-- Every id is its packet's attribute, as a value of its type. -/
def IdsAreValues (st : Store) (attr : NumericAttribute) (ids : Finset Nat) : Prop :=
  ∀ id ∈ ids, attr.get (st.packet id) = id % 2 ^ attr.bits

theorem executeCast_eq {st : Store} {n : Nat} {junk : Nat → Nat → Nat} {plan : QueryPlan}
    {inserted : List Nat} (h : st.filterPkts n junk plan = some inserted)
    (aggregate : List Nat → Nat) (order : SetOrder) :
    st.executeCast aggregate order n junk plan = some (aggregate (order.iterate inserted)) := by
  rw [executeCast, h, Option.map_some]

/-- `sum` and `minimum` are those of the ids. -/
theorem executeCast_ids {st : Store} {n : Nat} {junk : Nat → Nat → Nat} {plan : QueryPlan}
    {inserted : List Nat} (h : st.filterPkts n junk plan = some inserted) (w : Nat)
    (order : SetOrder) :
    st.executeCast (Aggregate.sum w) order n junk plan =
        some (Aggregate.sumOver w (fun id => id) inserted.toFinset) ∧
      st.executeCast (Aggregate.minimum w) order n junk plan =
        some (Aggregate.leastOver w (fun id => id % 2 ^ w) inserted.toFinset) ∧
      st.executeCast Aggregate.count order n junk plan = some inserted.toFinset.card := by
  rw [executeCast_eq h, executeCast_eq h, executeCast_eq h, ← order.toFinset]
  refine ⟨?_, ?_, ?_⟩
  · rw [Aggregate.sum_eq w (order.nodup inserted)]
  · rw [Aggregate.minimum_eq]
  · rw [Aggregate.count, List.toFinset_card_of_nodup (order.nodup inserted)]

theorem castsOver_of_values {st : Store} {attr : NumericAttribute} {n : Nat}
    {junk : Nat → Nat → Nat} {plan : QueryPlan} {inserted : List Nat}
    (h : st.filterPkts n junk plan = some inserted)
    (hvalues : st.IdsAreValues attr inserted.toFinset) (order : SetOrder) :
    st.CastsOver attr order n junk plan inserted.toFinset := by
  obtain ⟨hsum, hmin, hcount⟩ := executeCast_ids h attr.bits order
  refine ⟨?_, ?_, hcount⟩
  · rw [hsum, Aggregate.sumOver, Aggregate.sumOver, Finset.sum_nat_mod,
      Finset.sum_congr rfl fun id hid => (hvalues id hid).symm]
  · rw [hmin, Aggregate.leastOver, Aggregate.leastOver,
      Finset.fold_congr fun id hid => (hvalues id hid).symm]

/-- The least value of one packet is the packet's. -/
theorem value_of_castsOver {st : Store} {attr : NumericAttribute} {order : SetOrder} {n : Nat}
    {junk : Nat → Nat → Nat} {plan : QueryPlan} {inserted : List Nat}
    (h : st.filterPkts n junk plan = some inserted)
    (hover : st.CastsOver attr order n junk plan inserted.toFinset) {id : Nat}
    (hone : inserted.toFinset = {id}) : attr.get (st.packet id) = id % 2 ^ attr.bits := by
  have hmin := (executeCast_ids h attr.bits order).2.1.symm.trans hover.minimum
  have hlt := attr.get_lt (st.packet id)
  have hmod := Nat.mod_lt id (Nat.two_pow_pos attr.bits)
  rw [Option.some.injEq, hone, Aggregate.leastOver, Aggregate.leastOver, Finset.fold_singleton,
    Finset.fold_singleton] at hmin
  omega

/-- In every state, for every plan and every attribute, the aggregates are over the attribute
where each id is its packet's attribute; for one packet, exactly then. -/
theorem castsOver_values (st : Store) (attr : NumericAttribute) (order : SetOrder) (n : Nat)
    (junk : Nat → Nat → Nat) (plan : QueryPlan) (inserted : List Nat)
    (h : st.filterPkts n junk plan = some inserted) :
    (st.IdsAreValues attr inserted.toFinset →
      st.CastsOver attr order n junk plan inserted.toFinset) ∧
    (inserted.toFinset.card ≤ 1 → st.CastsOver attr order n junk plan inserted.toFinset →
      st.IdsAreValues attr inserted.toFinset) := by
  refine ⟨fun hvalues => castsOver_of_values h hvalues order, fun hcard hover id hid => ?_⟩
  refine value_of_castsOver h hover (Finset.eq_singleton_iff_unique_mem.mpr ⟨hid, fun id' hid' => ?_⟩)
  exact Finset.card_le_one.mp hcard id' hid' id hid

end Store

/-- The attribute of a published packet is that of the packet captured, where it has the field. -/
theorem System.PacketAt.get_packet {ω : Type} [DecidableEq ω] {numFilters : Nat}
    {filters : Nat → List PacketFilter} {s : System ω} (h : Reached numFilters filters s) {id : Nat}
    {e : Ended} {m : Mbuf} {off : Nat} (hp : s.PacketAt id e m off) {attr : NumericAttribute}
    (hin : attr.offset + attr.bytes ≤ m.size) : attr.get (s.store.packet id) = attr.get m.data := by
  refine numberAt_congr fun i hi => ?_
  have hlt : 8 + (attr.offset + i) < 8 + m.size := by omega
  rw [Store.packet, hp.offlen, Option.getD_some, unpack_packOfflen (hp.offset_lt h),
    hp.bytes _ hlt, record, if_neg (by omega), Nat.add_sub_cancel_left]

/-- The first insertions of the elements, in their order. -/
def SetOrder.dedup : SetOrder := ⟨List.dedup, List.nodup_dedup, fun _ _ => List.mem_dedup⟩

/-- The plan for a port selects its packet, and the packet to port 0, which it meets first. -/
theorem portClause_selects {port : Nat} (hport : port < 2) : ∃ s n inserted,
    Inserted 0 (fun _ => []) s [portBurst] ∧
    s.store.filterPkts n (fun _ _ => 0) [portClause port] = some inserted ∧
    inserted.toFinset = {0, port} := by
  obtain ⟨s, hs, h⟩ := history_inserted portBurst_tcpOrUdp portStore_history
  have hknown : ∀ c ∈ [portClause port], ∃ a : Attribute, c.idxFilter.indexId = a.index := by
    intro c hc
    obtain rfl := List.mem_singleton.mp hc
    exact ⟨.srcPort, rfl⟩
  obtain ⟨n, inserted, hinserted, hmem⟩ := h.mem_filterPkts [portClause port] hknown
    (portClause_inRange port) fun _ _ => 0
  refine ⟨s, n, inserted, h, hinserted, ?_⟩
  ext id
  rw [List.mem_toFinset, hmem, Finset.mem_insert, Finset.mem_singleton]
  constructor
  · rintro ⟨c, hc, hacc | hfirst⟩
    · obtain rfl := List.mem_singleton.mp hc
      obtain ⟨m, ts, hpkt, -, happ⟩ := hacc
      have hlt := (List.getElem?_eq_some_iff.mp hpkt).1
      rw [show (packets [portBurst]).length = 2 from rfl] at hlt
      by_contra hne
      obtain ⟨rfl, rfl⟩ : id = 1 ∧ port = 0 := by omega
      cases hpkt
      exact absurd (happ rfl) (by decide)
    · obtain rfl := List.mem_singleton.mp hc
      rw [hs] at hfirst
      exact .inl ((portClause_isFirst port id).mp hfirst)
  · intro hid
    refine ⟨_, List.mem_singleton_self _, ?_⟩
    by_cases hzero : id = 0
    · rw [hs]
      exact .inr ((portClause_isFirst port id).mpr hzero)
    · obtain ⟨rfl, rfl⟩ : id = 1 ∧ port = 1 := by omega
      exact .inl ⟨_, _, rfl, ⟨.srcPort, rfl, by decide⟩, fun _ => by decide⟩

/-- An attribute of one of the two packets. -/
theorem portPacket_get {s : System Unit} (h : Inserted 0 (fun _ => []) s [portBurst])
    {attr : NumericAttribute} (hin : attr.offset + attr.bytes ≤ 60) {id : Nat} {port : UInt8}
    (hpkt : (packets [portBurst])[id]? = some (⟨portPkt port, 60⟩, 0)) :
    attr.get (s.store.packet id) = attr.get (portPkt port) := by
  obtain ⟨e, off, hp, -⟩ := h.history.packetAt h.reached hpkt
  exact hp.get_packet h.reached hin

/-- The aggregates of the destination ports, which are 0 and 1 as the ids are. -/
theorem castsOver_dstPorts : ∃ (st : Store) (n : Nat) (inserted : List Nat),
    inserted.toFinset = {0, 1} ∧
    st.CastsOver .tcpDstPort .dedup n (fun _ _ => 0) [portClause 1] inserted.toFinset := by
  obtain ⟨s, n, inserted, h, hinserted, hset⟩ := portClause_selects (by decide : 1 < 2)
  refine ⟨s.store, n, inserted, hset, (Store.castsOver_values _ _ _ _ _ _ _ hinserted).1 ?_⟩
  rw [hset]
  intro id hid
  rcases Finset.mem_insert.mp hid with rfl | hid
  · rw [portPacket_get h (by decide) rfl]
    decide
  · obtain rfl := Finset.mem_singleton.mp hid
    rw [portPacket_get h (by decide) rfl]
    decide

/-- The protocol of the packet with id 0 is 6. -/
theorem not_castsOver : ¬ ∀ (s : System Unit), System.Reached 0 (fun _ => []) s →
    ∀ attr order n junk plan inserted, s.store.filterPkts n junk plan = some inserted →
      s.store.CastsOver attr order n junk plan inserted.toFinset := by
  intro hall
  obtain ⟨s, n, inserted, h, hinserted, hset⟩ := portClause_selects (by decide : 0 < 2)
  have hvalue := Store.value_of_castsOver hinserted
    (hall s h.reached .ipv4NextProtoId .dedup n _ _ inserted hinserted)
    (show inserted.toFinset = {0} by rw [hset]; rfl)
  rw [portPacket_get h (by decide) rfl] at hvalue
  exact absurd hvalue (by decide)

end Netplay
