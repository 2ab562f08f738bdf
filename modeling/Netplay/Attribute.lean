import Netplay.NetplayUtils

/-!
# Attributes of a packet

The five attributes tie together the index ids, the packet's values, the ranges
of a packet filter and the keys under which `insert_pktburst` lists a packet.
-/

namespace Netplay

open Text Packet NetplayUtils

inductive Attribute where
  | srcIp | dstIp | srcPort | dstPort | timestamp
  deriving DecidableEq, Repr

namespace Attribute

/-- The id of the attribute's index. -/
def index : Attribute → Nat
  | .srcIp => srcipIdx
  | .dstIp => dstipIdx
  | .srcPort => srcportIdx
  | .dstPort => dstportIdx
  | .timestamp => timestampIdx

/-- The packet's value of the attribute, `ts` being its capture second. -/
def value (pkt : Memory) (ts : UInt32) : Attribute → Nat
  | .srcIp => Packet.srcAddr pkt
  | .dstIp => Packet.dstAddr pkt
  | .srcPort => Packet.srcPort pkt
  | .dstPort => Packet.dstPort pkt
  | .timestamp => ts.toNat

/-- The attribute is read from the TCP or UDP header. -/
def isPort : Attribute → Bool
  | .srcPort | .dstPort => true
  | _ => false

theorem index_injective {a b : Attribute} (h : a.index = b.index) : a = b := by
  cases a <;> cases b <;> first | rfl | exact absurd h (by decide)

/-- The attribute of an index. -/
def ofIndex (id : Nat) : Option Attribute :=
  if id = srcipIdx then some .srcIp
  else if id = dstipIdx then some .dstIp
  else if id = srcportIdx then some .srcPort
  else if id = dstportIdx then some .dstPort
  else if id = timestampIdx then some .timestamp
  else none

theorem ofIndex_index (a : Attribute) : ofIndex a.index = some a := by
  cases a <;> rfl

theorem index_of_ofIndex {id : Nat} {a : Attribute} (h : ofIndex id = some a) : id = a.index := by
  unfold ofIndex at h
  repeat' split at h
  all_goals
    cases h
  all_goals assumption

theorem value_lt (pkt : Memory) (ts : UInt32) (a : Attribute) : a.value pkt ts < 2 ^ 32 := by
  have hp : ∀ a, u16 pkt a < 2 ^ 32 := fun a => Nat.lt_trans (u16_lt pkt a) (by decide)
  cases a with
  | srcIp => exact u32_lt _ _
  | dstIp => exact u32_lt _ _
  | srcPort => exact hp _
  | dstPort => exact hp _
  | timestamp => exact ts.toNat_lt

end Attribute

namespace PacketFilter

def range (pf : PacketFilter) : Attribute → TokRange
  | .srcIp => pf.srcAddr
  | .dstIp => pf.dstAddr
  | .srcPort => pf.srcPort
  | .dstPort => pf.dstPort
  | .timestamp => pf.timestamp

def set (pf : PacketFilter) (r : TokRange) : Attribute → PacketFilter
  | .srcIp => { pf with srcAddr := r }
  | .dstIp => { pf with dstAddr := r }
  | .srcPort => { pf with srcPort := r }
  | .dstPort => { pf with dstPort := r }
  | .timestamp => { pf with timestamp := r }

theorem range_set (pf : PacketFilter) (r : TokRange) (a b : Attribute) :
    (pf.set r a).range b = if a = b then r else pf.range b := by
  cases a <;> cases b <;> rfl

/-- `apply(pkt)` tests every attribute but the second, the ports on TCP and UDP. -/
theorem applyPkt_ranges (pf : PacketFilter) (pkt : Memory) (ts : UInt32) :
    pf.applyPkt pkt = true ↔ ∀ a : Attribute, a ≠ .timestamp → (a.isPort → HasPorts pkt) →
      (pf.range a).Contains (a.value pkt ts) := by
  rw [applyPkt_iff]
  constructor
  · rintro ⟨hs, hd, hp⟩ a ha hport
    cases a with
    | srcIp => exact hs
    | dstIp => exact hd
    | srcPort => exact (hp (hport rfl)).1
    | dstPort => exact (hp (hport rfl)).2
    | timestamp => exact absurd rfl ha
  · intro h
    exact ⟨h .srcIp (by decide) (by simp [Attribute.isPort]),
      h .dstIp (by decide) (by simp [Attribute.isPort]),
      fun hp => ⟨h .srcPort (by decide) fun _ => hp, h .dstPort (by decide) fun _ => hp⟩⟩

/-- `apply(pkt, ts)` tests every attribute, the ports on TCP and UDP. -/
theorem apply_ranges (pf : PacketFilter) (pkt : Memory) (ts : UInt32) :
    pf.apply pkt ts = true ↔ ∀ a : Attribute, (a.isPort → HasPorts pkt) →
      (pf.range a).Contains (a.value pkt ts) := by
  rw [apply_iff, applyPkt_ranges pf pkt ts]
  constructor
  · rintro ⟨h, ht⟩ a hport
    by_cases ha : a = .timestamp
    · subst ha
      exact ht
    · exact h a ha hport
  · intro h
    exact ⟨fun a _ => h a, h .timestamp (by simp [Attribute.isPort])⟩

end PacketFilter

namespace NetplayUtils

theorem setRange_index (pf : PacketFilter) (a : Attribute) (r : TokRange) :
    setRange pf ⟨a.index, r⟩ = .ok (pf.set r a) := by
  cases a <;> rfl

theorem setRange_eq_ok {pf pf' : PacketFilter} {f : IndexFilter} :
    setRange pf f = .ok pf' ↔ ∃ a : Attribute, f.indexId = a.index ∧ pf' = pf.set f.tokRange a := by
  constructor
  · intro h
    simp only [setRange] at h
    split at h
    · next hid => exact ⟨.srcIp, hid, by cases h; rfl⟩
    split at h
    · next hid => exact ⟨.dstIp, hid, by cases h; rfl⟩
    split at h
    · next hid => exact ⟨.srcPort, hid, by cases h; rfl⟩
    split at h
    · next hid => exact ⟨.dstPort, hid, by cases h; rfl⟩
    split at h
    · next hid => exact ⟨.timestamp, hid, by cases h; rfl⟩
    · simp at h
  · rintro ⟨a, hid, rfl⟩
    obtain ⟨id, r⟩ := f
    obtain rfl : id = a.index := hid
    exact setRange_index pf a r

/-- The range that the last filter of the clause on an attribute gives. -/
def latest (a : Attribute) : List IndexFilter → Option TokRange
  | [] => none
  | f :: fs => (latest a fs).or (if f.indexId = a.index then some f.tokRange else none)

theorem latest_eq_none {a : Attribute} {clause : List IndexFilter} :
    latest a clause = none ↔ ∀ f ∈ clause, f.indexId ≠ a.index := by
  induction clause with
  | nil => simp [latest]
  | cons f fs ih => simp [latest, ih, and_comm]

theorem latest_mem {a : Attribute} {clause : List IndexFilter} {r : TokRange}
    (h : latest a clause = some r) : ⟨a.index, r⟩ ∈ clause := by
  induction clause with
  | nil => simp [latest] at h
  | cons f fs ih =>
    obtain ⟨id, r'⟩ := f
    simp only [latest, Option.or_eq_some_iff, Option.ite_none_right_eq_some, Option.some.injEq] at h
    rcases h with h | ⟨-, rfl, rfl⟩
    · exact List.mem_cons_of_mem _ (ih h)
    · exact List.mem_cons_self

theorem foldlM_setRange {clause : List IndexFilter} {pf pf' : PacketFilter} :
    clause.foldlM setRange pf = .ok pf' ↔ (∀ f ∈ clause, ∃ a : Attribute, f.indexId = a.index) ∧
      ∀ a, pf'.range a = (latest a clause).getD (pf.range a) := by
  induction clause generalizing pf with
  | nil =>
    have hext : pf = pf' ↔ ∀ a, pf'.range a = pf.range a := by
      constructor
      · rintro rfl a
        rfl
      · intro h
        obtain ⟨a, b, c, d, e⟩ := pf
        obtain ⟨a', b', c', d', e'⟩ := pf'
        have h1 : a' = a := h .srcIp
        have h2 : b' = b := h .dstIp
        have h3 : c' = c := h .srcPort
        have h4 : d' = d := h .dstPort
        have h5 : e' = e := h .timestamp
        rw [h1, h2, h3, h4, h5]
    simpa [latest, pure, Except.pure] using hext
  | cons f fs ih =>
    rw [List.foldlM_cons, bind_eq_ok]
    have hget : ∀ (b a : Attribute), (latest a fs).getD ((pf.set f.tokRange b).range a) =
        ((latest a fs).or (if b = a then some f.tokRange else none)).getD (pf.range a) := by
      intro b a
      cases latest a fs with
      | some r => rfl
      | none =>
        rw [PacketFilter.range_set]
        by_cases hb : b = a <;> simp [hb]
    constructor
    · rintro ⟨pf1, h1, h2⟩
      obtain ⟨b, hb, rfl⟩ := setRange_eq_ok.mp h1
      obtain ⟨hall, hr⟩ := ih.mp h2
      refine ⟨fun g hg => ?_, fun a => ?_⟩
      · rcases List.mem_cons.mp hg with rfl | hg
        · exact ⟨b, hb⟩
        · exact hall g hg
      · rw [hr a, hget, latest, hb]
        by_cases hba : b = a
        · simp [hba]
        · have : b.index ≠ a.index := fun h => hba (Attribute.index_injective h)
          simp [hba, this]
    · rintro ⟨hall, hr⟩
      obtain ⟨b, hb⟩ := hall f List.mem_cons_self
      refine ⟨_, setRange_eq_ok.mpr ⟨b, hb, rfl⟩, ih.mpr ⟨fun g hg => hall g (by simp [hg]), ?_⟩⟩
      intro a
      rw [hr a, hget, latest, hb]
      by_cases hba : b = a
      · simp [hba]
      · have : b.index ≠ a.index := fun h => hba (Attribute.index_injective h)
        simp [hba, this]

@[simp] theorem openFilter_range (a : Attribute) : openFilter.range a = .all := by cases a <;> rfl

/-- `build_packet_filter` keeps the last range given for each attribute. -/
theorem buildPacketFilter_eq_ok {clause : List IndexFilter} {pf : PacketFilter} :
    buildPacketFilter clause = .ok pf ↔
      (∀ f ∈ clause, ∃ a : Attribute, f.indexId = a.index) ∧
        ∀ a, pf.range a = (latest a clause).getD .all := by
  simp [buildPacketFilter, foldlM_setRange]

theorem exists_packetFilter {clause : List IndexFilter}
    (h : ∀ f ∈ clause, ∃ a : Attribute, f.indexId = a.index) :
    ∃ pf, buildPacketFilter clause = .ok pf :=
  ⟨⟨(latest .srcIp clause).getD .all, (latest .dstIp clause).getD .all,
    (latest .srcPort clause).getD .all, (latest .dstPort clause).getD .all,
    (latest .timestamp clause).getD .all⟩,
    buildPacketFilter_eq_ok.mpr ⟨h, fun a => by cases a <;> rfl⟩⟩

end NetplayUtils

namespace IndexFilter

/-- The packet's value of the filter's attribute lies in its range. -/
def Satisfied (pkt : Memory) (ts : UInt32) (f : IndexFilter) : Prop :=
  ∃ a : Attribute, f.indexId = a.index ∧ f.tokRange.Contains (a.value pkt ts)

/-- The filter is on one of the port indexes. -/
def OnPort (f : IndexFilter) : Prop := f.indexId = srcportIdx ∨ f.indexId = dstportIdx

theorem onPort_iff {f : IndexFilter} {a : Attribute} (h : f.indexId = a.index) :
    f.OnPort ↔ a.isPort = true := by
  rw [OnPort, h]
  cases a <;> decide

end IndexFilter

/-! ## The keys of a packet -/

/-- The `add_entry` calls of `insert_pktburst` for one packet: index and key. -/
def pktKeys (pkt : Memory) : List (Nat × Nat) :=
  [(srcipIdx, srcAddr pkt), (dstipIdx, dstAddr pkt)] ++
    if nextProtoId pkt = IPPROTO_TCP then [(srcportIdx, srcPort pkt), (dstportIdx, dstPort pkt)]
    else if nextProtoId pkt = IPPROTO_UDP then
      [(srcportIdx, srcPort pkt), (dstportIdx, dstPort pkt)]
    else []

/-- Every key under which `insert_pktburst` lists a packet captured in second `now`. -/
def listedKeys (pkt : Memory) (now : Nat) : List (Nat × Nat) := (timestampIdx, now) :: pktKeys pkt

theorem pktKeys_eq (pkt : Memory) : pktKeys pkt =
    [(srcipIdx, srcAddr pkt), (dstipIdx, dstAddr pkt)] ++
      if HasPorts pkt then [(srcportIdx, srcPort pkt), (dstportIdx, dstPort pkt)] else [] := by
  by_cases ht : nextProtoId pkt = IPPROTO_TCP
  · simp [pktKeys, HasPorts, ht]
  · by_cases hu : nextProtoId pkt = IPPROTO_UDP <;> simp [pktKeys, HasPorts, ht, hu]

/-- A packet is listed under its attribute's value, for the ports only with TCP or UDP. -/
theorem mem_listedKeys (pkt : Memory) (ts : UInt32) (id tok : Nat) :
    (id, tok) ∈ listedKeys pkt ts.toNat ↔ ∃ a : Attribute, id = a.index ∧
      (a.isPort → HasPorts pkt) ∧ tok = a.value pkt ts := by
  rw [listedKeys, pktKeys_eq]
  constructor
  · intro h
    by_cases hp : HasPorts pkt
    · simp only [hp, if_true, List.cons_append, List.nil_append, List.mem_cons, Prod.mk.injEq,
        List.not_mem_nil, or_false] at h
      rcases h with ⟨rfl, rfl⟩ | ⟨rfl, rfl⟩ | ⟨rfl, rfl⟩ | ⟨rfl, rfl⟩ | ⟨rfl, rfl⟩
      · exact ⟨.timestamp, rfl, fun _ => hp, rfl⟩
      · exact ⟨.srcIp, rfl, fun _ => hp, rfl⟩
      · exact ⟨.dstIp, rfl, fun _ => hp, rfl⟩
      · exact ⟨.srcPort, rfl, fun _ => hp, rfl⟩
      · exact ⟨.dstPort, rfl, fun _ => hp, rfl⟩
    · simp only [hp, if_false, List.append_nil, List.mem_cons, Prod.mk.injEq, List.not_mem_nil,
        or_false] at h
      rcases h with ⟨rfl, rfl⟩ | ⟨rfl, rfl⟩ | ⟨rfl, rfl⟩
      · exact ⟨.timestamp, rfl, by simp [Attribute.isPort], rfl⟩
      · exact ⟨.srcIp, rfl, by simp [Attribute.isPort], rfl⟩
      · exact ⟨.dstIp, rfl, by simp [Attribute.isPort], rfl⟩
  · rintro ⟨a, rfl, hport, rfl⟩
    cases a with
    | timestamp => simp [Attribute.index, Attribute.value]
    | srcIp => simp [Attribute.index, Attribute.value]
    | dstIp => simp [Attribute.index, Attribute.value]
    | srcPort => simp [Attribute.index, Attribute.value, hport rfl]
    | dstPort => simp [Attribute.index, Attribute.value, hport rfl]

end Netplay
