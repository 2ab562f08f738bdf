import Netplay.Packet

/-!
# Index filters and packet filters

`index_filter` and `packet_filter` of `packet_filter.h`. The two overloads of
`packet_filter::apply` differ in the timestamp test. A filter's `timestamp` is
read by the overload with a capture second only.
-/

namespace Netplay

open Packet

/-- `std::pair<uint64_t, uint64_t>`, both ends included. -/
structure TokRange where
  first : Nat
  second : Nat
  deriving DecidableEq, Repr

namespace TokRange

def Contains (r : TokRange) (tok : Nat) : Prop := r.first ≤ tok ∧ tok ≤ r.second

instance (r : TokRange) (tok : Nat) : Decidable (r.Contains tok) :=
  inferInstanceAs (Decidable (_ ∧ _))

/-- `range(0, UINT64_MAX)`. -/
def all : TokRange := ⟨0, 2 ^ 64 - 1⟩

theorem contains_all {tok : Nat} (h : tok < 2 ^ 64) : all.Contains tok :=
  ⟨Nat.zero_le _, Nat.le_sub_one_of_lt h⟩

end TokRange

structure IndexFilter where
  indexId : Nat
  tokRange : TokRange
  deriving DecidableEq, Repr

structure PacketFilter where
  srcAddr : TokRange
  dstAddr : TokRange
  srcPort : TokRange
  dstPort : TokRange
  timestamp : TokRange
  deriving DecidableEq, Repr

namespace PacketFilter

/-- `packet_filter::apply(pkt, ts)`. -/
def apply (f : PacketFilter) (pkt : Memory) (ts : UInt32) : Bool :=
  if nextProtoId pkt = IPPROTO_TCP then
    decide (f.srcAddr.Contains (Packet.srcAddr pkt)) &&
      decide (f.dstAddr.Contains (Packet.dstAddr pkt)) &&
      decide (f.srcPort.Contains (Packet.srcPort pkt)) &&
      decide (f.dstPort.Contains (Packet.dstPort pkt)) &&
      decide (f.timestamp.Contains ts.toNat)
  else if nextProtoId pkt = IPPROTO_UDP then
    decide (f.srcAddr.Contains (Packet.srcAddr pkt)) &&
      decide (f.dstAddr.Contains (Packet.dstAddr pkt)) &&
      decide (f.srcPort.Contains (Packet.srcPort pkt)) &&
      decide (f.dstPort.Contains (Packet.dstPort pkt)) &&
      decide (f.timestamp.Contains ts.toNat)
  else
    decide (f.srcAddr.Contains (Packet.srcAddr pkt)) &&
      decide (f.dstAddr.Contains (Packet.dstAddr pkt)) &&
      decide (f.timestamp.Contains ts.toNat)

/-- `packet_filter::apply(pkt)`. -/
def applyPkt (f : PacketFilter) (pkt : Memory) : Bool :=
  if nextProtoId pkt = IPPROTO_TCP then
    decide (f.srcAddr.Contains (Packet.srcAddr pkt)) &&
      decide (f.dstAddr.Contains (Packet.dstAddr pkt)) &&
      decide (f.srcPort.Contains (Packet.srcPort pkt)) &&
      decide (f.dstPort.Contains (Packet.dstPort pkt))
  else if nextProtoId pkt = IPPROTO_UDP then
    decide (f.srcAddr.Contains (Packet.srcAddr pkt)) &&
      decide (f.dstAddr.Contains (Packet.dstAddr pkt)) &&
      decide (f.srcPort.Contains (Packet.srcPort pkt)) &&
      decide (f.dstPort.Contains (Packet.dstPort pkt))
  else
    decide (f.srcAddr.Contains (Packet.srcAddr pkt)) &&
      decide (f.dstAddr.Contains (Packet.dstAddr pkt))

theorem applyPkt_iff (f : PacketFilter) (pkt : Memory) :
    f.applyPkt pkt = true ↔ f.srcAddr.Contains (Packet.srcAddr pkt) ∧
      f.dstAddr.Contains (Packet.dstAddr pkt) ∧
      (HasPorts pkt → f.srcPort.Contains (Packet.srcPort pkt) ∧
        f.dstPort.Contains (Packet.dstPort pkt)) := by
  by_cases ht : nextProtoId pkt = IPPROTO_TCP
  · simp [applyPkt, HasPorts, ht, and_assoc]
  · by_cases hu : nextProtoId pkt = IPPROTO_UDP
    · have hne : ¬ IPPROTO_UDP = IPPROTO_TCP := by decide
      simp [applyPkt, HasPorts, hu, hne, and_assoc]
    · simp [applyPkt, HasPorts, ht, hu]

/-- The overload with a capture second is the one without it and the test of the second. -/
theorem apply_iff (f : PacketFilter) (pkt : Memory) (ts : UInt32) :
    f.apply pkt ts = true ↔ f.applyPkt pkt = true ∧ f.timestamp.Contains ts.toNat := by
  by_cases ht : nextProtoId pkt = IPPROTO_TCP
  · simp [apply, applyPkt, ht]
  · by_cases hu : nextProtoId pkt = IPPROTO_UDP
    · simp [apply, applyPkt, hu]
    · simp [apply, applyPkt, ht, hu]

theorem applyPkt_congr (f : PacketFilter) {m m' : Memory} (h : SameHeaders m m') :
    f.applyPkt m = f.applyPkt m' := by
  rw [Bool.eq_iff_iff, applyPkt_iff, applyPkt_iff, h.srcAddr, h.dstAddr, h.srcPort, h.dstPort,
    h.hasPorts]

theorem apply_congr (f : PacketFilter) {m m' : Memory} (h : SameHeaders m m') (ts : UInt32) :
    f.apply m ts = f.apply m' ts := by
  rw [Bool.eq_iff_iff, apply_iff, apply_iff, f.applyPkt_congr h]

end PacketFilter

end Netplay
