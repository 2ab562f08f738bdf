import Mathlib.Algebra.GroupWithZero.Nat
import Mathlib.Algebra.Ring.Int.Defs
import Mathlib.Data.List.Basic

/-!
# Packet headers

A pointer to a packet is the memory from it on. The header structs of DPDK
overlay the bytes of the frame: 14 bytes of Ethernet, 20 of IPv4, then TCP or
UDP, both of which start with the two ports. The host is little-endian.
-/

namespace Netplay.Packet

/-- The bytes from a pointer on. -/
abbrev Memory := Nat → UInt8

/-- A `uint16_t` at an address. -/
def u16 (m : Memory) (a : Nat) : Nat := (m a).toNat + 256 * (m (a + 1)).toNat

/-- A `uint32_t` at an address. -/
def u32 (m : Memory) (a : Nat) : Nat := u16 m a + 65536 * u16 m (a + 2)

/-- A `uint64_t` at an address. -/
def u64 (m : Memory) (a : Nat) : Nat := u32 m a + 4294967296 * u32 m (a + 4)

theorem u16_lt (m : Memory) (a : Nat) : u16 m a < 2 ^ 16 := by
  have h := (m a).toNat_lt
  have h' := (m (a + 1)).toNat_lt
  simp only [u16]
  omega

theorem u32_lt (m : Memory) (a : Nat) : u32 m a < 2 ^ 32 := by
  have h := u16_lt m a
  have h' := u16_lt m (a + 2)
  simp only [u32]
  omega

theorem u16_congr {m m' : Memory} {a : Nat} (h : ∀ i, i < 2 → m (a + i) = m' (a + i)) :
    u16 m a = u16 m' a := by
  rw [u16, u16, h 1 (by omega), show m a = m' a from h 0 (by omega)]

theorem u32_congr {m m' : Memory} {a : Nat} (h : ∀ i, i < 4 → m (a + i) = m' (a + i)) :
    u32 m a = u32 m' a := by
  rw [u32, u32, u16_congr fun i hi => h i (by omega),
    u16_congr (a := a + 2) fun i hi => by simpa [Nat.add_assoc] using h (2 + i) (by omega)]

theorem u64_congr {m m' : Memory} {a : Nat} (h : ∀ i, i < 8 → m (a + i) = m' (a + i)) :
    u64 m a = u64 m' a := by
  rw [u64, u64, u32_congr fun i hi => h i (by omega),
    u32_congr (a := a + 4) fun i hi => by simpa [Nat.add_assoc] using h (4 + i) (by omega)]

/-- `sizeof(struct ether_hdr)`. -/
def etherHdr : Nat := 14
/-- `sizeof(struct ipv4_hdr)`. -/
def ipv4Hdr : Nat := 20

def IPPROTO_TCP : Nat := 6
def IPPROTO_UDP : Nat := 17

def nextProtoId (pkt : Memory) : Nat := (pkt (etherHdr + 9)).toNat
def srcAddr (pkt : Memory) : Nat := u32 pkt (etherHdr + 12)
def dstAddr (pkt : Memory) : Nat := u32 pkt (etherHdr + 16)
/-- `src_port` of the TCP or the UDP header. -/
def srcPort (pkt : Memory) : Nat := u16 pkt (etherHdr + ipv4Hdr)
/-- `dst_port` of the TCP or the UDP header. -/
def dstPort (pkt : Memory) : Nat := u16 pkt (etherHdr + ipv4Hdr + 2)

/-- The packet carries TCP or UDP. -/
def HasPorts (pkt : Memory) : Prop := nextProtoId pkt = IPPROTO_TCP ∨ nextProtoId pkt = IPPROTO_UDP

instance (pkt : Memory) : Decidable (HasPorts pkt) := inferInstanceAs (Decidable (_ ∨ _))

/-- The bytes of a frame up to the ports: all that a filter or an index reads. -/
def headers : Nat := etherHdr + ipv4Hdr + 4

/-- Two pointers to the same headers. -/
def SameHeaders (m m' : Memory) : Prop := ∀ i, i < headers → m i = m' i

theorem SameHeaders.nextProtoId {m m' : Memory} (h : SameHeaders m m') :
    nextProtoId m = nextProtoId m' := by
  rw [Packet.nextProtoId, Packet.nextProtoId, h _ (by decide)]

theorem SameHeaders.srcAddr {m m' : Memory} (h : SameHeaders m m') : srcAddr m = srcAddr m' :=
  u32_congr fun i hi => h _ (by simp only [headers, etherHdr, ipv4Hdr]; omega)

theorem SameHeaders.dstAddr {m m' : Memory} (h : SameHeaders m m') : dstAddr m = dstAddr m' :=
  u32_congr fun i hi => h _ (by simp only [headers, etherHdr, ipv4Hdr]; omega)

theorem SameHeaders.srcPort {m m' : Memory} (h : SameHeaders m m') : srcPort m = srcPort m' :=
  u16_congr fun i hi => h _ (by simp only [headers, etherHdr, ipv4Hdr]; omega)

theorem SameHeaders.dstPort {m m' : Memory} (h : SameHeaders m m') : dstPort m = dstPort m' :=
  u16_congr fun i hi => h _ (by simp only [headers, etherHdr, ipv4Hdr]; omega)

theorem SameHeaders.hasPorts {m m' : Memory} (h : SameHeaders m m') : HasPorts m ↔ HasPorts m' := by
  rw [HasPorts, HasPorts, h.nextProtoId]

end Netplay.Packet
