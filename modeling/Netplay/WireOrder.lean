import Netplay.ComparisonRange
import Netplay.LowBits

/-!
# The byte order of keys

The fields of a frame are in network order, and both the index and the packet filter
read them on a little-endian host. So a key is the field's number with the bytes the
other way round, while the literal of a predicate is not turned.
-/

namespace Netplay

open Packet NetplayUtils LowBits

namespace WireOrder

/-! ## Bytes the other way round -/

/-- A 16-bit number with its bytes the other way round. -/
def swap16 (x : Nat) : Nat := x % 256 * 256 + x / 256

/-- A 32-bit number with its bytes the other way round. -/
def swap32 (x : Nat) : Nat := swap16 (x % 65536) * 65536 + swap16 (x / 65536)

theorem swap16_lt {x : Nat} (h : x < 2 ^ 16) : swap16 x < 2 ^ 16 := by
  simp only [swap16]
  omega

theorem swap32_lt {x : Nat} (h : x < 2 ^ 32) : swap32 x < 2 ^ 32 := by
  have h1 : swap16 (x % 65536) < 2 ^ 16 := swap16_lt (Nat.mod_lt _ (by decide))
  have h2 : swap16 (x / 65536) < 2 ^ 16 := swap16_lt (by omega)
  simp only [swap32]
  omega

theorem swap16_swap16 {x : Nat} (h : x < 2 ^ 16) : swap16 (swap16 x) = x := by
  simp only [swap16]
  omega

theorem swap32_div {x : Nat} (h : x < 2 ^ 32) : swap32 x / 65536 = swap16 (x % 65536) := by
  have := swap16_lt (x := x / 65536) (by omega)
  rw [swap32]
  omega

theorem swap32_mod {x : Nat} (h : x < 2 ^ 32) : swap32 x % 65536 = swap16 (x / 65536) := by
  have := swap16_lt (x := x / 65536) (by omega)
  rw [swap32]
  omega

theorem swap32_swap32 {x : Nat} (h : x < 2 ^ 32) : swap32 (swap32 x) = x := by
  have hlow : swap16 (swap16 (x % 65536)) = x % 65536 :=
    swap16_swap16 (Nat.mod_lt x (by decide : 0 < 65536))
  have hhigh : swap16 (swap16 (x / 65536)) = x / 65536 := swap16_swap16 (by omega)
  rw [swap32, swap32_mod h, swap32_div h, hlow, hhigh]
  omega

/-- The lowest byte becomes the highest. -/
theorem swap32_testBit {x i : Nat} (h : x < 2 ^ 32) (hi : i < 8) :
    (swap32 x).testBit (i + 24) = x.testBit i := by
  have hdiv : swap32 x / 2 ^ 24 = x % 2 ^ 8 := by
    have hbyte : ∀ l, l < 65536 → swap16 l / 256 = l % 256 := by
      intro l hl
      simp only [swap16]
      omega
    have hmod : x % 65536 % 256 = x % 2 ^ 8 := Nat.mod_mod_of_dvd x (by decide)
    rw [show 2 ^ 24 = 65536 * 256 by rfl, ← Nat.div_div_eq_div_mul, swap32_div h,
      hbyte _ (Nat.mod_lt _ (by decide)), hmod]
  rw [← Nat.testBit_div_two_pow, hdiv, Nat.testBit_mod_two_pow, decide_eq_true hi, Bool.true_and]

/-! ## Fields -/

/-- A `uint16_t` in network order. -/
def be16 (m : Memory) (a : Nat) : Nat := 256 * (m a).toNat + (m (a + 1)).toNat

/-- A `uint32_t` in network order. -/
def be32 (m : Memory) (a : Nat) : Nat := 65536 * be16 m a + be16 m (a + 2)

theorem be16_lt (m : Memory) (a : Nat) : be16 m a < 2 ^ 16 := by
  have h := (m a).toNat_lt
  have h' := (m (a + 1)).toNat_lt
  simp only [be16]
  omega

theorem be32_lt (m : Memory) (a : Nat) : be32 m a < 2 ^ 32 := by
  have h := be16_lt m a
  have h' := be16_lt m (a + 2)
  simp only [be32]
  omega

theorem u16_eq (m : Memory) (a : Nat) : u16 m a = swap16 (be16 m a) := by
  have h := (m (a + 1)).toNat_lt
  simp only [u16, be16, swap16]
  omega

theorem u32_eq (m : Memory) (a : Nat) : u32 m a = swap32 (be32 m a) := by
  have h := be16_lt m (a + 2)
  have hlow : be32 m a % 65536 = be16 m (a + 2) := by
    rw [be32]
    omega
  have hhigh : be32 m a / 65536 = be16 m a := by
    rw [be32]
    omega
  rw [u32, swap32, hlow, hhigh, u16_eq, u16_eq]
  omega

/-- An Ethernet frame with an IPv4 packet that carries TCP or UDP. The header length is not asked
for: the structs put the ports behind a header of five words, and `Field.wire` reads them there. -/
structure IsFrame (pkt : Memory) : Prop where
  etherType : be16 pkt 12 = 0x0800
  version : (pkt etherHdr).toNat / 16 = 4
  ports : HasPorts pkt

end WireOrder

open WireOrder

/-- The fields of a frame that a predicate can be on. -/
inductive Field where
  | srcIp | dstIp | srcPort | dstPort
  deriving DecidableEq, Repr

namespace Field

def toAttribute : Field → Attribute
  | .srcIp => .srcIp
  | .dstIp => .dstIp
  | .srcPort => .srcPort
  | .dstPort => .dstPort

/-- The field's number in the frame. -/
def wire (pkt : Memory) : Field → Nat
  | .srcIp => be32 pkt (etherHdr + 12)
  | .dstIp => be32 pkt (etherHdr + 16)
  | .srcPort => be16 pkt (etherHdr + ipv4Hdr)
  | .dstPort => be16 pkt (etherHdr + ipv4Hdr + 2)

def IsPort (f : Field) : Prop := f = .srcPort ∨ f = .dstPort

instance (f : Field) : Decidable f.IsPort := inferInstanceAs (Decidable (_ ∨ _))

/-- The field's number, with its bytes the other way round. -/
def swap (f : Field) (x : Nat) : Nat := if f.IsPort then swap16 x else swap32 x

/-- The numbers that the field can hold. -/
def size (f : Field) : Nat := if f.IsPort then 2 ^ 16 else 2 ^ 32

theorem wire_lt (pkt : Memory) (f : Field) : f.wire pkt < f.size := by
  cases f with
  | srcIp | dstIp => exact be32_lt _ _
  | srcPort | dstPort => exact be16_lt _ _

/-- What the host reads is the field's number turned round. -/
theorem value_eq (pkt : Memory) (ts : UInt32) (f : Field) :
    f.toAttribute.value pkt ts = f.swap (f.wire pkt) := by
  cases f with
  | srcIp | dstIp => exact u32_eq _ _
  | srcPort | dstPort => exact u16_eq _ _

theorem swap_lt {f : Field} {x : Nat} (h : x < f.size) : f.swap x < f.size := by
  rw [size] at h ⊢
  rw [swap]
  split
  · next hp =>
    rw [if_pos hp] at h
    exact swap16_lt h
  · next hp =>
    rw [if_neg hp] at h
    exact swap32_lt h

/-- The key under which a frame with ports is listed. -/
theorem mem_pktKeys {pkt : Memory} (hp : HasPorts pkt) (f : Field) (key : Nat) :
    (f.toAttribute.index, key) ∈ pktKeys pkt ↔ key = f.swap (f.wire pkt) := by
  have hlisted := mem_listedKeys pkt 0 f.toAttribute.index key
  have hts : f.toAttribute ≠ .timestamp := by cases f <;> decide
  have hindex : f.toAttribute.index ≠ timestampIdx := fun h => hts (Attribute.index_injective h)
  rw [listedKeys, List.mem_cons, Prod.mk.injEq, or_iff_right fun h => hindex h.1] at hlisted
  rw [hlisted]
  constructor
  · rintro ⟨a, ha, -, rfl⟩
    obtain rfl := Attribute.index_injective ha
    exact value_eq pkt 0 f
  · rintro rfl
    exact ⟨f.toAttribute, rfl, fun _ => hp, (value_eq pkt 0 f).symm⟩

/-- A packet filter with one range tests the field as the host reads it. -/
theorem applyPkt_set {pkt : Memory} (hp : HasPorts pkt) (f : Field) (r : TokRange) :
    (openFilter.set r f.toAttribute).applyPkt pkt = true ↔ r.Contains (f.swap (f.wire pkt)) := by
  have hts : f.toAttribute ≠ .timestamp := by cases f <;> decide
  rw [PacketFilter.applyPkt_ranges _ _ 0, ← value_eq pkt 0 f]
  constructor
  · intro h
    have := h f.toAttribute hts fun _ => hp
    rwa [PacketFilter.range_set, if_pos rfl] at this
  · intro h a _ _
    rw [PacketFilter.range_set]
    split
    · next heq =>
      rw [← heq]
      exact h
    · rw [openFilter_range]
      exact TokRange.contains_all (Nat.lt_trans (Attribute.value_lt pkt 0 a) (by decide))

/-- The last byte of the field. -/
def last : Field → Nat
  | .srcIp => etherHdr + 15
  | .dstIp => etherHdr + 19
  | .srcPort => etherHdr + ipv4Hdr + 1
  | .dstPort => etherHdr + ipv4Hdr + 3

/-- A frame of IPv4 and TCP with a number in the field. -/
def frame (f : Field) (x : Nat) : Memory := fun i =>
  if i ≤ etherHdr + 9 then
    if i = 12 then 8 else if i = etherHdr then 0x45 else if i = etherHdr + 9 then 6 else 0
  else UInt8.ofNat (x / 256 ^ (f.last - i))

theorem isFrame_frame (f : Field) (x : Nat) : IsFrame (f.frame x) where
  etherType := rfl
  version := (by decide : (0x45 : UInt8).toNat / 16 = 4)
  ports := .inl rfl

theorem be16_frame (f : Field) (x : Nat) {a k : Nat} (ha : etherHdr + 9 < a)
    (hk : a + 1 + k = f.last) : be16 (f.frame x) a = x / 256 ^ k % 65536 := by
  have hhigh : f.frame x a = UInt8.ofNat (x / 256 ^ k / 256) := by
    rw [frame, if_neg (by omega), Nat.div_div_eq_div_mul, ← Nat.pow_succ,
      show f.last - a = k + 1 by omega]
  have hlow : f.frame x (a + 1) = UInt8.ofNat (x / 256 ^ k) := by
    rw [frame, if_neg (by omega), show f.last - (a + 1) = k by omega]
  rw [be16, hhigh, hlow, UInt8.toNat_ofNat', UInt8.toNat_ofNat']
  omega

theorem wire_frame {f : Field} {x : Nat} (h : x < f.size) : f.wire (f.frame x) = x := by
  cases f with
  | srcPort | dstPort =>
    have hx : x < 2 ^ 16 := h
    rw [wire, be16_frame _ x (k := 0) (by decide) rfl]
    omega
  | srcIp | dstIp =>
    have hx : x < 2 ^ 32 := h
    rw [wire, be32, be16_frame _ x (k := 2) (by decide) rfl,
      be16_frame _ x (k := 0) (by decide) rfl]
    omega

end Field

/-! ## Predicates -/

/-- A predicate on a field with the number of its literal: `==` and `in` on an address,
a comparison with a port. -/
inductive Test where
  | address (ip : Nat)
  | network (ip p : Nat)
  | port (c : Comparison) (v : Nat)

namespace Test

/-- The predicate is one on the field, with a literal in range. -/
def On : Test → Field → Prop
  | .address ip, f => ¬ f.IsPort ∧ ip < 2 ^ 32
  | .network ip p, f => ¬ f.IsPort ∧ ip < 2 ^ 32 ∧ p ≤ 32
  | .port _ v, f => f.IsPort ∧ v ≤ 65535

/-- The number is among the intended ones. -/
def Holds : Test → Nat → Prop
  | .address ip, x => x = ip
  | .network ip p, x => SameHigh 32 p x ip
  | .port c v, x => c.Holds x v

/-- The literal stands between a number and the turned one. -/
def Separates (x : Nat) : Test → Prop
  | .address ip => swap32 x ≠ x ∧ (ip = x ∨ ip = swap32 x)
  | .network ip p => ¬ (SameHigh 32 p (swap32 x) ip ↔ SameHigh 32 p x ip)
  | .port .eq v => swap16 x ≠ x ∧ (v = x ∨ v = swap16 x)
  | .port .lt v | .port .ge v => min x (swap16 x) < v ∧ v ≤ max x (swap16 x)
  | .port .le v | .port .gt v => min x (swap16 x) ≤ v ∧ v < max x (swap16 x)

/-- The literals that stand between no number and the turned one. -/
def Symmetric : Test → Prop
  | .address ip => swap32 ip = ip
  | .network ip p => p = 0 ∨ p = 32 ∧ swap32 ip = ip
  | .port .eq v => swap16 v = v
  | .port .lt v | .port .ge v => v = 0 ∨ v = 1 ∨ v = 65535
  | .port .le v | .port .gt v => v = 0 ∨ v = 65534 ∨ v = 65535

theorem separates_iff {t : Test} {f : Field} (h : t.On f) (x : Nat) :
    (t.Holds (f.swap x) ↔ t.Holds x) ↔ ¬ t.Separates x := by
  cases t with
  | address ip =>
    simp only [Holds, Separates, Field.swap, if_neg h.1]
    omega
  | network ip p =>
    simp only [Holds, Separates, Field.swap, if_neg h.1, not_not]
  | port c v =>
    cases c <;> simp only [Holds, Comparison.Holds, Separates, Field.swap, if_pos h.1] <;> omega

/-- Under `==` a number and the turned one are told apart. -/
theorem exists_eq {f : Field} {x : Nat} (hx : x < f.size) : ∃ t : Test, t.On f ∧
    ((t.Holds (f.swap x) ↔ t.Holds x) → f.swap x = x) := by
  rw [Field.size] at hx
  by_cases hp : f.IsPort
  · rw [if_pos hp] at hx
    exact ⟨.port .eq x, ⟨hp, by omega⟩, fun h => h.mpr rfl⟩
  · rw [if_neg hp] at hx
    exact ⟨.address x, ⟨hp, hx⟩, fun h => h.mpr rfl⟩

theorem symmetric_port {c : Comparison} {v : Nat} (hv : v ≤ 65535) :
    (∀ x, x < 2 ^ 16 → (c.Holds (swap16 x) v ↔ c.Holds x v)) ↔ (Test.port c v).Symmetric := by
  constructor
  · -- 1, 255 and 65279 are turned into 256, 65280 and 65534.
    intro h
    have h1 := h 1 (by decide)
    have h2 := h 255 (by decide)
    have h3 := h 65279 (by decide)
    cases c with
    | eq => exact (h v (by omega)).mpr rfl
    | lt | le | gt | ge =>
      simp only [Comparison.Holds, swap16] at h1 h2 h3
      simp only [Symmetric]
      omega
  · intro h x hx
    cases c <;> simp only [Symmetric, swap16] at h <;> simp only [Comparison.Holds, swap16] <;> omega

/-- A bit behind the network is free, and is turned into one of the network. -/
theorem not_symmetric_bit {ip p i : Nat} (hip : ip < 2 ^ 32) (hi : i < 8) (hfree : i < 32 - p)
    (hnet : 32 - p ≤ i + 24)
    (h : ∀ x, x < 2 ^ 32 → (SameHigh 32 p (swap32 x) ip ↔ SameHigh 32 p x ip)) : False := by
  have hpow : 2 ^ i < 2 ^ 32 := Nat.pow_lt_pow_right (by decide) (by omega)
  have hflip : ip ^^^ 2 ^ i < 2 ^ 32 := Nat.xor_lt_two_pow hip hpow
  have hsame : SameHigh 32 p (ip ^^^ 2 ^ i) ip := by
    intro j hj _
    rw [Nat.testBit_xor, Nat.testBit_two_pow, decide_eq_false (by omega), Bool.xor_false]
  have h1 := (h ip hip).mpr (fun _ _ _ => rfl) (i + 24) hnet (by omega)
  have h2 := (h _ hflip).mpr hsame (i + 24) hnet (by omega)
  rw [swap32_testBit hip hi] at h1
  rw [swap32_testBit hflip hi, ← h1, Nat.testBit_xor, Nat.testBit_two_pow_self] at h2
  cases hbit : ip.testBit i <;> simp [hbit] at h2

theorem symmetric_network {ip p : Nat} (hip : ip < 2 ^ 32) (hp : p ≤ 32) :
    (∀ x, x < 2 ^ 32 → (SameHigh 32 p (swap32 x) ip ↔ SameHigh 32 p x ip)) ↔
      (Test.network ip p).Symmetric := by
  constructor
  · intro h
    by_cases h0 : p = 0
    · exact .inl h0
    by_cases h32 : p = 32
    · subst h32
      have hself := (h ip hip).mpr fun _ _ _ => rfl
      rw [sameHigh_iff (swap32_lt hip) hip] at hself
      simp only [Nat.sub_self, Nat.pow_zero, Nat.div_one] at hself
      exact .inr ⟨rfl, hself⟩
    · exfalso
      by_cases h8 : 8 ≤ p
      · exact not_symmetric_bit (i := 0) hip (by decide) (by omega) (by omega) h
      · exact not_symmetric_bit (i := 7) hip (by decide) (by omega) (by omega) h
  · rintro (rfl | ⟨rfl, hip'⟩) x hx
    · exact iff_of_true (fun i h1 h2 => by omega) fun i h1 h2 => by omega
    · rw [sameHigh_iff (swap32_lt hx) hip, sameHigh_iff hx hip]
      simp only [Nat.sub_self, Nat.pow_zero, Nat.div_one]
      constructor
      · intro h
        rw [← swap32_swap32 hx, h, hip']
      · rintro rfl
        exact hip'

theorem symmetric_iff {t : Test} {f : Field} (h : t.On f) :
    (∀ x, x < f.size → (t.Holds (f.swap x) ↔ t.Holds x)) ↔ t.Symmetric := by
  cases t with
  | address ip =>
    simp only [Holds, Field.swap, Field.size, if_neg h.1, Symmetric]
    constructor
    · exact fun hall => (hall ip h.2).mpr rfl
    · intro hip x hx
      constructor
      · intro hx'
        rw [← swap32_swap32 hx, hx', hip]
      · rintro rfl
        exact hip
  | network ip p =>
    simp only [Holds, Field.swap, Field.size, if_neg h.1]
    exact symmetric_network h.2.1 h.2.2
  | port c v =>
    simp only [Holds, Field.swap, Field.size, if_pos h.1]
    exact symmetric_port h.2

end Test

/-! ## The order of keys -/

namespace WireOrder

/-- Turning keeps the order of a number against 0 and against the largest number only. -/
theorem swap16_order_iff {x : Nat} (hx : x < 2 ^ 16) :
    (∀ y, y < 2 ^ 16 → (x ≤ y ↔ swap16 x ≤ swap16 y)) ↔ x = 0 ∨ x = 2 ^ 16 - 1 := by
  constructor
  · intro h
    by_contra hne
    by_cases hlow : x % 256 = 0
    · have h1 := h 1 (by decide)
      simp only [swap16] at h1
      omega
    by_cases hhigh : x / 256 = 255
    · have h2 := h (2 ^ 16 - 1 - 2 ^ 8) (by decide)
      simp only [swap16] at h2
      omega
    · have h3 := h ((x / 256 + 1) * 256) (by omega)
      simp only [swap16] at h3
      omega
  · rintro (rfl | rfl) y hy <;> simp only [swap16] <;> omega

theorem swap32_order_iff {x : Nat} (hx : x < 2 ^ 32) :
    (∀ y, y < 2 ^ 32 → (x ≤ y ↔ swap32 x ≤ swap32 y)) ↔ x = 0 ∨ x = 2 ^ 32 - 1 := by
  constructor
  · intro h
    by_contra hne
    by_cases hlow : x % 2 ^ 24 = 0
    · have h1 := h 1 (by decide)
      simp only [swap32, swap16] at h1
      omega
    by_cases hhigh : x / 2 ^ 24 = 255
    · have h2 := h (2 ^ 32 - 1 - 2 ^ 24) (by decide)
      simp only [swap32, swap16] at h2
      omega
    · have hlarge : 256 ≤ swap32 x := by
        rw [swap32]
        by_cases hword : x % 65536 = 0
        · have hbyte : 256 ≤ swap16 (x / 65536) := by
            simp only [swap16]
            omega
          omega
        · have hbyte : 1 ≤ swap16 (x % 65536) := by
            simp only [swap16]
            omega
          omega
      have hsmall : ∀ q, q < 256 → swap32 (q * 2 ^ 24) = q := by
        intro q hq
        simp only [swap32, swap16]
        omega
      have h3 := h ((x / 2 ^ 24 + 1) * 2 ^ 24) (by omega)
      rw [hsmall _ (by omega)] at h3
      omega
  · rintro (rfl | rfl) y hy <;> simp only [swap32, swap16] <;> omega

end WireOrder

theorem Field.order_iff {f : Field} {x : Nat} (hx : x < f.size) :
    (∀ y, y < f.size → (x ≤ y ↔ f.swap x ≤ f.swap y)) ↔ x = 0 ∨ x = f.size - 1 := by
  cases f with
  | srcIp | dstIp => exact swap32_order_iff hx
  | srcPort | dstPort => exact swap16_order_iff hx

/-! ## Keys against the wire -/

/-- The key of the frame, and a packet filter with exactly the intended range, decide on
the number in the frame. -/
structure Agrees (f : Field) (t : Test) (pkt : Memory) : Prop where
  index : ∀ key, (f.toAttribute.index, key) ∈ pktKeys pkt → (t.Holds key ↔ t.Holds (f.wire pkt))
  filter : ∀ r : TokRange, (∀ x, x < f.size → (r.Contains x ↔ t.Holds x)) →
    ((openFilter.set r f.toAttribute).applyPkt pkt = true ↔ t.Holds (f.wire pkt))

theorem agrees_iff {f : Field} {t : Test} {pkt : Memory} (hp : IsFrame pkt) :
    Agrees f t pkt ↔ (t.Holds (f.swap (f.wire pkt)) ↔ t.Holds (f.wire pkt)) := by
  constructor
  · exact fun h => h.index _ ((f.mem_pktKeys hp.ports _).mpr rfl)
  · intro h
    refine ⟨fun key hkey => ?_, fun r hr => ?_⟩
    · rw [(f.mem_pktKeys hp.ports key).mp hkey]
      exact h
    · rw [f.applyPkt_set hp.ports, hr _ (Field.swap_lt (f.wire_lt pkt)), h]

/-- A predicate agrees with a frame exactly where its literal does not stand between the
number of the field and the turned one. So it agrees with every frame exactly for the
symmetric literals, every predicate agrees with a frame exactly where the bytes of the
field read the same backwards, and a key has its place among all keys only for the
smallest and the largest number. -/
theorem wire_agrees_iff (f : Field) :
    (∀ t pkt, t.On f → IsFrame pkt → (Agrees f t pkt ↔ ¬ t.Separates (f.wire pkt))) ∧
    (∀ t, t.On f → ((∀ pkt, IsFrame pkt → Agrees f t pkt) ↔ t.Symmetric)) ∧
    (∀ pkt, IsFrame pkt →
      ((∀ t, t.On f → Agrees f t pkt) ↔ f.swap (f.wire pkt) = f.wire pkt)) ∧
    ∀ pkt ts, IsFrame pkt → ((∀ pkt' ts', IsFrame pkt' → (f.wire pkt ≤ f.wire pkt' ↔
      f.toAttribute.value pkt ts ≤ f.toAttribute.value pkt' ts')) ↔
        f.wire pkt = 0 ∨ f.wire pkt = f.size - 1) := by
  refine ⟨fun t pkt ht hp => ?_, fun t ht => ?_, fun pkt hp => ?_, fun pkt ts hp => ?_⟩
  · rw [agrees_iff hp, Test.separates_iff ht]
  · rw [← Test.symmetric_iff ht]
    constructor
    · intro h x hx
      have := (agrees_iff (f.isFrame_frame x)).mp (h _ (f.isFrame_frame x))
      rwa [Field.wire_frame hx] at this
    · exact fun h pkt hp => (agrees_iff hp).mpr (h _ (f.wire_lt pkt))
  · constructor
    · intro h
      obtain ⟨t, ht, heq⟩ := Test.exists_eq (f.wire_lt pkt)
      exact heq ((agrees_iff hp).mp (h t ht))
    · intro h t _
      rw [agrees_iff hp, h]
  · rw [← Field.order_iff (f.wire_lt pkt)]
    simp only [Field.value_eq]
    constructor
    · intro h y hy
      have := h _ 0 (f.isFrame_frame y)
      rwa [Field.wire_frame hy] at this
    · exact fun h pkt' _ _ => h _ (f.wire_lt pkt')

/-- Port 257, whose two bytes are the same, under every predicate, and `dst_port <= 65534` on
every frame. -/
theorem wire_agrees_same : (∀ t, t.On .dstPort → Agrees .dstPort t (Field.frame .dstPort 257)) ∧
    ∀ pkt, IsFrame pkt → Agrees .dstPort (.port .le 65534) pkt :=
  ⟨((wire_agrees_iff .dstPort).2.2.1 _ (Field.isFrame_frame _ _)).mpr (by decide),
    ((wire_agrees_iff .dstPort).2.1 (.port .le 65534) ⟨.inr rfl, by decide⟩).mpr (.inr (.inl rfl))⟩

/-- A frame from port 80 is listed under 20480, and one from 10.1.2.3 does not come from
10.0.0.0/8; port 1 is below port 256 and listed behind it. -/
theorem wire_turned :
    (srcportIdx, 20480) ∈ pktKeys (Field.frame .srcPort 80) ∧
    Field.wire (Field.frame .srcPort 80) .srcPort = 80 ∧
    ¬ Agrees .srcPort (.port .eq 80) (Field.frame .srcPort 80) ∧
    ¬ Agrees .srcIp (.network (10 * 2 ^ 24) 8) (Field.frame .srcIp 0x0A010203) ∧
    Field.wire (Field.frame .srcPort 1) .srcPort < Field.wire (Field.frame .srcPort 256) .srcPort ∧
    srcPort (Field.frame .srcPort 256) < srcPort (Field.frame .srcPort 1) := by
  have hwire : ∀ x, x < 2 ^ 16 → Field.wire (Field.frame .srcPort x) .srcPort = x :=
    fun x hx => Field.wire_frame hx
  have hread : ∀ x, x < 2 ^ 16 → srcPort (Field.frame .srcPort x) = swap16 x := fun x hx =>
    (Field.value_eq _ 0 .srcPort).trans (congrArg swap16 (hwire x hx))
  have haddress : Field.wire (Field.frame .srcIp 0x0A010203) .srcIp = 0x0A010203 :=
    Field.wire_frame (by decide)
  refine ⟨?_, hwire 80 (by decide), fun h => ?_, fun h => ?_, ?_, ?_⟩
  · refine (Field.mem_pktKeys (Field.isFrame_frame _ _).ports .srcPort _).mpr ?_
    rw [hwire 80 (by decide)]
    rfl
  · have hholds := (agrees_iff (Field.isFrame_frame _ _)).mp h
    rw [hwire 80 (by decide)] at hholds
    exact absurd (hholds.mpr rfl) (by decide : swap16 80 ≠ 80)
  · have hholds := (agrees_iff (Field.isFrame_frame _ _)).mp h
    rw [haddress] at hholds
    have hnet := hholds.mpr ((sameHigh_iff (by decide) (by decide)).mpr (by decide))
    exact absurd ((sameHigh_iff (swap32_lt (by decide)) (by decide)).mp hnet) (by decide)
  · rw [hwire 1 (by decide), hwire 256 (by decide)]
    decide
  · rw [hread 1 (by decide), hread 256 (by decide)]
    decide

end Netplay
