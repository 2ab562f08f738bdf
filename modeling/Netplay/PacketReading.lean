import Netplay.DataLog
import Netplay.FilterScan
import Netplay.History
import Netplay.InvertedIndex
import Netplay.WholeBurst

/-!
# Reading a packet back

The inherited `get` copies as many bytes as the packet has from the start of the record, which
is the second; the reader of `packet_filter_iterator` takes the second from there and the
packet from behind it. Both see what the writers have appended.
-/

namespace Netplay

open Packet NetplayUtils BlockTail

/-! ## The readers -/

/-- The bytes of the packet. -/
def Mbuf.bytes (m : Mbuf) : List UInt8 := (List.range m.pktLen.toNat).map m.data

namespace Store

/-- The inherited `log_store::get`: the bytes copied, if it returns true. -/
def get (st : Store) (junk id : Nat) : Option (List UInt8) :=
  if id < st.writeId then
    let (offset, length) := unpackOfflen ((st.offlens id).getD junk)
    some ((List.range length).map (st.ptr offset))
  else none

/-- What `packet_filter_iterator::operator++` reads under an id: the second, and the packet. -/
def pktAt (st : Store) (id : Nat) : Option (Nat × Memory) :=
  (st.offlens id).map fun ol =>
    let (offset, _) := unpackOfflen ol
    (u64 (st.ptr offset) 0, fun i => st.ptr offset (8 + i))

/-- It is what the packet filter is applied to. -/
theorem applyAt_eq_map (st : Store) (f : PacketFilter) (id : Nat) :
    st.applyAt f id = (st.pktAt id).map fun p => f.apply p.2 (UInt32.ofNat p.1) := by
  rw [applyAt, pktAt, Option.map_map]
  rfl

end Store

/-- The bytes are those of the second, over and over; a packet without bytes is such a one. -/
def Mbuf.RepeatsSecond (m : Mbuf) (ts : Nat) : Prop :=
  ∀ i, i < m.pktLen.toNat → m.data i = byteOf ts (i % 8)

/-- A record starts with the bytes of its packet only if these repeat the second. -/
theorem record_eq_pkt_iff (ts : Nat) (pkt : Memory) (n : Nat) :
    (∀ i, i < n → record ts pkt i = pkt i) ↔ ∀ i, i < n → pkt i = byteOf ts (i % 8) := by
  constructor
  · intro h i
    -- eight bytes further on the packet is what it was
    induction i using Nat.strong_induction_on with
    | _ i ih =>
      intro hi
      rw [← h i hi, record]
      by_cases hlt : i < 8
      · rw [if_pos hlt, Nat.mod_eq_of_lt hlt]
      · rw [if_neg hlt, ih (i - 8) (by omega) (by omega), ← Nat.mod_eq_sub_mod (by omega)]
  · intro h i hi
    rw [h i hi, record]
    by_cases hlt : i < 8
    · rw [if_pos hlt, Nat.mod_eq_of_lt hlt]
    · rw [if_neg hlt, h (i - 8) (by omega), ← Nat.mod_eq_sub_mod (by omega)]

/-- `get` delivers the packet, and the reader its second and its first byte. -/
structure Store.ReadsBack (st : Store) (id ts : Nat) (m : Mbuf) : Prop where
  get : ∀ junk, st.get junk id = some m.bytes
  reader : ∃ p, st.pktAt id = some p ∧ p.1 = ts ∧ (0 < m.pktLen.toNat → p.2 0 = m.data 0)

/-- The writer has done the operation. -/
def Writer.Did : Writer → Op → Prop
  | .running b start offset n _ todo, op =>
    ∃ done, burstOps b start offset n = done ++ todo ∧ op ∈ done
  | _, _ => False

namespace System

variable {ω : Type}

/-- The operation has been done in some call. -/
def Did (s : System ω) (op : Op) : Prop :=
  (∃ e ∈ s.ended, op ∈ e.ops) ∨ ∃ w, (s.writers w).Did op

/-- Every record that was appended stays in its block and the buffer of it. -/
def RecordsFit (s : System ω) : Prop :=
  ∀ offset ts pkt len, s.Did (.appendPkt offset ts pkt len) →
    BlockLog.writable blockSize offset (8 + len) = true

/-- Nothing was written outside the data log, and under every id is the packet of one burst. -/
structure ReadsBack (s : System ω) : Prop where
  defined : s.RecordsFit
  packet : ∀ id, id < s.store.numPkts → ∃ e ∈ s.ended, ∃ m, e.Gave id m ∧
    s.store.ReadsBack id e.burst.now.toNat m

/-- The packets captured so far repeat their seconds. -/
def SecondsRepeated (s : System ω) : Prop :=
  ∀ e ∈ s.ended, ∀ m ∈ e.burst.pkts, m.RepeatsSecond e.burst.now.toNat

/-- The packets captured so far have at most 65535 bytes. -/
def Sized (s : System ω) : Prop := ∀ e ∈ s.ended, ∀ m ∈ e.burst.pkts, m.pktLen.toNat < 65536

variable [DecidableEq ω] {numFilters : Nat} {filters : Nat → List PacketFilter} {s : System ω}

theorem PacketAt.offset_lt (h : Reached numFilters filters s) {id : Nat} {e : Ended} {m : Mbuf}
    {off : Nat} (hp : s.PacketAt id e m off) : off < 2 ^ 48 := by
  have h1 := hp.bound
  have h2 := dtail_lt h
  simp only [numBlocks, blockSize] at h2
  omega

theorem PacketAt.reader (h : Reached numFilters filters s) {id : Nat} {e : Ended} {m : Mbuf}
    {off : Nat} (hp : s.PacketAt id e m off) : ∃ p, s.store.pktAt id = some p ∧
      p.1 = e.burst.now.toNat ∧ ∀ i, i < m.size → p.2 i = m.data i := by
  refine ⟨(u64 (s.store.ptr off) 0, fun i => s.store.ptr off (8 + i)), ?_, hp.timestamp,
    fun i hi => ?_⟩
  · rw [Store.pktAt, hp.offlen, Option.map_some, unpack_packOfflen (hp.offset_lt h)]
  · dsimp only
    rw [hp.bytes (8 + i) (by omega), record, if_neg (by omega), Nat.add_sub_cancel_left]

theorem PacketAt.get (h : Reached numFilters filters s) {id : Nat} {e : Ended} {m : Mbuf}
    {off : Nat} (hp : s.PacketAt id e m off) (hid : id < s.store.numPkts) (junk : Nat) :
    s.store.get junk id = some ((List.range m.size).map (record e.burst.now.toNat m.data)) := by
  have hlt : id < s.store.writeId := Nat.lt_of_lt_of_le hid (idsTiled_reached h).tiles.le
  rw [Store.get, if_pos hlt, hp.offlen, Option.getD_some, unpack_packOfflen (hp.offset_lt h)]
  refine congrArg some (List.map_congr_left fun i hi => hp.bytes i ?_)
  exact Nat.lt_add_left 8 (List.mem_range.mp hi)

/-- Under a published id the readers are right exactly if the packet repeats its second. -/
theorem PacketAt.readsBack_iff (h : Reached numFilters filters s) {id : Nat} {e : Ended} {m : Mbuf}
    {off : Nat} (hp : s.PacketAt id e m off) (hid : id < s.store.numPkts)
    (hlen : m.pktLen.toNat < 65536) :
    s.store.ReadsBack id e.burst.now.toNat m ↔ m.RepeatsSecond e.burst.now.toNat := by
  have hsize : m.size = m.pktLen.toNat := Nat.mod_eq_of_lt hlen
  rw [Mbuf.RepeatsSecond, ← record_eq_pkt_iff]
  constructor
  · intro hr i hi
    have hget := hr.get 0
    rw [hp.get h hid, hsize, Mbuf.bytes, Option.some.injEq, List.map_inj_left] at hget
    exact hget i (List.mem_range.mpr hi)
  · intro hrec
    refine ⟨fun junk => ?_, ?_⟩
    · rw [hp.get h hid, hsize, Mbuf.bytes]
      exact congrArg some (List.map_congr_left fun i hi => hrec i (List.mem_range.mp hi))
    · obtain ⟨p, hpkt, hts, hdata⟩ := hp.reader h
      exact ⟨p, hpkt, hts, fun hpos => hdata 0 (by omega)⟩

omit [DecidableEq ω] in
theorem mem_pkts_of_gave {e : Ended} {id : Nat} {m : Mbuf} (h : e.Gave id m) :
    m ∈ e.burst.pkts := by
  obtain ⟨i, hm, -⟩ := h
  exact List.mem_of_getElem? hm

theorem readsBack_of_repeated (h : Reached numFilters filters s) (hsized : s.Sized)
    (hfit : s.RecordsFit) (hrep : s.SecondsRepeated) : s.ReadsBack := by
  refine ⟨hfit, fun id hid => ?_⟩
  obtain ⟨e, m, off, hp⟩ := exists_packetAt h hid
  have hm := mem_pkts_of_gave hp.gave
  exact ⟨e, hp.mem, m, hp.gave,
    (hp.readsBack_iff h hid (hsized e hp.mem m hm)).mpr (hrep e hp.mem m hm)⟩

theorem repeated_of_readsBack (h : Reached numFilters filters s) (hsized : s.Sized)
    (hread : s.ReadsBack) : s.SecondsRepeated := by
  intro e he m hm
  obtain ⟨i, hi, hget⟩ := List.getElem_of_mem hm
  have hgave : e.Gave (e.start + i) m := ⟨i, by rw [List.getElem?_eq_getElem hi, hget], rfl⟩
  have hid : e.start + i < s.store.numPkts :=
    ((idsTiled_reached h).ended_iff _).mp ⟨e, he, hgave.holds⟩
  obtain ⟨e', he', m', hgave', hback⟩ := hread.packet _ hid
  obtain rfl := ended_unique (idsTiled_reached h) he he' hgave.holds hgave'.holds
  obtain rfl := hgave.unique hgave'
  obtain ⟨e', m', off, hp⟩ := exists_packetAt h hid
  obtain rfl := ended_unique (idsTiled_reached h) he hp.mem hgave.holds hp.gave.holds
  obtain rfl := hgave.unique hp.gave
  exact (hp.readsBack_iff h hid (hsized e he m hm)).mp hback

/-- In every state of every run, the packets captured can be read back exactly if each repeats
its second, as long as the records fit in the blocks. -/
theorem packetsReadBack_iff (h : Reached numFilters filters s) (hsized : s.Sized) :
    s.ReadsBack ↔ s.RecordsFit ∧ s.SecondsRepeated :=
  ⟨fun hread => ⟨hread.defined, repeated_of_readsBack h hsized hread⟩,
    fun hcond => readsBack_of_repeated h hsized hcond.1 hcond.2⟩

/-- A burst of one packet of 60 bytes, by itself. -/
theorem one_reached (data : Memory) : ∃ s : System Unit, Reached 1 (fun _ => []) s ∧
    s.store.numPkts = 1 ∧ (∀ w, s.writers w = .idle) ∧
    s.ended = [⟨⟨7, [⟨data, 60⟩]⟩, 0, 0, 1⟩] := by
  have hcap : (0 + 68) / blockSize < numBlocks := by decide
  have hrun := insertPktburst_run (init 1 fun _ => [] : System Unit) (w := ()) rfl
    (Store.insertPktburst_eq _ ⟨7, [⟨data, 60⟩]⟩ rfl hcap)
  exact ⟨_, hrun, rfl, fun _ => rfl, rfl⟩

omit [DecidableEq ω] in
/-- The record of that burst is at the start of the first block. -/
theorem recordsFit_of_ended {data : Memory} (hidle : ∀ w, s.writers w = .idle)
    (hended : s.ended = [⟨⟨7, [⟨data, 60⟩]⟩, 0, 0, 1⟩]) : s.RecordsFit := by
  rintro offset ts pkt len (⟨e, he, hop⟩ | ⟨w, hw⟩)
  · rw [hended] at he
    obtain rfl := List.mem_singleton.mp he
    have hin := (burstOps_within _ _ _ _ _ hop).2
    refine decide_eq_true ?_
    simp only [Burst.nbytes, Burst.cnt, blockSize, BlockLog.numBuckets, BlockLog.bufferSize] at hin ⊢
    simp at hin
    omega
  · rw [hidle] at hw
    exact hw.elim

theorem readsBack_repeated : ∃ s : System Unit, s.store.numPkts = 1 ∧ s.ReadsBack := by
  obtain ⟨s, hs, hnum, hidle, hended⟩ := one_reached fun i => byteOf 7 (i % 8)
  have hmem : ∀ e ∈ s.ended, ∀ m ∈ e.burst.pkts,
      m.pktLen.toNat < 65536 ∧ m.RepeatsSecond e.burst.now.toNat := by
    rw [hended]
    simp [Mbuf.RepeatsSecond]
  exact ⟨s, hnum, (packetsReadBack_iff hs fun e he m hm => (hmem e he m hm).1).mpr
    ⟨recordsFit_of_ended hidle hended, fun e he m hm => (hmem e he m hm).2⟩⟩

/-- A packet of zeros in second 7. -/
theorem not_readsBack : ¬ ∀ (numFilters : Nat) (filters : Nat → List PacketFilter)
    (s : System Unit), Reached numFilters filters s → s.Sized → s.ReadsBack := by
  intro h
  obtain ⟨s, hs, -, -, hended⟩ := one_reached fun _ => 0
  have hsized : s.Sized := by
    rw [Sized, hended]
    simp
  have hrep := repeated_of_readsBack hs hsized (h _ _ s hs hsized)
  rw [SecondsRepeated, hended] at hrep
  have hzero := hrep _ (List.mem_singleton_self _) _ (List.mem_singleton_self _) 0 (by decide)
  exact absurd hzero (by decide)

end System

end Netplay
