import Netplay.Published

/-!
# The five indexes

The lists of the source and destination addresses, the ports and the seconds
are an inverted index of the packets in the data log: every published packet
occurs once under each of its keys, and without calls in flight nothing else does.
-/

namespace Netplay

open Packet NetplayUtils

namespace Store

/-- The id occurs in the lists of the index exactly once, in the list of `tok`. -/
def ListedOnce (st : Store) (idx tok id : Nat) : Prop :=
  ∃ j, ∀ tok' j', (st.lists (.index idx tok')).slots j' = .stored id ↔ tok' = tok ∧ j' = j

/-- The id occurs in no list of the index. -/
def Unlisted (st : Store) (idx id : Nat) : Prop :=
  ∀ tok j, (st.lists (.index idx tok)).slots j ≠ .stored id

/-- The occurrences of the id of a packet whose record is at `off`. -/
structure Indexed (st : Store) (id off : Nat) (pkt : Memory) : Prop where
  srcIp : st.ListedOnce srcipIdx (srcAddr pkt) id
  dstIp : st.ListedOnce dstipIdx (dstAddr pkt) id
  timestamp : st.ListedOnce timestampIdx (u64 (st.ptr off) 0) id
  ports : HasPorts pkt →
    st.ListedOnce srcportIdx (srcPort pkt) id ∧ st.ListedOnce dstportIdx (dstPort pkt) id
  noPorts : ¬ HasPorts pkt → st.Unlisted srcportIdx id ∧ st.Unlisted dstportIdx id

end Store

/-- The lists of a packet in the indexes are those of its keys. -/
theorem index_mem_packetLists {filters : Nat → List PacketFilter} {now numChars idx tok : Nat}
    {m : Mbuf} : .index idx tok ∈ packetLists filters now numChars m ↔
      (idx, tok) ∈ listedKeys m.data now := by
  simp [packetLists, pktLists, listedKeys]

/-- The keys of a packet in each index. -/
theorem mem_listedKeys_iff (pkt : Memory) (now idx tok : Nat) :
    (idx, tok) ∈ listedKeys pkt now ↔ (idx = timestampIdx ∧ tok = now) ∨
      (idx = srcipIdx ∧ tok = srcAddr pkt) ∨ (idx = dstipIdx ∧ tok = dstAddr pkt) ∨
      (HasPorts pkt ∧ ((idx = srcportIdx ∧ tok = srcPort pkt) ∨
        (idx = dstportIdx ∧ tok = dstPort pkt))) := by
  rw [listedKeys, pktKeys_eq]
  by_cases hp : HasPorts pkt <;> simp [hp]

namespace System

variable {ω : Type} [DecidableEq ω] {numFilters : Nat} {filters : Nat → List PacketFilter}
  {s : System ω}

omit [DecidableEq ω] in
/-- The second in front of a record is that of its burst. -/
theorem PacketAt.timestamp {id : Nat} {e : Ended} {m : Mbuf} {off : Nat}
    (h : s.PacketAt id e m off) : u64 (s.store.ptr off) 0 = e.burst.now.toNat := by
  have hlt : e.burst.now.toNat < 2 ^ 64 := Nat.lt_trans e.burst.now.toNat_lt (by decide)
  rw [← u64_record hlt m.data]
  exact u64_congr fun i hi => h.bytes (0 + i) (by omega)

theorem listedOnce_of_key (h : Reached numFilters filters s) {e : Ended} (he : e ∈ s.ended)
    {id : Nat} {m : Mbuf} (hm : e.Gave id m) {idx tok : Nat}
    (hkey : ∀ tok', (idx, tok') ∈ listedKeys m.data e.burst.now.toNat ↔ tok' = tok) :
    s.store.ListedOnce idx tok id := by
  have hiff : ∀ tok', (∃ j, (s.store.lists (.index idx tok')).slots j = .stored id) ↔ tok' = tok :=
    fun tok' => (stored_iff h he hm _).trans (index_mem_packetLists.trans (hkey tok'))
  obtain ⟨j, hj⟩ := (hiff tok).mpr rfl
  refine ⟨j, fun tok' j' => ⟨fun hj' => ?_, ?_⟩⟩
  · obtain rfl := (hiff tok').mp ⟨j', hj'⟩
    exact ⟨rfl, (slotsPlaced_reached h).unique _ j' j id (by rw [hj']; rfl) (by rw [hj]; rfl)⟩
  · rintro ⟨rfl, rfl⟩
    exact hj

theorem unlisted_of_no_key (h : Reached numFilters filters s) {e : Ended} (he : e ∈ s.ended)
    {id : Nat} {m : Mbuf} (hm : e.Gave id m) {idx : Nat}
    (hkey : ∀ tok, (idx, tok) ∉ listedKeys m.data e.burst.now.toNat) : s.store.Unlisted idx id :=
  fun tok j hj => hkey tok (index_mem_packetLists.mp ((stored_iff h he hm _).mp ⟨j, hj⟩))

theorem PacketAt.indexed (h : Reached numFilters filters s) {id : Nat} {e : Ended} {m : Mbuf}
    {off : Nat} (hp : s.PacketAt id e m off) : s.store.Indexed id off m.data := by
  have hne : timestampIdx ≠ srcipIdx ∧ timestampIdx ≠ dstipIdx ∧ srcipIdx ≠ dstipIdx ∧
      timestampIdx ≠ srcportIdx ∧ timestampIdx ≠ dstportIdx ∧ srcipIdx ≠ srcportIdx ∧
      srcipIdx ≠ dstportIdx ∧ dstipIdx ≠ srcportIdx ∧ dstipIdx ≠ dstportIdx ∧
      srcportIdx ≠ dstportIdx := by decide
  obtain ⟨h1, h2, h3, h4, h5, h6, h7, h8, h9, h10⟩ := hne
  constructor
  · exact listedOnce_of_key h hp.mem hp.gave fun tok => by
      simp [mem_listedKeys_iff, h1.symm, h3, h6, h7]
  · exact listedOnce_of_key h hp.mem hp.gave fun tok => by
      simp [mem_listedKeys_iff, h2.symm, h3.symm, h8, h9]
  · rw [hp.timestamp]
    exact listedOnce_of_key h hp.mem hp.gave fun tok => by
      simp [mem_listedKeys_iff, h1, h2, h4, h5]
  · intro hports
    exact ⟨listedOnce_of_key h hp.mem hp.gave fun tok => by
        simp [mem_listedKeys_iff, hports, h4.symm, h6.symm, h8.symm, h10],
      listedOnce_of_key h hp.mem hp.gave fun tok => by
        simp [mem_listedKeys_iff, hports, h5.symm, h7.symm, h9.symm, h10.symm]⟩
  · intro hports
    exact ⟨unlisted_of_no_key h hp.mem hp.gave fun tok => by
        simp [mem_listedKeys_iff, hports, h4.symm, h6.symm, h8.symm],
      unlisted_of_no_key h hp.mem hp.gave fun tok => by
        simp [mem_listedKeys_iff, hports, h5.symm, h7.symm, h9.symm]⟩

/-- Without calls in flight every slot below the tail holds a published id, in the
list of one of its packet's keys. -/
theorem stored_of_quiescent (h : Reached numFilters filters s) (hq : s.Quiescent) {idx tok j : Nat}
    (hj : j < (s.store.lists (.index idx tok)).tail) :
    ∃ id e m off, id < s.store.numPkts ∧ s.PacketAt id e m off ∧
      (s.store.lists (.index idx tok)).slots j = .stored id ∧
      (idx, tok) ∈ listedKeys m.data (u64 (s.store.ptr off) 0) := by
  have ho := slotsOwed_reached h
  have hidle : ∀ w, s.writers w = .idle := hq
  obtain ⟨id, hslot⟩ : ∃ id, (s.store.lists (.index idx tok)).slots j = .stored id := by
    cases hslot : (s.store.lists (.index idx tok)).slots j with
    | free =>
      have := (ho.free_iff _ j).mp hslot
      omega
    | reserved v =>
      obtain ⟨w, hw⟩ := (ho.reserved_iff _ j v).mp hslot
      rw [hidle w] at hw
      cases hw
    | stored v => exact ⟨v, rfl⟩
  have hplaced := ((slotsPlaced_reached h).value_iff _ id).mp ⟨j, by rw [hslot]; rfl⟩
  obtain ⟨e, he, hin⟩ | ⟨w, hw⟩ := hplaced
  · have hlt := ((idsTiled_reached h).ended_iff id).mp ⟨e, he, entriesOf_burstOps_holds _ hin⟩
    obtain ⟨e', m, off, hp⟩ := exists_packetAt h hlt
    have hmem := (stored_iff h hp.mem hp.gave _).mp ⟨j, hslot⟩
    refine ⟨id, e', m, off, hlt, hp, hslot, ?_⟩
    rw [hp.timestamp]
    exact index_mem_packetLists.mp hmem
  · have := hw.1
    rw [hidle w] at this
    cases this

/-- In every reachable state every published packet is in the data log and occurs
exactly under its keys, and in every quiescent state there is no other entry. -/
theorem inverted_index (h : Reached numFilters filters s) :
    (∀ id, id < s.store.numPkts →
      ∃ e m off, s.PacketAt id e m off ∧ s.store.Indexed id off m.data) ∧
    (s.Quiescent → ∀ idx tok j, j < (s.store.lists (.index idx tok)).tail →
      ∃ id e m off, id < s.store.numPkts ∧ s.PacketAt id e m off ∧
        (s.store.lists (.index idx tok)).slots j = .stored id ∧
        (idx, tok) ∈ listedKeys m.data (u64 (s.store.ptr off) 0)) := by
  refine ⟨fun id hid => ?_, fun hq idx tok j hj => stored_of_quiescent h hq hj⟩
  obtain ⟨e, m, off, hp⟩ := exists_packetAt h hid
  exact ⟨e, m, off, hp, hp.indexed h⟩

/-- The store of two calls by turns: two packets in the same lists. -/
theorem inverted_index_overlapping : ∃ s : System Bool, s.store.numPkts = 2 ∧
    (∀ id, id < 2 → ∃ e m off, s.PacketAt id e m off ∧ s.store.Indexed id off m.data) ∧
    ∀ idx tok j, j < (s.store.lists (.index idx tok)).tail →
      ∃ id e m off, id < 2 ∧ s.PacketAt id e m off ∧
        (s.store.lists (.index idx tok)).slots j = .stored id ∧
        (idx, tok) ∈ listedKeys m.data (u64 (s.store.ptr off) 0) := by
  obtain ⟨s, hs, hq, hread, -⟩ := overlapping_run
  have hnum : s.store.numPkts = 2 := hread
  obtain ⟨hall, hquiet⟩ := inverted_index hs
  rw [hnum] at hall hquiet
  exact ⟨s, hnum, hall, hquiet hq⟩

end System

end Netplay
