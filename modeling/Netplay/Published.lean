import Mathlib.Data.List.Pairwise
import Netplay.EntrySlots

/-!
# What is published is complete

Below `current_read_id_` every id belongs to a burst that has ended, and every
operation of that burst has had its effect: the entries are stored, the offset
log and the data log are written.
-/

namespace Netplay

open Packet NetplayUtils BlockTail

/-! ## The packet of an id -/

theorem writes_mem_loopOps (now numChars : Nat) {m : Mbuf} (ms : List Mbuf) :
    ∀ (i id offset : Nat), ms[i]? = some m → ∃ off,
      .setOfflen (id + i) off m.size ∈ loopOps now numChars id offset ms ∧
        .appendPkt off now m.data m.size ∈ loopOps now numChars id offset ms := by
  induction ms with
  | nil => simp
  | cons m' ms ih =>
    intro i id offset hm
    cases i with
    | zero =>
      cases hm
      exact ⟨offset, by simp [loopOps, pktOps], by simp [loopOps, pktOps]⟩
    | succ i =>
      obtain ⟨off, h1, h2⟩ := ih i (id + 1) (offset + (8 + m'.size)) hm
      refine ⟨off, List.mem_append_right _ ?_, List.mem_append_right _ h2⟩
      rwa [show id + (i + 1) = id + 1 + i by omega]

namespace Ended

/-- Packet `m` of the burst got the id. -/
def Gave (e : Ended) (id : Nat) (m : Mbuf) : Prop :=
  ∃ i, e.burst.pkts[i]? = some m ∧ id = e.start + i

theorem exists_gave {e : Ended} {id : Nat} (h : e.block.Holds id) : ∃ m, e.Gave id m := by
  obtain ⟨h1, h2⟩ := h
  dsimp only [block] at h1 h2
  have hlt : id - e.start < e.burst.pkts.length := by
    rw [Burst.cnt] at h2
    omega
  exact ⟨_, id - e.start, List.getElem?_eq_getElem hlt, by omega⟩

theorem Gave.holds {e : Ended} {id : Nat} {m : Mbuf} (h : e.Gave id m) : e.block.Holds id := by
  obtain ⟨i, hm, rfl⟩ := h
  exact e.burst.holds_id e.start hm

theorem Gave.unique {e : Ended} {id : Nat} {m m' : Mbuf} (h : e.Gave id m) (h' : e.Gave id m') :
    m = m' := by
  obtain ⟨i, hm, rfl⟩ := h
  obtain ⟨i', hm', heq⟩ := h'
  obtain rfl : i = i' := by omega
  rw [hm] at hm'
  exact Option.some.inj hm'

theorem Gave.writes {e : Ended} {id : Nat} {m : Mbuf} (h : e.Gave id m) : ∃ off,
    .setOfflen id off m.size ∈ e.ops ∧ .appendPkt off e.burst.now.toNat m.data m.size ∈ e.ops := by
  obtain ⟨i, hm, rfl⟩ := h
  obtain ⟨off, h1, h2⟩ := writes_mem_loopOps e.burst.now.toNat e.numChars _ i e.start e.offset hm
  exact ⟨off, List.mem_cons_of_mem _ h1, List.mem_cons_of_mem _ h2⟩

/-- Of a packet's id, the entries of its burst are its lists. -/
theorem Gave.mem_entries {e : Ended} {id : Nat} {m : Mbuf} (h : e.Gave id m)
    {filters : Nat → List PacketFilter} {k : ListKey} :
    (k, id) ∈ entriesOf filters e.ops ↔
      k ∈ packetLists filters e.burst.now.toNat e.numChars m := by
  refine (mem_entriesOf_burstOps filters).trans ⟨?_, fun hk => ?_⟩
  · rintro ⟨i, m', hm', hid, hk⟩
    rwa [h.unique ⟨i, hm', hid⟩]
  · obtain ⟨i, hm, hid⟩ := h
    exact ⟨i, m, hm, hid, hk⟩

end Ended

/-- The operation has had its effect on the store. -/
def Op.Done (st : Store) (op : Op) : Prop :=
  op.Written st ∧ ∀ p ∈ op.entries st.filters, ∃ j, (st.lists p.1).slots j = .stored p.2

namespace System

variable {ω : Type}

/-- The entries of a burst that has ended are stored. -/
theorem stored_of_ended {s : System ω} (h : SlotsKept s) {e : Ended} (he : e ∈ s.ended)
    {k : ListKey} {v : Nat} (hv : (k, v) ∈ entriesOf s.store.filters e.ops) :
    ∃ j, (s.store.lists k).slots j = .stored v := by
  obtain ⟨j, hj⟩ := (h.placed.value_iff k v).mpr (.inl ⟨e, he, hv⟩)
  refine ⟨j, ?_⟩
  cases hslot : (s.store.lists k).slots j with
  | free =>
    rw [hslot] at hj
    cases hj
  | reserved v' =>
    rw [hslot] at hj
    cases hj
    obtain ⟨w, hw⟩ := (h.owed.reserved_iff k j v).mp hslot
    exact (entries_not_ended h.ids he hv (Writer.owes_mem (h.order w).ahead hw)).elim
  | stored v' =>
    rw [hslot] at hj
    cases hj
    rfl

/-- Two bursts that have ended with the same id are one. -/
theorem ended_unique {s : System ω} (h : IdsTiled s) {e e' : Ended} (he : e ∈ s.ended)
    (he' : e' ∈ s.ended) {id : Nat} (hid : e.block.Holds id) (hid' : e'.block.Holds id) :
    e = e' := by
  by_contra hne
  have : Std.Symm fun e e' : Ended => e.block.Apart e'.block := ⟨fun _ _ h => h.symm⟩
  exact h.ended_apart.forall he he' hne id hid hid'

/-- The id of a burst that has ended is stored in the lists of its packet and in no other. -/
theorem SlotsKept.stored_iff_mem {s : System ω} (h : SlotsKept s) {e : Ended} (he : e ∈ s.ended)
    {id : Nat} {m : Mbuf} (hm : e.Gave id m) (k : ListKey) :
    (∃ j, (s.store.lists k).slots j = .stored id) ↔
      k ∈ packetLists s.store.filters e.burst.now.toNat e.numChars m := by
  rw [← hm.mem_entries]
  constructor
  · rintro ⟨j, hj⟩
    rcases (h.placed.value_iff k id).mp ⟨j, by rw [hj]; rfl⟩ with ⟨e', he', hin⟩ | ⟨w, hw⟩
    · rwa [ended_unique h.ids he he' hm.holds (entriesOf_burstOps_holds _ hin)]
    · obtain ⟨ids, hids, hhold⟩ := Writer.entries_holds hw.1
      exact absurd hhold (ended_apart_pending h.ids he hids id hm.holds)
  · exact stored_of_ended h he

variable [DecidableEq ω]

theorem readId_le_of_run {s s' : System ω} (h : Relation.ReflTransGen Step s s') :
    s.store.readId ≤ s'.store.readId := by
  induction h with
  | refl => exact Nat.le_refl _
  | tail _ hs ih => exact Nat.le_trans ih (readId_le_of_step hs)

theorem done_of_ended {numFilters : Nat} {filters : Nat → List PacketFilter} {s : System ω}
    (h : Reached numFilters filters s) {e : Ended} (he : e ∈ s.ended) {op : Op} (hop : op ∈ e.ops) :
    op.Done s.store := by
  refine ⟨(logsWritten_reached h).ended e he op hop, fun p hp => ?_⟩
  exact stored_of_ended (slotsKept_reached h) he (List.mem_flatMap.mpr ⟨op, hop, hp⟩)

/-- Packet `m` of burst `e` has the id, which is published; its record is at `off`. -/
structure PacketAt (s : System ω) (id : Nat) (e : Ended) (m : Mbuf) (off : Nat) : Prop where
  mem : e ∈ s.ended
  gave : e.Gave id m
  offlen : s.store.offlens id = some (packOfflen off m.size)
  bound : off + (8 + m.size) ≤ s.store.dtail
  bytes : ∀ i, i < 8 + m.size → s.store.ptr off i = record e.burst.now.toNat m.data i

theorem exists_packetAt {numFilters : Nat} {filters : Nat → List PacketFilter} {s : System ω}
    (h : Reached numFilters filters s) {id : Nat} (hid : id < s.store.readId) :
    ∃ e m off, s.PacketAt id e m off := by
  obtain ⟨e, he, hhold⟩ := ((idsTiled_reached h).ended_iff id).mpr hid
  obtain ⟨m, hm⟩ := Ended.exists_gave hhold
  obtain ⟨off, hset, hpkt⟩ := hm.writes
  have hin := burstOps_within e.burst e.start e.offset e.numChars _ hpkt
  have hbound := (bytesApart_reached h).kept_bound e.region (List.mem_map_of_mem he)
  exact ⟨e, m, off, he, hm, (done_of_ended h he hset).1, Nat.le_trans hin.2 hbound,
    (done_of_ended h he hpkt).1⟩

/-- A published id is stored in the lists of its packet and in no other. -/
theorem stored_iff {numFilters : Nat} {filters : Nat → List PacketFilter} {s : System ω}
    (h : Reached numFilters filters s) {e : Ended} (he : e ∈ s.ended) {id : Nat} {m : Mbuf}
    (hm : e.Gave id m) (k : ListKey) : (∃ j, (s.store.lists k).slots j = .stored id) ↔
      k ∈ packetLists s.store.filters e.burst.now.toNat e.numChars m :=
  (slotsKept_reached h).stored_iff_mem he hm k

/-- In every reachable state the ids reserved and not yet published are partitioned
by the pending blocks, `current_read_id_` does not decrease from there on, and an id
below it is of one burst that has ended: the offset log and the data log have its
packet, and the lists of the packet and no others have the id. -/
theorem published_reached {numFilters : Nat} {filters : Nat → List PacketFilter} {s : System ω}
    (h : Reached numFilters filters s) :
    (∀ i, (∃ w, Holds s.pending w i) ↔ s.store.readId ≤ i ∧ i < s.store.writeId) ∧
      (∀ w w' i, Holds s.pending w i → Holds s.pending w' i → w = w') ∧
      (∀ s', Relation.ReflTransGen Step s s' → s.store.readId ≤ s'.store.readId) ∧
      ∀ id, id < s.store.readId → ∃ e m off, s.PacketAt id e m off ∧
        (∀ e' ∈ s.ended, e'.block.Holds id → e' = e) ∧
        ∀ k, (∃ j, (s.store.lists k).slots j = .stored id) ↔
          k ∈ packetLists s.store.filters e.burst.now.toNat e.numChars m := by
  have hi := idsTiled_reached h
  refine ⟨hi.tiles.holds, hi.tiles.unique, fun s' => readId_le_of_run, fun id hid => ?_⟩
  obtain ⟨e, m, off, hp⟩ := exists_packetAt h hid
  exact ⟨e, m, off, hp, fun e' he' hhold => ended_unique hi he' hp.mem hhold hp.gave.holds,
    stored_iff h hp.mem hp.gave⟩

/-! ## Two calls by turns -/

/-- One packet with TCP. -/
def tcpBurst (second : UInt32) : Burst := ⟨second, [⟨fun i => if i = 23 then 6 else 0, 60⟩]⟩

/-- Two calls in one second. The call that has its ids last is ahead of the other one up to
its `end`, where it waits. -/
def overlapping (n : Nat) : List (Turn Bool) :=
  .call false (tcpBurst 7) :: .call true (tcpBurst 7) ::
    (byTurns true false n ++ [.goOn false, .goOn true])

/-- The ids of the two packets are in the lists in the opposite order. -/
theorem overlapping_run : ∃ s : System Bool, Reached 1 (fun _ => []) s ∧ s.Quiescent ∧
    s.store.readId = 2 ∧ s.store.writeId = 2 ∧
      (s.store.lists (.index srcipIdx 0)).slots 0 = .stored 1 ∧
      (s.store.lists (.index srcipIdx 0)).slots 1 = .stored 0 := by
  obtain ⟨s, hs, hsee⟩ := Schedule.exists_run step_of_turn (overlapping 30)
    (by decide +kernel : (Schedule.after turn (init 1 fun _ => []) (overlapping 30)).map
      (fun s => (s.rests false && s.rests true, s.store.readId, s.store.writeId,
        (s.store.lists (.index srcipIdx 0)).slots 0, (s.store.lists (.index srcipIdx 0)).slots 1)) =
      some (true, 2, 2, .stored 1, .stored 0))
  simp only [Prod.mk.injEq] at hsee
  exact ⟨s, hs, quiescent_of_rests hsee.1, hsee.2⟩

/-- Both packets are complete when both calls have returned. -/
theorem published_overlapping : ∃ s : System Bool, s.store.readId = 2 ∧
    ∀ id, id < 2 → ∃ e m off, s.PacketAt id e m off ∧
      (∀ e' ∈ s.ended, e'.block.Holds id → e' = e) ∧
      ∀ k, (∃ j, (s.store.lists k).slots j = .stored id) ↔
        k ∈ packetLists s.store.filters e.burst.now.toNat e.numChars m := by
  obtain ⟨s, hs, -, hread, -⟩ := overlapping_run
  exact ⟨s, hread, hread ▸ (published_reached hs).2.2.2⟩

end System

end Netplay
