import Mathlib.Data.List.Range
import Netplay.CountEffects
import Netplay.IndexRouting
import Netplay.InvertedIndex
import Netplay.PlanIndexes

/-!
# Approximate counts

`approx_pkt_count` of a store among writers. The count of a range comes back exactly where
the range ends at a key of its index, or is empty, and it is at most the number of ids
that were handed out.
-/

namespace Netplay

open Text Packet NetplayUtils QueryPlanner

namespace Attribute

/-- The number of keys of the attribute's index. -/
def keys (a : Attribute) : Nat := (Target.index a).keys

theorem keys_le (a : Attribute) : a.keys ≤ 2 ^ 32 := by
  cases a <;> decide

end Attribute

namespace Store

/-- `index->at(tok)`. -/
def indexAt (st : Store) (a : Attribute) (tok : Nat) : Option (Option (List Nat)) :=
  if tok < a.keys then some (st.lists (.index a.index tok)).pointed else none

/-- `approx_pkt_count`: a loop with a result looks at each key of the index once at most. The
switch knows the families of indexes, and the store has no indexes but the five. -/
def approxPktCount (st : Store) : Counts := fun indexId tokBeg tokEnd =>
  match Attribute.ofIndex indexId with
  | some a => match Netplay.countFrom (st.indexAt a) tokEnd (a.keys + 2) tokBeg 0 with
    | some count => .ok (UInt64.ofNat count)
    | none => .error .undefined
  | none => match indexFamily (indexId / offsetMin) with
    | some _ => .error .undefined
    | none => .ok 0

theorem approxPktCount_index (st : Store) (a : Attribute) (tokBeg tokEnd : Nat) :
    st.approxPktCount a.index tokBeg tokEnd =
      match Netplay.countFrom (st.indexAt a) tokEnd (a.keys + 2) tokBeg 0 with
      | some count => .ok (UInt64.ofNat count)
      | none => .error .undefined := by
  rw [approxPktCount, Attribute.ofIndex_index]

/-- The ids of the lists of a range. -/
def rangeIds (st : Store) (a : Attribute) (tokBeg tokEnd : Nat) : List Nat :=
  (List.range' tokBeg (tokEnd + 1 - tokBeg)).flatMap fun tok =>
    (st.lists (.index a.index tok)).pointed.getD []

theorem countFrom_in (st : Store) {a : Attribute} {tokBeg tokEnd n : Nat}
    (hend : tokEnd < a.keys) (hn : a.keys + 1 < n) :
    Netplay.countFrom (st.indexAt a) tokEnd n tokBeg 0 = some (st.rangeIds a tokBeg tokEnd).length := by
  rcases Nat.lt_or_ge tokEnd tokBeg with hlt | hle
  · obtain ⟨n, rfl⟩ : ∃ m, n = m + 1 := ⟨n - 1, by omega⟩
    rw [Netplay.countFrom, if_neg (by omega), rangeIds, Nat.sub_eq_zero_of_le hlt]
    rfl
  · have := a.keys_le
    have hlook : ∀ t, tokBeg ≤ t → t ≤ tokEnd →
        st.indexAt a t = some (st.lists (.index a.index t)).pointed :=
      fun t _ ht => if_pos (Nat.lt_of_le_of_lt ht hend)
    rw [Netplay.countFrom_eq (by omega) n hlook (by omega) (by omega), Nat.zero_add, rangeIds]

theorem countFrom_empty (st : Store) {a : Attribute} {tokBeg tokEnd n : Nat}
    (hlt : tokEnd < tokBeg) (hn : 0 < n) :
    Netplay.countFrom (st.indexAt a) tokEnd n tokBeg 0 = some 0 := by
  obtain ⟨n, rfl⟩ : ∃ m, n = m + 1 := ⟨n - 1, by omega⟩
  rw [Netplay.countFrom, if_neg (by omega)]

/-- The count of a range that goes on behind the last key comes upon the key behind it, in
however many steps. -/
theorem countFrom_out (st : Store) {a : Attribute} {tokEnd : Nat} (hend : a.keys ≤ tokEnd)
    (n : Nat) : ∀ {i count : Nat}, i ≤ tokEnd →
      Netplay.countFrom (st.indexAt a) tokEnd n i count = none := by
  induction n with
  | zero => exact fun _ => rfl
  | succ n ih =>
    intro i count hi
    rw [Netplay.countFrom, if_pos hi, indexAt]
    split
    · next hlt =>
      have := a.keys_le
      rw [Option.bind_some, inc64_eq (by omega)]
      exact ih (Nat.le_trans hlt hend)
    · rfl

/-- The ids that the taken positions of a list have or are reserved for. -/
def values (st : Store) (k : ListKey) : List Nat :=
  (List.range (st.lists k).tail).map fun j => ((st.lists k).slots j).value.getD 0

theorem pointed_length_le (st : Store) (k : ListKey) :
    ((st.lists k).pointed.getD []).length ≤ (st.values k).length := by
  rw [EntryList.pointed]
  split
  · simp [EntryList.entries, values]
  · exact Nat.zero_le _

/-- The array of the offset log has a cell for each of the ids handed out. -/
def OffsetsFit (st : Store) : Prop := st.writeId ≤ 1024 * 2 ^ 24

end Store

namespace System

variable {ω : Type} {s : System ω}

/-- A taken position of an index is for a packet of one burst, and a key of that packet. -/
theorem SlotsKept.position (h : SlotsKept s) {idx tok j v : Nat}
    (hv : ((s.store.lists (.index idx tok)).slots j).value = some v) :
    v < s.store.writeId ∧ s.Placed (.index idx tok, v) := by
  have hplaced := (h.placed.value_iff _ v).mp ⟨j, hv⟩
  refine ⟨?_, hplaced⟩
  rcases hplaced with ⟨e, he, hin⟩ | ⟨w, hin, -⟩
  · have hlt := (h.ids.ended_iff v).mp ⟨e, he, entriesOf_burstOps_holds _ hin⟩
    exact Nat.lt_of_lt_of_le hlt h.ids.tiles.le
  · obtain ⟨ids, hids, hhold⟩ := Writer.entries_holds hin
    exact ((h.ids.tiles.holds v).mp ⟨w, ids, hids, hhold⟩).2

/-- A burst lists an id under one key of an index. -/
theorem burst_key_unique {filters : Nat → List PacketFilter} {b : Burst}
    {start offset numChars idx tok tok' v : Nat}
    (h : (.index idx tok, v) ∈ entriesOf filters (burstOps b start offset numChars))
    (h' : (.index idx tok', v) ∈ entriesOf filters (burstOps b start offset numChars)) :
    tok = tok' := by
  obtain ⟨i, m, hm, rfl, hk⟩ := (mem_entriesOf_burstOps filters).mp h
  obtain ⟨i', m', hm', hid, hk'⟩ := (mem_entriesOf_burstOps filters).mp h'
  obtain rfl := Nat.add_left_cancel hid
  obtain rfl := Option.some.inj (hm.symm.trans hm')
  obtain ⟨a, ha, -, rfl⟩ := (mem_listedKeys _ _ _ _).mp (index_mem_packetLists.mp hk)
  obtain ⟨a', ha', -, rfl⟩ := (mem_listedKeys _ _ _ _).mp (index_mem_packetLists.mp hk')
  rw [Attribute.index_injective (ha.symm.trans ha')]

/-- An id is under one key of an index, whichever burst it is of. -/
theorem SlotsKept.key_unique (h : SlotsKept s) {idx tok tok' j j' v : Nat}
    (hv : ((s.store.lists (.index idx tok)).slots j).value = some v)
    (hv' : ((s.store.lists (.index idx tok')).slots j').value = some v) : tok = tok' := by
  rcases (h.position hv).2 with ⟨e, he, hin⟩ | ⟨w, hin, -⟩ <;>
    rcases (h.position hv').2 with ⟨e', he', hin'⟩ | ⟨w', hin', -⟩
  · obtain rfl := ended_unique h.ids he he' (entriesOf_burstOps_holds _ hin)
      (entriesOf_burstOps_holds _ hin')
    exact burst_key_unique hin hin'
  · exact (entries_not_ended h.ids he hin hin').elim
  · exact (entries_not_ended h.ids he' hin' hin).elim
  · obtain rfl := entries_unique h.ids hin hin'
    cases hx : s.writers w with
    | running b start offset n cur todo =>
      rw [hx] at hin hin'
      exact burst_key_unique hin hin'
    | idle => simp [hx, Writer.entries, Writer.ops] at hin
    | reserved b start => simp [hx, Writer.entries, Writer.ops] at hin
    | located b start offset => simp [hx, Writer.entries, Writer.ops] at hin

theorem SlotsKept.mem_values (h : SlotsKept s) {k : ListKey} {v : Nat}
    (hv : v ∈ s.store.values k) : ∃ j, ((s.store.lists k).slots j).value = some v := by
  obtain ⟨j, hj, rfl⟩ := List.mem_map.mp hv
  refine ⟨j, ?_⟩
  cases hslot : ((s.store.lists k).slots j) with
  | free => exact absurd ((h.owed.free_iff k j).mp hslot) (Nat.not_le.mpr (List.mem_range.mp hj))
  | reserved v => rfl
  | stored v => rfl

theorem SlotsKept.values_nodup (h : SlotsKept s) (k : ListKey) : (s.store.values k).Nodup := by
  refine List.Nodup.map_on (fun i hi j hj hij => ?_) List.nodup_range
  have hval : ∀ j ∈ List.range (s.store.lists k).tail,
      ((s.store.lists k).slots j).value = some (((s.store.lists k).slots j).value.getD 0) := by
    intro j hj
    cases hslot : ((s.store.lists k).slots j) with
    | free => exact absurd ((h.owed.free_iff k j).mp hslot) (Nat.not_le.mpr (List.mem_range.mp hj))
    | reserved v => rfl
    | stored v => rfl
  exact h.placed.unique k i j _ ((hval i hi).trans (congrArg some hij)) (hval j hj)

/-- The lists of a range have no more positions than there are ids. -/
theorem SlotsKept.rangeIds_length_le (h : SlotsKept s) (a : Attribute) (tokBeg tokEnd : Nat) :
    (s.store.rangeIds a tokBeg tokEnd).length ≤ s.store.writeId := by
  have hle : (s.store.rangeIds a tokBeg tokEnd).length ≤
      ((List.range' tokBeg (tokEnd + 1 - tokBeg)).flatMap fun tok =>
        s.store.values (.index a.index tok)).length := by
    rw [Store.rangeIds, List.length_flatMap, List.length_flatMap]
    exact List.sum_le_sum fun tok _ => s.store.pointed_length_le _
  have hnodup : ((List.range' tokBeg (tokEnd + 1 - tokBeg)).flatMap fun tok =>
      s.store.values (.index a.index tok)).Nodup := by
    refine List.nodup_flatMap.mpr ⟨fun tok _ => h.values_nodup _, ?_⟩
    refine (List.nodup_range' 1).imp fun hne v hv hv' => ?_
    obtain ⟨j, hj⟩ := h.mem_values hv
    obtain ⟨j', hj'⟩ := h.mem_values hv'
    exact hne (h.key_unique hj hj')
  have hsub : ((List.range' tokBeg (tokEnd + 1 - tokBeg)).flatMap fun tok =>
      s.store.values (.index a.index tok)) ⊆ List.range s.store.writeId := by
    intro v hv
    obtain ⟨tok, -, hv⟩ := List.mem_flatMap.mp hv
    obtain ⟨j, hj⟩ := h.mem_values hv
    exact List.mem_range.mpr (h.position hj).1
  have hlen := hnodup.length_le_of_subset hsub
  rw [List.length_range] at hlen
  exact Nat.le_trans hle hlen

/-- In every reachable state a count that comes back is below the largest `uint64_t`. -/
theorem approxPktCount_lt [DecidableEq ω] {numFilters : Nat} {filters : Nat → List PacketFilter}
    (h : Reached numFilters filters s) (hfit : s.store.OffsetsFit) {a : Attribute}
    {tokBeg tokEnd : Nat} {count : UInt64}
    (hok : s.store.approxPktCount a.index tokBeg tokEnd = .ok count) :
    count < 0xFFFFFFFFFFFFFFFF := by
  have hcount : ∀ n, n ≤ s.store.writeId → UInt64.ofNat n < 0xFFFFFFFFFFFFFFFF := by
    intro n hn
    have hlt : n < 2 ^ 64 - 1 := by
      have : n ≤ 1024 * 2 ^ 24 := Nat.le_trans hn hfit
      omega
    rw [UInt64.lt_iff_toNat_lt, UInt64.toNat_ofNat_of_lt' (Nat.lt_of_lt_of_le hlt (by decide))]
    exact hlt
  rw [Store.approxPktCount_index] at hok
  rcases Nat.lt_or_ge tokEnd tokBeg with hlt | hle
  · rw [Store.countFrom_empty s.store hlt (Nat.succ_pos _)] at hok
    obtain rfl := Except.ok.inj hok
    exact hcount 0 (Nat.zero_le _)
  · rcases Nat.lt_or_ge tokEnd a.keys with hend | hout
    · rw [Store.countFrom_in s.store hend (Nat.lt_succ_self _)] at hok
      obtain rfl := Except.ok.inj hok
      exact hcount _ ((slotsKept_reached h).rangeIds_length_le a tokBeg tokEnd)
    · rw [Store.countFrom_out _ hout _ hle] at hok
      cases hok

/-- The counts of a planner among writers: each is taken in some reachable state, writers may
run between two of them. -/
def CountsTaken [DecidableEq ω] (numFilters : Nat) (filters : Nat → List PacketFilter)
    (counts : Counts) : Prop :=
  ∀ indexId tokBeg tokEnd, ∃ s : System ω, Reached numFilters filters s ∧ s.store.OffsetsFit ∧
    counts indexId tokBeg tokEnd = s.store.approxPktCount indexId tokBeg tokEnd

section

variable [DecidableEq ω] {numFilters : Nat} {filters : Nat → List PacketFilter} {counts : Counts}

theorem CountsTaken.lt (h : CountsTaken (ω := ω) numFilters filters counts) {a : Attribute}
    {tokBeg tokEnd : Nat} {count : UInt64} (hok : counts a.index tokBeg tokEnd = .ok count) :
    count < 0xFFFFFFFFFFFFFFFF := by
  obtain ⟨s, hs, hfit, heq⟩ := h a.index tokBeg tokEnd
  exact approxPktCount_lt hs hfit (heq.symm.trans hok)

end

end System

end Netplay
