import Mathlib.Data.List.Nodup
import Netplay.PacketStore

/-!
# The entries of a burst

What the appends of a burst put into the lists: each of its packets, under its
id, into the timestamp list of the burst's second, the lists of its own keys
and the lists of the characters that accept it, once each.
-/

namespace Netplay

open Packet NetplayUtils

/-- A value in a list. -/
abbrev Entry := ListKey × Nat

def Append.entries (a : Append) : List Entry :=
  (List.range a.count).map fun i => (a.key, a.first + i)

theorem Append.mem_entries {a : Append} {k : ListKey} {v : Nat} :
    (k, v) ∈ a.entries ↔ k = a.key ∧ ∃ i, i < a.count ∧ v = a.first + i := by
  simp only [entries, List.mem_map, List.mem_range, Prod.mk.injEq]
  constructor
  · rintro ⟨i, hi, rfl, rfl⟩
    exact ⟨rfl, i, hi, rfl⟩
  · rintro ⟨rfl, i, hi, rfl⟩
    exact ⟨i, hi, rfl, rfl⟩

theorem Append.entries_one (k : ListKey) (id : Nat) :
    (⟨k, id, 1⟩ : Append).entries = [(k, id)] := rfl

/-- The append that the operation is or leads to. -/
def Op.appended (filters : Nat → List PacketFilter) : Op → Option Append
  | .append a => some a
  | .character c second id pkt =>
    if (filters c).any (·.applyPkt pkt) then some ⟨.character second c, id, 1⟩ else none
  | _ => none

def Op.entries (filters : Nat → List PacketFilter) (op : Op) : List Entry :=
  (op.appended filters).elim [] Append.entries

theorem Store.stepOp_snd (st : Store) (op : Op) :
    (st.stepOp op).2 = (op.appended st.filters).map .get := by
  cases op with
  | character c second id pkt =>
    simp only [stepOp, Op.appended]
    split <;> rfl
  | _ => rfl

def entriesOf (filters : Nat → List PacketFilter) (ops : List Op) : List Entry :=
  ops.flatMap (Op.entries filters)

section

variable (filters : Nat → List PacketFilter)

@[simp] theorem entriesOf_nil : entriesOf filters [] = [] := rfl
@[simp] theorem entriesOf_cons (op : Op) (ops : List Op) :
    entriesOf filters (op :: ops) = op.entries filters ++ entriesOf filters ops := rfl
@[simp] theorem entriesOf_append (ops ops' : List Op) :
    entriesOf filters (ops ++ ops') = entriesOf filters ops ++ entriesOf filters ops' :=
  List.flatMap_append

/-- The lists of a packet other than the timestamp list. -/
def pktLists (now numChars : Nat) (m : Mbuf) : List ListKey :=
  (pktKeys m.data).map (fun k => .index k.1 k.2) ++
    ((List.range numChars).filter fun c => (filters c).any (·.applyPkt m.data)).map (.character now)

theorem entriesOf_characters (now id : Nat) (m : Mbuf) (cs : List Nat) :
    entriesOf filters (cs.map fun c => .character c now id m.data) =
      ((cs.filter fun c => (filters c).any (·.applyPkt m.data)).map (.character now)).map
        (·, id) := by
  induction cs with
  | nil => rfl
  | cons c cs ih =>
    rw [List.map_cons, entriesOf_cons, ih, List.filter_cons, Op.entries, Op.appended]
    split <;> rfl

theorem entriesOf_pktOps (now numChars id offset : Nat) (m : Mbuf) :
    entriesOf filters (pktOps now numChars id offset m) =
      (pktLists filters now numChars m).map (·, id) := by
  have hkeys : ∀ ks : List (Nat × Nat),
      entriesOf filters (ks.map fun k => .append ⟨.index k.1 k.2, id, 1⟩) =
        ks.map fun k => (.index k.1 k.2, id) := fun ks => by
    induction ks with
    | nil => rfl
    | cons k ks ih =>
      rw [List.map_cons, entriesOf_cons, ih]
      rfl
  have hwrites : entriesOf filters [.setOfflen id offset m.size,
      .appendPkt offset now m.data m.size] = [] := rfl
  rw [pktOps, entriesOf_append, entriesOf_append, hkeys, hwrites, entriesOf_characters,
    pktLists, List.map_append, List.append_nil, List.map_map, List.map_map]
  rfl

theorem pktKeys_nodup (pkt : Memory) : ((pktKeys pkt).map Prod.fst).Nodup := by
  rw [pktKeys_eq]
  split
  · exact (by decide : [srcipIdx, dstipIdx, srcportIdx, dstportIdx].Nodup)
  · exact (by decide : [srcipIdx, dstipIdx].Nodup)

theorem pktKeys_index {pkt : Memory} {k : Nat × Nat} (h : k ∈ pktKeys pkt) :
    k.1 ≠ timestampIdx := by
  have hid : k.1 ∈ (pktKeys pkt).map Prod.fst := List.mem_map_of_mem h
  have hn : timestampIdx ∉ (pktKeys pkt).map Prod.fst := by
    rw [pktKeys_eq]
    split
    · exact (by decide : timestampIdx ∉ [srcipIdx, dstipIdx, srcportIdx, dstportIdx])
    · exact (by decide : timestampIdx ∉ [srcipIdx, dstipIdx])
  exact fun heq => hn (heq ▸ hid)

theorem pktLists_nodup (now numChars : Nat) (m : Mbuf) : (pktLists filters now numChars m).Nodup := by
  rw [pktLists, List.nodup_append]
  refine ⟨?_, ?_, ?_⟩
  · refine List.Nodup.map ?_ (List.Nodup.of_map _ (pktKeys_nodup m.data))
    rintro ⟨i, t⟩ ⟨i', t'⟩ h
    cases h
    rfl
  · refine List.Nodup.map ?_ (List.nodup_range.filter _)
    intro c c' h
    cases h
    rfl
  · intro k hk k' hk'
    obtain ⟨p, -, rfl⟩ := List.mem_map.mp hk
    obtain ⟨c, -, rfl⟩ := List.mem_map.mp hk'
    simp

theorem timestamp_not_mem_pktLists (now numChars tok : Nat) (m : Mbuf) :
    .index timestampIdx tok ∉ pktLists filters now numChars m := by
  intro h
  rcases List.mem_append.mp h with h | h
  · obtain ⟨k, hk, heq⟩ := List.mem_map.mp h
    injection heq with h1 h2
    exact pktKeys_index hk h1
  · obtain ⟨c, -, heq⟩ := List.mem_map.mp h
    cases heq

theorem mem_entriesOf_loopOps (now numChars : Nat) (ms : List Mbuf) : ∀ (id offset : Nat)
    (k : ListKey) (v : Nat), (k, v) ∈ entriesOf filters (loopOps now numChars id offset ms) ↔
      ∃ i m, ms[i]? = some m ∧ v = id + i ∧ k ∈ pktLists filters now numChars m := by
  induction ms with
  | nil => simp [loopOps]
  | cons m ms ih =>
    intro id offset k v
    rw [loopOps, entriesOf_append, List.mem_append, entriesOf_pktOps, ih]
    constructor
    · rintro (h | ⟨i, m', hm, rfl, hk⟩)
      · obtain ⟨k', hk, heq⟩ := List.mem_map.mp h
        cases heq
        exact ⟨0, m, rfl, rfl, hk⟩
      · exact ⟨i + 1, m', hm, by omega, hk⟩
    · rintro ⟨i, m', hm, rfl, hk⟩
      cases i with
      | zero =>
        cases hm
        exact .inl (List.mem_map.mpr ⟨k, hk, rfl⟩)
      | succ i => exact .inr ⟨i, m', hm, by omega, hk⟩

theorem entriesOf_loopOps_nodup (now numChars : Nat) (ms : List Mbuf) : ∀ id offset : Nat,
    (entriesOf filters (loopOps now numChars id offset ms)).Nodup := by
  induction ms with
  | nil => exact fun _ _ => List.nodup_nil
  | cons m ms ih =>
    intro id offset
    rw [loopOps, entriesOf_append, List.nodup_append, entriesOf_pktOps]
    refine ⟨List.Nodup.map (fun k k' h => (Prod.mk.inj h).1) (pktLists_nodup filters now numChars m),
      ih _ _, ?_⟩
    rintro ⟨k, v⟩ h ⟨k', v'⟩ h' heq
    obtain ⟨k'', -, hkv⟩ := List.mem_map.mp h
    obtain ⟨i, m', -, hv, -⟩ := (mem_entriesOf_loopOps filters now numChars ms _ _ k' v').mp h'
    cases hkv
    cases heq
    omega

/-- All the lists of a packet captured in second `now`. -/
def packetLists (now numChars : Nat) (m : Mbuf) : List ListKey :=
  .index timestampIdx now :: pktLists filters now numChars m

/-- The entries of a burst are its packets, in their lists. -/
theorem mem_entriesOf_burstOps {b : Burst} {start offset numChars : Nat} {k : ListKey} {v : Nat} :
    (k, v) ∈ entriesOf filters (burstOps b start offset numChars) ↔
      ∃ i m, b.pkts[i]? = some m ∧ v = start + i ∧
        k ∈ packetLists filters b.now.toNat numChars m := by
  rw [burstOps, entriesOf_cons, List.mem_append, mem_entriesOf_loopOps]
  constructor
  · rintro (h | ⟨i, m, hm, rfl, hk⟩)
    · obtain ⟨rfl, i, hi, rfl⟩ := Append.mem_entries.mp h
      exact ⟨i, _, List.getElem?_eq_getElem hi, rfl, List.mem_cons_self⟩
    · exact ⟨i, m, hm, rfl, List.mem_cons_of_mem _ hk⟩
  · rintro ⟨i, m, hm, rfl, hk⟩
    rcases List.mem_cons.mp hk with rfl | hk
    · obtain ⟨hi, -⟩ := List.getElem?_eq_some_iff.mp hm
      exact .inl (Append.mem_entries.mpr ⟨rfl, i, hi, rfl⟩)
    · exact .inr ⟨i, m, hm, rfl, hk⟩

theorem entriesOf_burstOps_nodup (b : Burst) (start offset numChars : Nat) :
    (entriesOf filters (burstOps b start offset numChars)).Nodup := by
  rw [burstOps, entriesOf_cons, List.nodup_append]
  refine ⟨List.Nodup.map (fun i j h => ?_) List.nodup_range,
    entriesOf_loopOps_nodup filters _ _ _ _ _, ?_⟩
  · simpa using h
  · rintro ⟨k, v⟩ h ⟨k', v'⟩ h' heq
    obtain ⟨rfl, -⟩ := Append.mem_entries.mp h
    obtain ⟨i, m, -, -, hk⟩ := (mem_entriesOf_loopOps filters _ _ _ _ _ k' v').mp h'
    cases heq
    exact timestamp_not_mem_pktLists filters _ _ _ m hk

theorem Burst.holds_id {b : Burst} {i : Nat} {m : Mbuf} (start : Nat) (hm : b.pkts[i]? = some m) :
    Block.Holds ⟨start, b.cnt⟩ (start + i) := by
  obtain ⟨hi, -⟩ := List.getElem?_eq_some_iff.mp hm
  exact ⟨Nat.le_add_right _ _, Nat.add_lt_add_left hi _⟩

/-- The values of a burst's entries are its ids. -/
theorem entriesOf_burstOps_holds {b : Burst} {start offset numChars : Nat} {k : ListKey} {v : Nat}
    (h : (k, v) ∈ entriesOf filters (burstOps b start offset numChars)) :
    Block.Holds ⟨start, b.cnt⟩ v := by
  obtain ⟨i, m, hm, rfl, -⟩ := (mem_entriesOf_burstOps filters).mp h
  exact b.holds_id start hm

end

end Netplay
