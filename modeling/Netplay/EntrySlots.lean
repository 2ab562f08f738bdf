import Netplay.BurstEntries
import Netplay.BurstWrites

/-!
# The slots of the lists

Every entry of a burst gets one slot. A slot is reserved as long as the writer
that took it has not stored into it; the values of the slots are the entries of
the bursts that have ended and those that running calls have placed.
-/

namespace Netplay

open Packet NetplayUtils BlockTail

/-- The value that the slot has, or is reserved for. -/
def Slot.value : Slot → Option Nat
  | .free => none
  | .reserved v => some v
  | .stored v => some v

/-! ## What a writer has placed and what it owes -/

/-- Position `j` of list `k` is for value `v`, an entry from number `i` on of the
append at `idx`. -/
def Append.Covers (a : Append) (idx i : Nat) (k : ListKey) (j v : Nat) : Prop :=
  k = a.key ∧ ∃ m, i ≤ m ∧ m < a.count ∧ j = idx + m ∧ v = a.first + m

theorem Append.covers_zero {a : Append} {idx : Nat} {k : ListKey} {j v : Nat} :
    a.Covers idx 0 k j v ↔
      k = a.key ∧ (idx ≤ j ∧ j < idx + a.count) ∧ v = a.first + (j - idx) := by
  constructor
  · rintro ⟨rfl, m, -, hm, rfl, rfl⟩
    exact ⟨rfl, ⟨Nat.le_add_right _ _, Nat.add_lt_add_left hm _⟩, by rw [Nat.add_sub_cancel_left]⟩
  · rintro ⟨rfl, ⟨hle, hlt⟩, rfl⟩
    exact ⟨rfl, j - idx, Nat.zero_le _, by omega, by omega, rfl⟩

/-- What an append covers is one of its entries. -/
theorem Append.Covers.mem_entries {a : Append} {idx i : Nat} {k : ListKey} {j v : Nat}
    (h : a.Covers idx i k j v) : (k, v) ∈ a.entries := by
  obtain ⟨rfl, m, -, hm, -, rfl⟩ := h
  exact Append.mem_entries.mpr ⟨rfl, m, hm, rfl⟩

theorem Append.Covers.value_eq {a : Append} {idx i : Nat} {k : ListKey} {j v v' : Nat}
    (h : a.Covers idx i k j v) (h' : a.Covers idx i k j v') : v = v' := by
  obtain ⟨-, m, -, -, rfl, rfl⟩ := h
  obtain ⟨-, m', -, -, hm, rfl⟩ := h'
  omega

namespace Store

/-- The `fetch_add` of an append leaves a slot, or reserves it. -/
theorem reserve_slot_cases (st : Store) (a : Append) (k : ListKey) (j : Nat) :
    ((st.updateList a.key (·.reserve a)).lists k).slots j = (st.lists k).slots j ∧
        (((st.updateList a.key (·.reserve a)).lists k).tail ≤ j ↔ (st.lists k).tail ≤ j) ∧
        (∀ v, ¬ a.Covers (st.lists a.key).tail 0 k j v) ∨
      ∃ v, ((st.updateList a.key (·.reserve a)).lists k).slots j = .reserved v ∧
        j < ((st.updateList a.key (·.reserve a)).lists k).tail ∧
        a.Covers (st.lists a.key).tail 0 k j v := by
  by_cases hk : k = a.key
  · subst hk
    rw [updateList_self]
    by_cases hin : (st.lists a.key).tail ≤ j ∧ j < (st.lists a.key).tail + a.count
    · exact .inr ⟨_, EntryList.reserve_slots _ _ hin, hin.2,
        Append.covers_zero.mpr ⟨rfl, hin, rfl⟩⟩
    · refine .inl ⟨EntryList.reserve_slots_other _ _ hin, ?_,
        fun v hc => hin (Append.covers_zero.mp hc).2.1⟩
      simp only [EntryList.reserve]
      omega
  · rw [updateList_other _ hk]
    exact .inl ⟨rfl, Iff.rfl, fun v hc => hk hc.1⟩

/-- Storing an entry leaves a slot, or is at it. -/
theorem store_slot_cases (st : Store) (key : ListKey) (idx id : Nat) (k : ListKey) (j : Nat) :
    ((st.updateList key (·.store idx id)).lists k).slots j = (st.lists k).slots j ∧
        ¬ (k = key ∧ j = idx) ∨
      ((st.updateList key (·.store idx id)).lists k).slots j = .stored id ∧
        k = key ∧ j = idx := by
  by_cases hk : k = key
  · subst hk
    rw [updateList_self]
    by_cases hj : j = idx
    · subst hj
      exact .inr ⟨EntryList.store_slots _ _ _, rfl, rfl⟩
    · exact .inl ⟨EntryList.store_slots_other _ hj _, fun h => hj h.2⟩
  · rw [updateList_other _ hk]
    exact .inl ⟨rfl, fun h => hk h.1⟩

theorem store_tail (st : Store) (key : ListKey) (idx id : Nat) (k : ListKey) :
    ((st.updateList key (·.store idx id)).lists k).tail = (st.lists k).tail := by
  by_cases hk : k = key
  · subst hk
    rw [updateList_self]
    rfl
  · rw [updateList_other _ hk]

end Store

namespace Appending

def append : Appending → Append
  | .get a => a
  | .reserve a => a
  | .allocate a _ _ => a
  | .store a _ _ => a

/-- The entries that have no slot yet. -/
def rest : Appending → List Entry
  | .get a => a.entries
  | .reserve a => a.entries
  | .allocate _ _ _ => []
  | .store _ _ _ => []

/-- Position `j` of list `k` is reserved for `v` and not stored yet. -/
def Owes : Appending → ListKey → Nat → Nat → Prop
  | .get _, _, _, _ => False
  | .reserve _, _, _, _ => False
  | .allocate a idx i, k, j, v => a.Covers idx i k j v
  | .store a idx i, k, j, v => a.Covers idx i k j v

/-- The entry that is to be stored is one of the append's. -/
def InRange : Appending → Prop
  | .get _ => True
  | .reserve _ => True
  | .allocate a _ i => i < a.count
  | .store a _ i => i < a.count

end Appending

theorem Append.entry_inRange {a : Append} {idx i : Nat} {c : Appending}
    (h : a.entry idx i = some c) : c.InRange := by
  rw [Append.entry] at h
  split at h
  · next hi =>
    cases h
    exact hi
  · cases h

theorem Store.stepAppend_inRange {st : Store} {c c' : Appending} (hc : c.InRange)
    (h : (st.stepAppend c).2 = some c') : c'.InRange := by
  cases c with
  | get a =>
    cases h
    trivial
  | reserve a => exact Append.entry_inRange h
  | allocate a idx i =>
    cases h
    exact hc
  | store a idx i => exact Append.entry_inRange h

namespace Writer

/-- The entries of the call that the writer runs. -/
def entries (filters : Nat → List PacketFilter) (x : Writer) : List Entry := entriesOf filters x.ops

/-- The entries of the append in progress and of the operations to come. -/
def ahead (filters : Nat → List PacketFilter) : Writer → List Entry
  | .running _ _ _ _ cur todo => cur.elim [] (·.append.entries) ++ entriesOf filters todo
  | _ => []

/-- The entries that have no slot yet. -/
def rest (filters : Nat → List PacketFilter) : Writer → List Entry
  | .running _ _ _ _ cur todo => cur.elim [] Appending.rest ++ entriesOf filters todo
  | _ => []

/-- The append in progress. -/
def cur : Writer → Option Appending
  | .running _ _ _ _ cur _ => cur
  | _ => none

/-- The entries ahead are the last ones of the call. -/
structure InOrder (filters : Nat → List PacketFilter) (x : Writer) : Prop where
  ahead : x.ahead filters <:+ x.entries filters
  inRange : ∀ c, x.cur = some c → c.InRange

def Placed (filters : Nat → List PacketFilter) (x : Writer) (p : Entry) : Prop :=
  p ∈ x.entries filters ∧ p ∉ x.rest filters

def Owes : Writer → ListKey → Nat → Nat → Prop
  | .running _ _ _ _ (some c) _, k, j, v => c.Owes k j v
  | _, _, _, _ => False

theorem entry_owes (b : Burst) (start offset n : Nat) (todo : List Op) (a : Append) (idx i : Nat)
    (k : ListKey) (j v : Nat) :
    (running b start offset n (a.entry idx i) todo).Owes k j v ↔ a.Covers idx i k j v := by
  rw [Append.entry]
  split
  · exact Iff.rfl
  · next hi =>
    refine iff_of_false (fun h => h) ?_
    rintro ⟨-, m, h1, h2, -⟩
    omega

theorem entry_rest (a : Append) (idx i : Nat) : (a.entry idx i).elim [] Appending.rest = [] := by
  rw [Append.entry]
  split <;> rfl

theorem entry_append (a : Append) (idx i : Nat) :
    (a.entry idx i).elim [] (·.append.entries) <:+ a.entries := by
  rw [Append.entry]
  split
  · exact List.suffix_refl _
  · exact List.nil_suffix

/-- Of a step of a writer, what it does to the lists. -/
theorem step_lists {st st' : Store} {x x' : Writer} (h : x.step st = some (st', x')) :
    (∃ b start offset n a todo, x = .running b start offset n (some (.reserve a)) todo ∧
      st' = st.updateList a.key (·.reserve a) ∧
      x' = .running b start offset n (a.entry (st.lists a.key).tail 0) todo) ∨
    (∃ b start offset n a idx i todo, x = .running b start offset n (some (.store a idx i)) todo ∧
      st' = st.updateList a.key (·.store (idx + i) (a.first + i)) ∧
      x' = .running b start offset n (a.entry idx (i + 1)) todo) ∨
    (∀ k, (st'.lists k).slots = (st.lists k).slots ∧ (st'.lists k).tail = (st.lists k).tail) ∧
      (∀ k j v, x'.Owes k j v ↔ x.Owes k j v) ∧
      ∀ p, x'.Placed st.filters p ↔ x.Placed st.filters p := by
  have hlist : ∀ (a : Append) (f : EntryList → EntryList),
      (∀ l, (f l).slots = l.slots ∧ (f l).tail = l.tail) → ∀ k,
      ((st.updateList a.key f).lists k).slots = (st.lists k).slots ∧
        ((st.updateList a.key f).lists k).tail = (st.lists k).tail := by
    intro a f hf k
    by_cases hk : k = a.key
    · subst hk
      rw [Store.updateList_self]
      exact hf _
    · rw [Store.updateList_other _ hk]
      exact ⟨rfl, rfl⟩
  rcases step_cases h with ⟨b, start, rfl, -, rfl, rfl⟩ | ⟨b, start, offset, rfl, rfl, rfl⟩ |
    ⟨b, start, offset, n, c, todo, rfl, rfl, rfl⟩ | ⟨b, start, offset, n, op, todo, rfl, rfl, rfl⟩
  · exact .inr (.inr ⟨fun _ => ⟨rfl, rfl⟩, fun _ _ _ => Iff.rfl, fun _ => Iff.rfl⟩)
  · refine .inr (.inr ⟨fun _ => ⟨rfl, rfl⟩, fun _ _ _ => Iff.rfl, fun p => ?_⟩)
    simp [Placed, entries, ops, rest]
  · cases c with
    | get a =>
      exact .inr (.inr ⟨hlist a .create fun l => ⟨rfl, rfl⟩, fun _ _ _ => Iff.rfl,
        fun _ => Iff.rfl⟩)
    | reserve a => exact .inl ⟨b, start, offset, n, a, todo, rfl, rfl, rfl⟩
    | allocate a idx i =>
      exact .inr (.inr ⟨hlist a (·.allocate (idx + i)) fun l => ⟨rfl, rfl⟩, fun _ _ _ => Iff.rfl,
        fun _ => Iff.rfl⟩)
    | store a idx i => exact .inr (.inl ⟨b, start, offset, n, a, idx, i, todo, rfl, rfl, rfl⟩)
  · have hsnd := st.stepOp_snd op
    refine .inr (.inr ⟨fun k => by cases op <;> exact ⟨rfl, rfl⟩, fun k j v => ?_, fun p => ?_⟩)
    · rw [hsnd]
      cases op.appended st.filters <;> exact Iff.rfl
    · have hrest : (running b start offset n (st.stepOp op).2 todo).rest st.filters =
          (running b start offset n none (op :: todo)).rest st.filters := by
        rw [hsnd, rest, rest, entriesOf_cons, Op.entries]
        cases op.appended st.filters <;> rfl
      rw [Placed, Placed, hrest]
      rfl

theorem inOrder_step {st st' : Store} {x x' : Writer} (h : x.step st = some (st', x'))
    (hx : x.InOrder st.filters) : x'.InOrder st.filters := by
  rcases step_cases h with ⟨b, start, rfl, -, rfl, rfl⟩ | ⟨b, start, offset, rfl, rfl, rfl⟩ |
    ⟨b, start, offset, n, c, todo, rfl, rfl, rfl⟩ | ⟨b, start, offset, n, op, todo, rfl, rfl, rfl⟩
  · exact ⟨List.suffix_refl _, fun c hc => by cases hc⟩
  · exact ⟨List.suffix_refl _, fun c hc => by cases hc⟩
  · refine ⟨List.IsSuffix.trans ?_ hx.ahead,
      fun c' hc => Store.stepAppend_inRange (hx.inRange c rfl) hc⟩
    have hc : (st.stepAppend c).2.elim [] (·.append.entries) <:+ c.append.entries := by
      cases c with
      | get a => exact List.suffix_refl _
      | reserve a => exact entry_append _ _ _
      | allocate a idx i => exact List.suffix_refl _
      | store a idx i => exact entry_append _ _ _
    obtain ⟨pre, hpre⟩ := hc
    refine ⟨pre, ?_⟩
    simp only [Writer.ahead, Option.elim_some]
    rw [← hpre, List.append_assoc]
  · have hahead : (running b start offset n (st.stepOp op).2 todo).ahead st.filters =
        (running b start offset n none (op :: todo)).ahead st.filters := by
      rw [st.stepOp_snd, Writer.ahead, Writer.ahead, entriesOf_cons, Op.entries]
      cases op.appended st.filters <;> rfl
    refine ⟨?_, fun c hc => ?_⟩
    · rw [hahead]
      exact hx.ahead
    · rw [cur, st.stepOp_snd] at hc
      cases hop : op.appended st.filters with
      | none => simp [hop] at hc
      | some a =>
        simp only [hop, Option.map_some, Option.some.injEq] at hc
        subst hc
        trivial

theorem entries_holds {filters : Nat → List PacketFilter} {x : Writer} {k : ListKey} {v : Nat}
    (h : (k, v) ∈ x.entries filters) : ∃ ids, x.block = some ids ∧ ids.Holds v := by
  cases x with
  | running b start offset n cur todo => exact ⟨_, rfl, entriesOf_burstOps_holds filters h⟩
  | idle => cases h
  | reserved b start => cases h
  | located b start offset => cases h

theorem entries_nodup (filters : Nat → List PacketFilter) (x : Writer) :
    (x.entries filters).Nodup := by
  cases x with
  | running b start offset n cur todo => exact entriesOf_burstOps_nodup filters b start offset n
  | idle => exact List.nodup_nil
  | reserved b start => exact List.nodup_nil
  | located b start offset => exact List.nodup_nil

/-- What a writer owes is an entry of its call. -/
theorem owes_mem {filters : Nat → List PacketFilter} {x : Writer}
    (ha : x.ahead filters <:+ x.entries filters) {k : ListKey} {j v : Nat} (h : x.Owes k j v) :
    (k, v) ∈ x.entries filters := by
  cases x with
  | running b start offset n cur todo =>
    cases cur with
    | none => cases h
    | some c =>
      refine ha.subset (List.mem_append_left _ ?_)
      cases c with
      | get a => cases h
      | reserve a => cases h
      | allocate a idx i => exact Append.Covers.mem_entries h
      | store a idx i => exact Append.Covers.mem_entries h
  | idle => cases h
  | reserved b start => cases h
  | located b start offset => cases h

end Writer

/-- The `fetch_add` of an append places its entries. -/
theorem Writer.placed_reserve {filters : Nat → List PacketFilter} {b : Burst}
    {start offset n : Nat} {a : Append} {todo : List Op}
    (h : (running b start offset n (some (.reserve a)) todo).InOrder filters) (idx : Nat)
    (p : Entry) : (running b start offset n (a.entry idx 0) todo).Placed filters p ↔
      (running b start offset n (some (.reserve a)) todo).Placed filters p ∨ p ∈ a.entries := by
  have hnodup : (a.entries ++ entriesOf filters todo).Nodup :=
    h.ahead.sublist.nodup (entries_nodup filters _)
  have hdisj := (List.nodup_append.mp hnodup).2.2
  have hrest : (running b start offset n (a.entry idx 0) todo).rest filters =
      entriesOf filters todo := by rw [rest, entry_rest, List.nil_append]
  rw [Placed, Placed, hrest]
  constructor
  · rintro ⟨hin, hno⟩
    by_cases hp : p ∈ a.entries
    · exact .inr hp
    · refine .inl ⟨hin, fun hmem => ?_⟩
      rcases List.mem_append.mp hmem with hmem | hmem
      · exact hp hmem
      · exact hno hmem
  · rintro (⟨hin, hno⟩ | hp)
    · exact ⟨hin, fun hmem => hno (List.mem_append_right _ hmem)⟩
    · exact ⟨h.ahead.subset (List.mem_append_left _ hp), fun hmem => hdisj p hp p hmem rfl⟩

/-! ## The slots in a run -/

namespace System

variable {ω : Type}

theorem exists_or_ne (f : ω → Writer) (w : ω) (P : Writer → Prop) :
    (∃ v, P (f v)) ↔ P (f w) ∨ ∃ v, v ≠ w ∧ P (f v) := by
  constructor
  · rintro ⟨v, hv⟩
    by_cases h : v = w
    · exact .inl (h ▸ hv)
    · exact .inr ⟨v, h, hv⟩
  · rintro (h | ⟨v, -, hv⟩)
    · exact ⟨w, h⟩
    · exact ⟨v, hv⟩

def InOrder (s : System ω) : Prop := ∀ w, (s.writers w).InOrder s.store.filters

/-- A slot is free from the tail on; it is reserved where a writer owes a value. -/
structure SlotsOwed (s : System ω) : Prop where
  free_iff : ∀ k j, (s.store.lists k).slots j = .free ↔ (s.store.lists k).tail ≤ j
  reserved_iff : ∀ k j v, (s.store.lists k).slots j = .reserved v ↔ ∃ w, (s.writers w).Owes k j v

/-- The entry has a slot: its burst has ended, or its writer has reserved it. -/
def Placed (s : System ω) (p : Entry) : Prop :=
  (∃ e ∈ s.ended, p ∈ entriesOf s.store.filters e.ops) ∨
    ∃ w, (s.writers w).Placed s.store.filters p

/-- The slots hold the placed entries, once each. -/
structure SlotsPlaced (s : System ω) : Prop where
  value_iff : ∀ k v, (∃ j, ((s.store.lists k).slots j).value = some v) ↔ s.Placed (k, v)
  unique : ∀ k j j' v, ((s.store.lists k).slots j).value = some v →
    ((s.store.lists k).slots j').value = some v → j = j'

theorem inOrder_init (numFilters : Nat) (filters : Nat → List PacketFilter) :
    InOrder (init numFilters filters : System ω) :=
  fun _ => ⟨List.suffix_refl _, fun c hc => by cases hc⟩

theorem slotsOwed_init (numFilters : Nat) (filters : Nat → List PacketFilter) :
    SlotsOwed (init numFilters filters : System ω) :=
  ⟨fun k j => by simp [init, Store.init, EntryList.empty],
    fun k j v => by simp [init, Store.init, EntryList.empty, Writer.Owes]⟩

theorem slotsPlaced_init (numFilters : Nat) (filters : Nat → List PacketFilter) :
    SlotsPlaced (init numFilters filters : System ω) :=
  ⟨fun k v => by
      simp [init, Store.init, EntryList.empty, Slot.value, Placed, Writer.Placed, Writer.entries,
        Writer.ops],
    fun k j j' v h => by simp [init, Store.init, EntryList.empty, Slot.value] at h⟩

/-- A value belongs to one writer. -/
theorem entries_unique {s : System ω} (hi : IdsTiled s) {filters : Nat → List PacketFilter}
    {v w : ω} {k k' : ListKey} {x : Nat} (hv : (k, x) ∈ (s.writers v).entries filters)
    (hw : (k', x) ∈ (s.writers w).entries filters) : v = w := by
  obtain ⟨ids, hids, hx⟩ := Writer.entries_holds hv
  obtain ⟨ids', hids', hx'⟩ := Writer.entries_holds hw
  exact hi.tiles.unique v w x ⟨ids, hids, hx⟩ ⟨ids', hids', hx'⟩

/-- The entries of bursts that have ended are not those of a running call. -/
theorem entries_not_ended {s : System ω} (hi : IdsTiled s) {filters : Nat → List PacketFilter}
    {e : Ended} (he : e ∈ s.ended) {w : ω} {k k' : ListKey} {x : Nat}
    (h : (k, x) ∈ entriesOf filters e.ops) (hw : (k', x) ∈ (s.writers w).entries filters) :
    False := by
  obtain ⟨ids, hids, hx⟩ := Writer.entries_holds hw
  exact ended_apart_pending hi he hids x (entriesOf_burstOps_holds filters h) hx

variable [DecidableEq ω]

theorem exists_update (f : ω → Writer) (w : ω) (x : Writer) (P : Writer → Prop) :
    (∃ v, P (Function.update f w x v)) ↔ P x ∨ ∃ v, v ≠ w ∧ P (f v) := by
  rw [exists_or_ne (Function.update f w x) w P, Function.update_self]
  refine or_congr Iff.rfl (exists_congr fun v => and_congr_right fun hv => ?_)
  rw [Function.update_of_ne hv]

theorem inOrder_update {s : System ω} (h : InOrder s) {st : Store} {es : List Ended} {w : ω}
    {x : Writer} (hf : st.filters = s.store.filters) (hx : x.InOrder s.store.filters) :
    InOrder ⟨st, Function.update s.writers w x, es⟩ := by
  intro v
  dsimp only
  rw [hf]
  by_cases hv : v = w
  · subst hv
    rw [Function.update_self]
    exact hx
  · rw [Function.update_of_ne hv]
    exact h v

theorem inOrder_step {s s' : System ω} (h : InOrder s) (hs : Step s s') : InOrder s' := by
  cases hs with
  | request w b hw =>
    exact inOrder_update h rfl ⟨List.suffix_refl _, fun c hc => by cases hc⟩
  | run w st x hw =>
    exact inOrder_update h (Writer.step_ids hw).1.filters (Writer.inOrder_step hw (h w))
  | publish w b start offset n hw hr =>
    exact inOrder_update h rfl ⟨List.suffix_refl _, fun c hc => by cases hc⟩

/-- A step that changes no slot and nothing of what is owed. -/
theorem slotsOwed_same {s : System ω} (h : SlotsOwed s) {st : Store} {es : List Ended} {w : ω}
    {x : Writer} (hl : ∀ k, (st.lists k).slots = (s.store.lists k).slots ∧
      (st.lists k).tail = (s.store.lists k).tail)
    (ho : ∀ k j v, x.Owes k j v ↔ (s.writers w).Owes k j v) :
    SlotsOwed ⟨st, Function.update s.writers w x, es⟩ := by
  refine ⟨fun k j => ?_, fun k j v => ?_⟩
  · rw [(hl k).1, (hl k).2]
    exact h.free_iff k j
  · rw [(hl k).1, exists_update s.writers w x (·.Owes k j v), ho,
      ← exists_or_ne s.writers w (·.Owes k j v)]
    exact h.reserved_iff k j v

/-- The `fetch_add` of an append: the next `count` slots are reserved. -/
theorem slotsOwed_reserve {s : System ω} (h : SlotsOwed s) {w : ω} {a : Append} {x : Writer}
    (hno : ∀ k j v, ¬ (s.writers w).Owes k j v)
    (ho : ∀ k j v, x.Owes k j v ↔ a.Covers (s.store.lists a.key).tail 0 k j v) :
    SlotsOwed { s with
      store := s.store.updateList a.key (·.reserve a)
      writers := Function.update s.writers w x } := by
  have hothers : ∀ k j v, (∃ u, u ≠ w ∧ (s.writers u).Owes k j v) ↔
      (s.store.lists k).slots j = .reserved v := fun k j v => by
    rw [h.reserved_iff k j v, exists_or_ne s.writers w (·.Owes k j v)]
    simp [hno]
  refine ⟨fun k j => ?_, fun k j v => ?_⟩
  · dsimp only
    rcases s.store.reserve_slot_cases a k j with ⟨hslot, htail, -⟩ | ⟨v, hslot, hlt, -⟩
    · rw [hslot, htail]
      exact h.free_iff k j
    · rw [hslot]
      exact iff_of_false (fun heq => by cases heq) (Nat.not_le_of_lt hlt)
  · rw [exists_update s.writers w x (·.Owes k j v), ho, hothers]
    rcases s.store.reserve_slot_cases a k j with ⟨hslot, -, hc⟩ | ⟨v', hslot, -, hc⟩
    · rw [hslot]
      exact ⟨.inr, fun hor => hor.resolve_left (hc v)⟩
    · rw [hslot]
      constructor
      · intro heq
        injection heq with heq
        exact .inl (heq ▸ hc)
      · rintro (hc' | hres)
        · rw [hc.value_eq hc']
        · -- from the tail on no slot was reserved
          obtain ⟨rfl, hj, -⟩ := Append.covers_zero.mp hc
          rw [(h.free_iff a.key j).mpr hj.1] at hres
          cases hres

/-- The store of entry `i` of an append: its slot is not owed any more. -/
theorem slotsOwed_store {s : System ω} (h : SlotsOwed s) {w : ω} {a : Append} {idx i : Nat}
    {x : Writer} (hi : i < a.count)
    (hw : ∀ k j v, (s.writers w).Owes k j v ↔ a.Covers idx i k j v)
    (ho : ∀ k j v, x.Owes k j v ↔ a.Covers idx (i + 1) k j v)
    (hone : ∀ u k j v, (s.writers u).Owes k j v → (s.writers w).Owes k j v → u = w) :
    SlotsOwed { s with
      store := s.store.updateList a.key (·.store (idx + i) (a.first + i))
      writers := Function.update s.writers w x } := by
  have hmine : (s.store.lists a.key).slots (idx + i) = .reserved (a.first + i) :=
    (h.reserved_iff _ _ _).mpr ⟨w, (hw _ _ _).mpr ⟨rfl, i, Nat.le_refl i, hi, rfl, rfl⟩⟩
  refine ⟨fun k j => ?_, fun k j v => ?_⟩
  · have hf := h.free_iff k j
    dsimp only
    rw [Store.store_tail]
    rcases s.store.store_slot_cases a.key (idx + i) (a.first + i) k j with
      ⟨hslot, -⟩ | ⟨hslot, rfl, rfl⟩
    · rw [hslot]
      exact hf
    · rw [hmine] at hf
      rw [hslot, ← hf]
      exact iff_of_false (fun heq => by cases heq) fun heq => by cases heq
  · have hres := h.reserved_iff k j v
    rw [exists_or_ne s.writers w (·.Owes k j v), hw] at hres
    rw [exists_update s.writers w x (·.Owes k j v), ho]
    rcases s.store.store_slot_cases a.key (idx + i) (a.first + i) k j with
      ⟨hslot, hne⟩ | ⟨hslot, rfl, rfl⟩
    · rw [hslot, hres]
      refine or_congr ⟨?_, ?_⟩ Iff.rfl
      · rintro ⟨rfl, m, h1, h2, rfl, rfl⟩
        have hm : m ≠ i := fun hm => hne ⟨rfl, congrArg _ hm⟩
        exact ⟨rfl, m, by omega, h2, rfl, rfl⟩
      · rintro ⟨rfl, m, h1, h2, rfl, rfl⟩
        exact ⟨rfl, m, by omega, h2, rfl, rfl⟩
    · rw [hslot]
      refine iff_of_false (fun heq => by cases heq) ?_
      rintro (⟨-, m, h1, h2, h3, -⟩ | ⟨u, hu, howes⟩)
      · omega
      · have heq := (h.reserved_iff _ _ _).mpr ⟨u, howes⟩
        rw [hmine] at heq
        injection heq with heq
        subst heq
        exact hu (hone u _ _ _ howes ((hw _ _ _).mpr ⟨rfl, i, Nat.le_refl i, hi, rfl, rfl⟩))

theorem slotsOwed_step {s s' : System ω} (hi : IdsTiled s) (ha : InOrder s)
    (h : SlotsOwed s) (hs : Step s s') : SlotsOwed s' := by
  cases hs with
  | request w b hw =>
    exact slotsOwed_same h (fun _ => ⟨rfl, rfl⟩) (by rw [hw]; exact fun _ _ _ => Iff.rfl)
  | publish w b start offset n hw hr =>
    exact slotsOwed_same h (fun _ => ⟨rfl, rfl⟩) (by rw [hw]; exact fun _ _ _ => Iff.rfl)
  | run w st x hw =>
    rcases Writer.step_lists hw with ⟨b, start, offset, n, a, todo, hx, rfl, rfl⟩ |
      ⟨b, start, offset, n, a, idx, i, todo, hx, rfl, rfl⟩ | ⟨hl, ho, -⟩
    · exact slotsOwed_reserve h (by rw [hx]; exact fun _ _ _ hno => hno)
        (Writer.entry_owes b start offset n todo a _ 0)
    · refine slotsOwed_store h ((ha w).inRange (.store a idx i) (by rw [hx]; rfl))
        (by rw [hx]; exact fun _ _ _ => Iff.rfl)
        (Writer.entry_owes b start offset n todo a idx (i + 1)) fun u k j v hu hw' => ?_
      exact entries_unique hi (Writer.owes_mem (ha u).ahead hu) (Writer.owes_mem (ha w).ahead hw')
    · exact slotsOwed_same h hl ho

omit [DecidableEq ω] in
/-- A step that changes no value and places nothing. -/
theorem slotsPlaced_same {s s' : System ω} (h : SlotsPlaced s)
    (hv : ∀ k j, ((s'.store.lists k).slots j).value = ((s.store.lists k).slots j).value)
    (hp : ∀ p, s'.Placed p ↔ s.Placed p) : SlotsPlaced s' := by
  refine ⟨fun k v => ?_, fun k j j' v => ?_⟩
  · simp only [hv, hp]
    exact h.value_iff k v
  · rw [hv, hv]
    exact h.unique k j j' v

theorem placed_update {s : System ω} {st : Store} {w : ω} {x : Writer}
    (hf : st.filters = s.store.filters) (p : Entry) :
    Placed ⟨st, Function.update s.writers w x, s.ended⟩ p ↔
      (∃ e ∈ s.ended, p ∈ entriesOf s.store.filters e.ops) ∨ x.Placed s.store.filters p ∨
        ∃ v, v ≠ w ∧ (s.writers v).Placed s.store.filters p := by
  rw [Placed, hf, exists_update s.writers w x (·.Placed s.store.filters p)]

theorem placed_same {s : System ω} {st : Store} {w : ω} {x : Writer}
    (hf : st.filters = s.store.filters)
    (hx : ∀ p, x.Placed s.store.filters p ↔ (s.writers w).Placed s.store.filters p) (p : Entry) :
    Placed ⟨st, Function.update s.writers w x, s.ended⟩ p ↔ s.Placed p := by
  rw [placed_update hf, hx, ← exists_or_ne s.writers w (·.Placed s.store.filters p)]
  exact Iff.rfl

omit [DecidableEq ω] in
/-- The `fetch_add` of an append whose entries have no slot yet. -/
theorem slotsPlaced_reserve {s s' : System ω} (ho : SlotsOwed s) (h : SlotsPlaced s) {a : Append}
    (hst : s'.store.lists = (s.store.updateList a.key (·.reserve a)).lists)
    (hp : ∀ p, s'.Placed p ↔ s.Placed p ∨ p ∈ a.entries)
    (hfresh : ∀ p ∈ a.entries, ¬ s.Placed p) : SlotsPlaced s' := by
  have hbelow : ∀ j v, ((s.store.lists a.key).slots j).value = some v →
      j < (s.store.lists a.key).tail := by
    intro j v hj
    by_contra hlt
    rw [(ho.free_iff a.key j).mpr (Nat.le_of_not_lt hlt)] at hj
    cases hj
  -- a slot below the old tail keeps its value, the next `count` get the append's entries
  have hval : ∀ k j v, ((s'.store.lists k).slots j).value = some v ↔
      ((s.store.lists k).slots j).value = some v ∨
        a.Covers (s.store.lists a.key).tail 0 k j v := by
    intro k j v
    rw [hst]
    rcases s.store.reserve_slot_cases a k j with ⟨hslot, -, hc⟩ | ⟨v', hslot, -, hc⟩
    · rw [hslot]
      exact ⟨.inl, fun hor => hor.resolve_right (hc v)⟩
    · rw [hslot]
      constructor
      · intro heq
        injection heq with heq
        exact .inr (heq ▸ hc)
      · rintro (hold | hc')
        · obtain ⟨rfl, hj, -⟩ := Append.covers_zero.mp hc
          have := hbelow j v hold
          omega
        · rw [hc.value_eq hc']
          rfl
  refine ⟨fun k v => ?_, fun k j j' v hj hj' => ?_⟩
  · simp only [hval, hp, exists_or]
    refine or_congr (h.value_iff k v) ⟨fun ⟨_, hc⟩ => hc.mem_entries, fun hin => ?_⟩
    obtain ⟨rfl, m, hm, rfl⟩ := Append.mem_entries.mp hin
    exact ⟨_, rfl, m, Nat.zero_le m, hm, rfl, rfl⟩
  · rcases (hval k j v).mp hj with hj | hj <;> rcases (hval k j' v).mp hj' with hj' | hj'
    · exact h.unique k j j' v hj hj'
    · exact absurd ((h.value_iff k v).mp ⟨j, hj⟩) (hfresh _ hj'.mem_entries)
    · exact absurd ((h.value_iff k v).mp ⟨j', hj'⟩) (hfresh _ hj.mem_entries)
    · obtain ⟨-, m, -, -, rfl, rfl⟩ := hj
      obtain ⟨-, m', -, -, rfl, heq⟩ := hj'
      omega

omit [DecidableEq ω] in
/-- The entries of an append before its `fetch_add` are not placed. -/
theorem reserve_fresh {s : System ω} (hi : IdsTiled s) (ha : InOrder s) {w : ω} {b : Burst}
    {start offset n : Nat} {a : Append} {todo : List Op}
    (hx : s.writers w = .running b start offset n (some (.reserve a)) todo) :
    ∀ p ∈ a.entries, ¬ s.Placed p := by
  rintro ⟨k, v⟩ hp hplaced
  have hin : (k, v) ∈ (s.writers w).entries s.store.filters := by
    refine (ha w).ahead.subset ?_
    rw [hx]
    exact List.mem_append_left _ hp
  rcases hplaced with ⟨e, he, hpe⟩ | ⟨u, hu⟩
  · exact entries_not_ended hi he hpe hin
  · obtain rfl := entries_unique hi hu.1 hin
    refine hu.2 ?_
    rw [hx]
    exact List.mem_append_left _ hp

theorem slotsPlaced_step {s s' : System ω} (hi : IdsTiled s) (ha : InOrder s) (ho : SlotsOwed s)
    (h : SlotsPlaced s) (hs : Step s s') : SlotsPlaced s' := by
  cases hs with
  | request w b hw =>
    refine slotsPlaced_same h (fun _ _ => rfl) (placed_same rfl fun p => ?_)
    rw [hw]
    exact Iff.rfl
  | publish w b start offset n hw hr =>
    refine slotsPlaced_same h (fun _ _ => rfl) fun p => ?_
    have hmine : (s.writers w).Placed s.store.filters p ↔
        p ∈ entriesOf s.store.filters (burstOps b start offset n) := by
      simp [hw, Writer.Placed, Writer.entries, Writer.ops, Writer.rest]
    have hidle : ¬ Writer.idle.Placed s.store.filters p := fun hp => by cases hp.1
    rw [Placed, exists_update s.writers w .idle (·.Placed _ p), Placed,
      exists_or_ne s.writers w (·.Placed _ p), hmine]
    simp [Store.endBlock, hidle, Ended.ops, or_and_right, exists_or, or_assoc]
  | run w st x hw =>
    rcases Writer.step_lists hw with ⟨b, start, offset, n, a, todo, hx, rfl, rfl⟩ |
      ⟨b, start, offset, n, a, idx, i, todo, hx, rfl, rfl⟩ | ⟨hl, -, hp⟩
    · refine slotsPlaced_reserve (a := a) ho h rfl (fun p => ?_) (reserve_fresh hi ha hx)
      have hself := ha w
      rw [hx] at hself
      refine (placed_update (s := s) rfl p).trans ?_
      rw [Writer.placed_reserve hself, ← hx, Placed,
        exists_or_ne s.writers w (·.Placed s.store.filters p), or_right_comm, ← or_assoc]
    · have hmine : (s.store.lists a.key).slots (idx + i) = .reserved (a.first + i) := by
        refine (ho.reserved_iff _ _ _).mpr ⟨w, ?_⟩
        rw [hx]
        exact ⟨rfl, i, Nat.le_refl i, (ha w).inRange (.store a idx i) (by rw [hx]; rfl), rfl, rfl⟩
      refine slotsPlaced_same h (fun k j => ?_) (placed_same rfl fun p => ?_)
      · dsimp only
        rcases s.store.store_slot_cases a.key (idx + i) (a.first + i) k j with
          ⟨hslot, -⟩ | ⟨hslot, rfl, rfl⟩
        · rw [hslot]
        · rw [hslot, hmine]
          rfl
      · rw [hx, Writer.Placed, Writer.Placed, Writer.rest, Writer.entry_rest]
        exact Iff.rfl
    · refine slotsPlaced_same h (fun k j => ?_) (placed_same (Writer.step_ids hw).1.filters hp)
      rw [(hl k).1]

theorem inOrder_reached {numFilters : Nat} {filters : Nat → List PacketFilter} {s : System ω}
    (h : Reached numFilters filters s) : InOrder s := by
  induction h with
  | refl => exact inOrder_init numFilters filters
  | tail _ hs ih => exact inOrder_step ih hs

theorem slotsOwed_reached {numFilters : Nat} {filters : Nat → List PacketFilter} {s : System ω}
    (h : Reached numFilters filters s) : SlotsOwed s := by
  induction h with
  | refl => exact slotsOwed_init numFilters filters
  | tail hr hs ih => exact slotsOwed_step (idsTiled_reached hr) (inOrder_reached hr) ih hs

theorem slotsPlaced_reached {numFilters : Nat} {filters : Nat → List PacketFilter} {s : System ω}
    (h : Reached numFilters filters s) : SlotsPlaced s := by
  induction h with
  | refl => exact slotsPlaced_init numFilters filters
  | tail hr hs ih =>
    exact slotsPlaced_step (idsTiled_reached hr) (inOrder_reached hr) (slotsOwed_reached hr) ih hs

/-- The invariants of the ids, the entries and the slots. -/
structure SlotsKept (s : System ω) : Prop where
  ids : IdsTiled s
  order : InOrder s
  owed : SlotsOwed s
  placed : SlotsPlaced s

omit [DecidableEq ω] in
theorem slotsKept_init (numFilters : Nat) (filters : Nat → List PacketFilter) :
    SlotsKept (init numFilters filters : System ω) :=
  ⟨idsTiled_init _ _, inOrder_init _ _, slotsOwed_init _ _, slotsPlaced_init _ _⟩

theorem slotsKept_step {s s' : System ω} (h : SlotsKept s) (hs : Step s s') : SlotsKept s' :=
  ⟨idsTiled_step h.ids hs, inOrder_step h.order hs, slotsOwed_step h.ids h.order h.owed hs,
    slotsPlaced_step h.ids h.order h.owed h.placed hs⟩

theorem slotsKept_reached {numFilters : Nat} {filters : Nat → List PacketFilter} {s : System ω}
    (h : Reached numFilters filters s) : SlotsKept s :=
  ⟨idsTiled_reached h, inOrder_reached h, slotsOwed_reached h, slotsPlaced_reached h⟩

end System

end Netplay
