import Netplay.EntrySlots

/-!
# Lists only grow

A list once created stays, its tail does not decrease, and an entry once stored
stays in its slot.
-/

namespace Netplay

open Packet NetplayUtils BlockTail

theorem Append.entry_ne_reserve (a : Append) (idx i : Nat) (a' : Append) :
    a.entry idx i ≠ some (.reserve a') := by
  rw [Append.entry]
  split <;> simp

/-- A step of an append creates and extends its own list only, and extends it where
it reserves. -/
theorem Store.stepAppend_lists (st : Store) (c : Appending) (k : ListKey) :
    ((st.lists k).created = true → ((st.stepAppend c).1.lists k).created = true) ∧
      (st.lists k).tail ≤ ((st.stepAppend c).1.lists k).tail ∧
      ((st.lists k).tail < ((st.stepAppend c).1.lists k).tail →
        c = .reserve c.append ∧ k = c.append.key) := by
  by_cases hk : k = c.append.key
  · subst hk
    cases c with
    | get a => simp [Store.stepAppend, EntryList.create, Appending.append]
    | reserve a => simp [Store.stepAppend, EntryList.reserve, Appending.append]
    | allocate a idx i => simp [Store.stepAppend, EntryList.allocate, Appending.append]
    | store a idx i => simp [Store.stepAppend, EntryList.store, Appending.append]
  · have hsame : (st.stepAppend c).1.lists k = st.lists k := by
      cases c with
      | get a => exact st.updateList_other hk .create
      | reserve a => exact st.updateList_other hk (·.reserve a)
      | allocate a idx i => exact st.updateList_other hk (·.allocate (idx + i))
      | store a idx i => exact st.updateList_other hk (·.store (idx + i) (a.first + i))
    rw [hsame]
    exact ⟨id, Nat.le_refl _, fun h => absurd h (Nat.lt_irrefl _)⟩

namespace System

variable {ω : Type} [DecidableEq ω]

theorem lists_grow {s s' : System ω} (hs : Step s s') (k : ListKey) :
    ((s.store.lists k).created = true → (s'.store.lists k).created = true) ∧
      (s.store.lists k).tail ≤ (s'.store.lists k).tail := by
  cases hs with
  | request w b hw => exact ⟨id, Nat.le_refl _⟩
  | publish w b start offset n hw hr => exact ⟨id, Nat.le_refl _⟩
  | run w st x hw =>
    rcases Writer.step_cases hw with ⟨b, start, -, -, rfl, -⟩ | ⟨b, start, offset, -, rfl, -⟩ |
      ⟨b, start, offset, n, c, todo, -, rfl, -⟩ | ⟨b, start, offset, n, op, todo, -, rfl, -⟩
    · exact ⟨id, Nat.le_refl _⟩
    · exact ⟨id, Nat.le_refl _⟩
    · exact ⟨(s.store.stepAppend_lists c k).1, (s.store.stepAppend_lists c k).2.1⟩
    · cases op <;> exact ⟨id, Nat.le_refl _⟩

/-- A stored entry stays where it is. -/
theorem stored_of_step {s s' : System ω} (ha : InOrder s) (ho : SlotsOwed s) (hs : Step s s')
    {k : ListKey} {j v : Nat} (h : (s.store.lists k).slots j = .stored v) :
    (s'.store.lists k).slots j = .stored v := by
  cases hs with
  | request w b hw => exact h
  | publish w b start offset n hw hr => exact h
  | run w st x hw =>
    rcases Writer.step_lists hw with ⟨b, start, offset, n, a, todo, hx, rfl, -⟩ |
      ⟨b, start, offset, n, a, idx, i, todo, hx, rfl, -⟩ | ⟨hl, -, -⟩
    · rcases s.store.reserve_slot_cases a k j with ⟨hslot, -⟩ | ⟨v', -, -, hc⟩
      · rw [hslot, h]
      · -- no value was stored from the tail on
        obtain ⟨rfl, hj, -⟩ := Append.covers_zero.mp hc
        rw [(ho.free_iff a.key j).mpr hj.1] at h
        cases h
    · rcases s.store.store_slot_cases a.key (idx + i) (a.first + i) k j with
        ⟨hslot, -⟩ | ⟨-, rfl, rfl⟩
      · rw [hslot, h]
      · have hres := (ho.reserved_iff a.key (idx + i) (a.first + i)).mpr ⟨w, by
          rw [hx]
          exact ⟨rfl, i, Nat.le_refl i, (ha w).inRange (.store a idx i) (by rw [hx]; rfl), rfl,
            rfl⟩⟩
        rw [hres] at h
        cases h
    · rw [(hl k).1, h]

/-- Only lists that were created have entries; a writer creates its list before it
takes a slot. -/
structure ListsCreated (s : System ω) : Prop where
  tail : ∀ k, (s.store.lists k).created = false → (s.store.lists k).tail = 0
  reserve : ∀ w a, (s.writers w).cur = some (.reserve a) → (s.store.lists a.key).created = true

omit [DecidableEq ω] in
theorem listsCreated_init (numFilters : Nat) (filters : Nat → List PacketFilter) :
    ListsCreated (init numFilters filters : System ω) :=
  ⟨fun _ _ => rfl, fun _ _ h => by cases h⟩

/-- A step that leaves the lists as they are. -/
theorem listsCreated_same {s : System ω} (h : ListsCreated s) {st : Store} {es : List Ended}
    {w : ω} {x : Writer} (hl : st.lists = s.store.lists) (hx : ∀ a, x.cur ≠ some (.reserve a)) :
    ListsCreated ⟨st, Function.update s.writers w x, es⟩ := by
  refine ⟨fun k hk => ?_, fun v a hv => ?_⟩
  · dsimp only at hk ⊢
    rw [hl] at hk ⊢
    exact h.tail k hk
  · dsimp only at hv ⊢
    rw [hl]
    by_cases hvw : v = w
    · subst hvw
      rw [Function.update_self] at hv
      exact absurd hv (hx a)
    · rw [Function.update_of_ne hvw] at hv
      exact h.reserve v a hv

theorem listsCreated_append {s : System ω} (h : ListsCreated s) {w : ω} {b : Burst}
    {start offset n : Nat} {c : Appending} {todo : List Op}
    (hw : (s.writers w).cur = some c) : ListsCreated { s with
      store := (s.store.stepAppend c).1
      writers := Function.update s.writers w
        (.running b start offset n (s.store.stepAppend c).2 todo) } := by
  refine ⟨fun k hk => ?_, fun v a hv => ?_⟩
  · have hlists := s.store.stepAppend_lists c k
    have hfalse : (s.store.lists k).created = false := by
      by_contra hne
      have := hlists.1 (by simpa using hne)
      dsimp only at hk
      rw [hk] at this
      cases this
    have h0 := h.tail k hfalse
    by_contra hpos
    obtain ⟨hres, hkey⟩ := hlists.2.2 (by dsimp only at hpos; omega)
    rw [hres] at hw
    rw [hkey, h.reserve w _ hw] at hfalse
    cases hfalse
  · dsimp only at hv ⊢
    by_cases hvw : v = w
    · subst hvw
      rw [Function.update_self] at hv
      cases c with
      | get a' =>
        cases hv
        simp [Store.stepAppend, EntryList.create]
      | reserve a' =>
        exact absurd hv (Append.entry_ne_reserve a' _ _ a)
      | allocate a' idx i => cases hv
      | store a' idx i => exact absurd hv (Append.entry_ne_reserve a' _ _ a)
    · rw [Function.update_of_ne hvw] at hv
      exact (s.store.stepAppend_lists c a.key).1 (h.reserve v a hv)

theorem listsCreated_step {s s' : System ω} (h : ListsCreated s) (hs : Step s s') :
    ListsCreated s' := by
  cases hs with
  | request w b hw => exact listsCreated_same h rfl fun a hc => by cases hc
  | publish w b start offset n hw hr => exact listsCreated_same h rfl fun a hc => by cases hc
  | run w st x hw =>
    rcases Writer.step_cases hw with ⟨b, start, hx, -, rfl, rfl⟩ |
      ⟨b, start, offset, hx, rfl, rfl⟩ | ⟨b, start, offset, n, c, todo, hx, rfl, rfl⟩ |
      ⟨b, start, offset, n, op, todo, hx, rfl, rfl⟩
    · exact listsCreated_same h rfl fun a hc => by cases hc
    · exact listsCreated_same h rfl fun a hc => by cases hc
    · exact listsCreated_append h (by rw [hx]; rfl)
    · refine listsCreated_same h (by cases op <;> rfl) fun a hc => ?_
      rw [Writer.cur, s.store.stepOp_snd] at hc
      cases hop : op.appended s.store.filters with
      | none => simp [hop] at hc
      | some a' => simp [hop] at hc

theorem listsCreated_reached {numFilters : Nat} {filters : Nat → List PacketFilter} {s : System ω}
    (h : Reached numFilters filters s) : ListsCreated s := by
  induction h with
  | refl => exact listsCreated_init numFilters filters
  | tail _ hs ih => exact listsCreated_step ih hs

end System

end Netplay
