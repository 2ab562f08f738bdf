import Netplay.CountHistory
import Netplay.NetplayWriter

/-!
# Lists without entries

A writer creates a list in front of its first entry. Only `push_back_range` of an empty burst leaves
the list without one: the list of the second in which a receive came back empty.
-/

namespace Netplay

open Packet NetplayUtils

/-- The append has an entry, or it is the one of an empty burst. -/
def Burst.Supplies (b : Burst) (a : Append) : Prop :=
  0 < a.count ∨ (b.pkts = [] ∧ a.key = .index timestampIdx b.now.toNat)

namespace Writer

/-- The append in progress and those to come are supplied. -/
def Supplied : Writer → Prop
  | .running b _ _ _ cur todo =>
    (∀ c, cur = some c → b.Supplies c.append) ∧ ∀ a, .append a ∈ todo → b.Supplies a
  | _ => True

theorem supplies_burstOps (b : Burst) (start offset n : Nat) {a : Append}
    (h : .append a ∈ burstOps b start offset n) : b.Supplies a := by
  rcases List.mem_cons.mp h with h | h
  · cases h
    by_cases hb : b.pkts = []
    · exact .inr ⟨hb, rfl⟩
    · exact .inl (List.length_pos_iff.mpr hb)
  · rw [Burst.Supplies, loopOps_count _ _ _ _ _ a h]
    exact .inl Nat.zero_lt_one

theorem supplied_step {st st' : Store} {x x' : Writer} (h : x.step st = some (st', x'))
    (hx : x.Supplied) : x'.Supplied := by
  rcases step_cases h with ⟨b, start, rfl, -, -, rfl⟩ | ⟨b, start, offset, rfl, -, rfl⟩ |
    ⟨b, start, offset, n, c, todo, rfl, -, rfl⟩ | ⟨b, start, offset, n, op, todo, rfl, -, rfl⟩
  · trivial
  · exact ⟨nofun, fun a ha => supplies_burstOps b start offset _ ha⟩
  · refine ⟨fun c' hc => ?_, hx.2⟩
    rw [stepAppend_append hc]
    exact hx.1 c rfl
  · refine ⟨fun c hc => ?_, fun a ha => hx.2 a (List.mem_cons_of_mem _ ha)⟩
    cases op with
    | append a =>
      cases hc
      exact hx.2 a List.mem_cons_self
    | character ch second id pkt =>
      simp only [Store.stepOp] at hc
      split at hc
      · cases hc
        exact .inl Nat.zero_lt_one
      · cases hc
    | _ => cases hc

end Writer

namespace System

variable {ω : Type}

/-- The list is the one of the second of an empty burst, which is in flight or has ended. -/
def Blank (s : System ω) (k : ListKey) : Prop :=
  ∃ b : Burst, b.pkts = [] ∧ k = .index timestampIdx b.now.toNat ∧
    ((∃ w, (s.writers w).burst = some b) ∨ ∃ e ∈ s.ended, e.burst = b)

/-- A list that was created has an entry, or belongs to an empty burst, or a writer is about to take
its slots. -/
structure Fed (s : System ω) : Prop where
  writers : ∀ w, (s.writers w).Supplied
  lists : ∀ k, (s.store.lists k).created = true → 0 < (s.store.lists k).tail ∨ s.Blank k ∨
    ∃ w a, (s.writers w).cur = some (.reserve a) ∧ a.key = k

theorem fed_init (numFilters : Nat) (filters : Nat → List PacketFilter) :
    Fed (init numFilters filters : System ω) :=
  ⟨fun _ => trivial, fun k hk => by cases hk⟩

variable [DecidableEq ω] {s : System ω}

theorem supplied_update (h : ∀ w, (s.writers w).Supplied) {w : ω} {x : Writer} (hx : x.Supplied)
    (v : ω) : (Function.update s.writers w x v).Supplied := by
  by_cases hv : v = w
  · subst hv
    rwa [Function.update_self]
  · rw [Function.update_of_ne hv]
    exact h v

/-- A writer that stays with its burst, or ends it. -/
theorem Blank.update {k : ListKey} (h : s.Blank k) {w : ω} {x : Writer} (st : Store)
    (es : List Ended)
    (hx : ∀ b, (s.writers w).burst = some b → x.burst = some b ∨ ∃ e ∈ es, e.burst = b) :
    Blank ⟨st, Function.update s.writers w x, s.ended ++ es⟩ k := by
  obtain ⟨b, hb, hk, hin⟩ := h
  refine ⟨b, hb, hk, ?_⟩
  rcases hin with ⟨v, hv⟩ | ⟨e, he, heb⟩
  · by_cases hvw : v = w
    · subst hvw
      rcases hx b hv with hx | ⟨e, he, heb⟩
      · refine .inl ⟨v, ?_⟩
        dsimp only
        rwa [Function.update_self]
      · exact .inr ⟨e, List.mem_append_right _ he, heb⟩
    · refine .inl ⟨v, ?_⟩
      dsimp only
      rwa [Function.update_of_ne hvw]
  · exact .inr ⟨e, List.mem_append_left _ he, heb⟩

/-- A step that leaves the lists as they are. -/
theorem fed_same (h : Fed s) {w : ω} {x : Writer} {st : Store} (es : List Ended)
    (hlists : ∀ k, (st.lists k).created = (s.store.lists k).created ∧
      (st.lists k).tail = (s.store.lists k).tail)
    (hx : x.Supplied) (hcur : ∀ a, (s.writers w).cur ≠ some (.reserve a))
    (hburst : ∀ b, (s.writers w).burst = some b → x.burst = some b ∨ ∃ e ∈ es, e.burst = b) :
    Fed ⟨st, Function.update s.writers w x, s.ended ++ es⟩ := by
  refine ⟨supplied_update h.writers hx, fun k hk => ?_⟩
  dsimp only at hk ⊢
  rw [(hlists k).1] at hk
  rw [(hlists k).2]
  refine (h.lists k hk).imp_right fun hb => hb.imp (fun hb => hb.update st es hburst) ?_
  rintro ⟨v, a, hv, ha⟩
  refine ⟨v, a, ?_, ha⟩
  by_cases hvw : v = w
  · subst hvw
    exact absurd hv (hcur a)
  · rwa [Function.update_of_ne hvw]

/-- A writer that stays in its call, or begins one. -/
theorem fed_stay (h : Fed s) {w : ω} {x : Writer} {st : Store}
    (hlists : ∀ k, (st.lists k).created = (s.store.lists k).created ∧
      (st.lists k).tail = (s.store.lists k).tail)
    (hx : x.Supplied) (hcur : ∀ a, (s.writers w).cur ≠ some (.reserve a))
    (hburst : ∀ b, (s.writers w).burst = some b → x.burst = some b) :
    Fed ⟨st, Function.update s.writers w x, s.ended⟩ := by
  have hfed := fed_same h [] hlists hx hcur fun b hb => .inl (hburst b hb)
  rwa [List.append_nil] at hfed

theorem updateList_kept (st : Store) (a : Append) {f : EntryList → EntryList}
    (hf : ∀ l, (f l).created = l.created ∧ (f l).tail = l.tail) (k : ListKey) :
    ((st.updateList a.key f).lists k).created = (st.lists k).created ∧
      ((st.updateList a.key f).lists k).tail = (st.lists k).tail := by
  by_cases hk : k = a.key
  · subst hk
    rw [Store.updateList_self]
    exact hf _
  · rw [Store.updateList_other _ hk]
    exact ⟨rfl, rfl⟩

/-- A step that changes one list. -/
theorem fed_changed (h : Fed s) {w : ω} {x : Writer} {a : Append} {f : EntryList → EntryList}
    (hx : x.Supplied) (hcur : ∀ a', (s.writers w).cur = some (.reserve a') → a' = a)
    (hburst : ∀ b, (s.writers w).burst = some b → x.burst = some b)
    (hkey : 0 < (f (s.store.lists a.key)).tail ∨ s.Blank a.key ∨ x.cur = some (.reserve a)) :
    Fed ⟨s.store.updateList a.key f, Function.update s.writers w x, s.ended⟩ := by
  have hblank : ∀ k, s.Blank k →
      Blank ⟨s.store.updateList a.key f, Function.update s.writers w x, s.ended⟩ k := by
    intro k hk
    have hb := hk.update (s.store.updateList a.key f) [] fun b hb => .inl (hburst b hb)
    rwa [List.append_nil] at hb
  refine ⟨supplied_update h.writers hx, fun k hk => ?_⟩
  dsimp only at hk ⊢
  by_cases hka : k = a.key
  · subst hka
    rw [Store.updateList_self]
    refine hkey.imp_right fun hb => hb.imp (hblank _) fun hx => ⟨w, a, ?_, rfl⟩
    rwa [Function.update_self]
  · rw [Store.updateList_other _ hka] at hk ⊢
    refine (h.lists k hk).imp_right fun hb => hb.imp (hblank k) ?_
    rintro ⟨v, a', hv, ha⟩
    refine ⟨v, a', ?_, ha⟩
    by_cases hvw : v = w
    · subst hvw
      obtain rfl := hcur a' hv
      exact absurd ha.symm hka
    · rwa [Function.update_of_ne hvw]

/-- A step of the append in progress. -/
theorem fed_append (h : Fed s) {w : ω} {b : Burst} {start offset n : Nat} {c : Appending}
    {todo : List Op} (hw : s.writers w = .running b start offset n (some c) todo)
    (hx : (Writer.running b start offset n (s.store.stepAppend c).2 todo).Supplied) :
    Fed ⟨(s.store.stepAppend c).1, Function.update s.writers w
      (.running b start offset n (s.store.stepAppend c).2 todo), s.ended⟩ := by
  have hburst : (s.writers w).burst = some b := by
    rw [hw]
    rfl
  have hstays : ∀ b', (s.writers w).burst = some b' → some b = some b' := fun b' hb' =>
    hburst.symm.trans hb'
  have hcur : ∀ a, (s.writers w).cur = some (.reserve a) → c = .reserve a := by
    intro a ha
    rw [hw] at ha
    exact Option.some.inj ha
  cases c with
  | get a => exact fed_changed h hx (fun a' ha' => nomatch hcur a' ha') hstays (.inr (.inr rfl))
  | reserve a =>
    have hsup : (Writer.running b start offset n (some (.reserve a)) todo).Supplied := by
      rw [← hw]
      exact h.writers w
    refine fed_changed (f := (·.reserve a)) h hx (fun a' ha' => ?_) hstays ?_
    · cases hcur a' ha'
      rfl
    · rcases hsup.1 (.reserve a) rfl with hpos | ⟨hempty, hkey⟩
      · exact .inl (Nat.add_pos_right _ hpos)
      · exact .inr (.inl ⟨b, hempty, hkey, .inl ⟨w, hburst⟩⟩)
  | allocate a idx i =>
    have hkept := updateList_kept s.store a (f := (·.allocate (idx + i))) fun l => ⟨rfl, rfl⟩
    exact fed_stay h hkept hx (fun a' ha' => nomatch hcur a' ha') hstays
  | store a idx i =>
    have hkept := updateList_kept s.store a (f := (·.store (idx + i) (a.first + i))) fun l =>
      ⟨rfl, rfl⟩
    exact fed_stay h hkept hx (fun a' ha' => nomatch hcur a' ha') hstays

theorem fed_step {s' : System ω} (h : Fed s) (hs : Step s s') : Fed s' := by
  cases hs with
  | request w b hw =>
    refine fed_stay h (fun k => ⟨rfl, rfl⟩) trivial (fun a ha => ?_) fun b' hb' => ?_
    · rw [hw] at ha
      cases ha
    · rw [hw] at hb'
      cases hb'
  | publish w b start offset n hw hr =>
    refine fed_same h _ (fun k => ⟨rfl, rfl⟩) trivial (fun a ha => ?_) fun b' hb' => .inr ?_
    · rw [hw] at ha
      cases ha
    · rw [hw] at hb'
      cases hb'
      exact ⟨_, List.mem_singleton_self _, rfl⟩
  | run w st x hstep =>
    have hx := Writer.supplied_step hstep (h.writers w)
    have hburst : ∀ b, (s.writers w).burst = some b → x.burst = some b := by
      intro b hb
      rwa [Writer.step_burst hstep]
    have hstay : (s.writers w).cur = none → (∀ k, st.lists k = s.store.lists k) →
        Fed ⟨st, Function.update s.writers w x, s.ended⟩ := by
      intro hcur hlists
      refine fed_stay h (fun k => ?_) hx (fun a ha => ?_) hburst
      · rw [hlists k]
        exact ⟨rfl, rfl⟩
      · rw [hcur] at ha
        cases ha
    rcases Writer.step_cases hstep with ⟨b, start, hw, -, rfl, rfl⟩ |
      ⟨b, start, offset, hw, rfl, rfl⟩ | ⟨b, start, offset, n, c, todo, hw, rfl, rfl⟩ |
      ⟨b, start, offset, n, op, todo, hw, rfl, rfl⟩
    · exact hstay (by rw [hw]; rfl) fun k => rfl
    · exact hstay (by rw [hw]; rfl) fun k => rfl
    · exact fed_append h hw hx
    · exact hstay (by rw [hw]; rfl) fun k => by cases op <;> rfl

theorem fed_reached {numFilters : Nat} {filters : Nat → List PacketFilter}
    (h : Reached numFilters filters s) : Fed s := by
  induction h with
  | refl => exact fed_init numFilters filters
  | tail _ hs ih => exact fed_step ih hs

omit [DecidableEq ω] in
/-- Without calls in flight only the list of the second of an empty burst can be empty. -/
theorem Fed.quiescent (h : Fed s) (hq : s.Quiescent) {k : ListKey}
    (hk : (s.store.lists k).created = true) : 0 < (s.store.lists k).tail ∨
      ∃ e ∈ s.ended, e.burst.pkts = [] ∧ k = .index timestampIdx e.burst.now.toNat := by
  rcases h.lists k hk with hpos | ⟨b, hb, hkey, ⟨w, hw⟩ | ⟨e, he, rfl⟩⟩ | ⟨w, a, hw, -⟩
  · exact .inl hpos
  · rw [hq w] at hw
    cases hw
  · exact .inr ⟨e, he, hb, hkey⟩
  · rw [hq w] at hw
    cases hw

end System

end Netplay
