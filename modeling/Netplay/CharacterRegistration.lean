import Mathlib.Data.List.Chain
import Netplay.CharacterHistory

/-!
# Registration among writers

`add_complex_character` as its two steps, the `fetch_add` on `num_filters_` and
the assignment to `filters_`, among the atomic steps of the writers. A burst
that loads the counter between the two finds no filter in the new character.
-/

namespace Netplay

open Packet NetplayUtils

/-- Where a thread stands in `add_complex_character`: it has its number, and the
filters are not assigned yet. -/
inductive Registrar where
  | idle : Registrar
  | numbered : (c : Nat) → List PacketFilter → Registrar

/-- The system with the threads that register characters, and the list passed to
the registration of each character, for the record. -/
structure Registering (ω ρ : Type) where
  system : System ω
  registrars : ρ → Registrar
  registered : Nat → Option (List PacketFilter)

/-- The system with something done to its store. -/
def System.onStore {ω : Type} (s : System ω) (f : Store → Store) : System ω :=
  { s with store := f s.store }

namespace Registering

variable {ω ρ : Type}

/-- No character is registered; `filters_` has empty lists. -/
def init : Registering ω ρ := ⟨.init 0 fun _ => [], fun _ => .idle, fun _ => none⟩

def numFilters (s : Registering ω ρ) : Nat := s.system.store.numFilters

variable [DecidableEq ρ]

/-- The `fetch_add`; the character is the old value. -/
def take (s : Registering ω ρ) (r : ρ) (filter : List PacketFilter) : Registering ω ρ where
  system := s.system.onStore (·.takeCharacter)
  registrars := Function.update s.registrars r (.numbered s.numFilters filter)
  registered := Function.update s.registered s.numFilters (some filter)

/-- The assignment of the list. -/
def assign (s : Registering ω ρ) (r : ρ) (c : Nat) (filter : List PacketFilter) :
    Registering ω ρ where
  system := s.system.onStore (·.setFilters c filter)
  registrars := Function.update s.registrars r .idle
  registered := s.registered

variable [DecidableEq ω]

/-- One atomic step of a writer or of a registration. -/
inductive Step : Registering ω ρ → Registering ω ρ → Prop where
  | insert (s : Registering ω ρ) (sys : System ω) (h : s.system.Step sys) :
      Step s { s with system := sys }
  | take (s : Registering ω ρ) (r : ρ) (filter : List PacketFilter)
      (hr : s.registrars r = .idle) (hroom : s.numFilters < maxFilters) : Step s (s.take r filter)
  | assign (s : Registering ω ρ) (r : ρ) (c : Nat) (filter : List PacketFilter)
      (hr : s.registrars r = .numbered c filter) : Step s (s.assign r c filter)

/-- By itself a registration is its two steps. -/
theorem addComplexCharacter_run (s : Registering ω ρ) {r : ρ} {filter : List PacketFilter}
    {st : Store} {c : Nat} (hr : s.registrars r = .idle)
    (h : s.system.store.addComplexCharacter filter = some (st, c)) :
    Relation.ReflTransGen Step s
      ⟨s.system.onStore fun _ => st, s.registrars, Function.update s.registered c (some filter)⟩ := by
  obtain ⟨hroom, rfl, rfl⟩ := Store.addComplexCharacter_eq h
  have hassign := Step.assign (s.take r filter) r s.numFilters filter (Function.update_self _ _ _)
  have hidle : Function.update (s.take r filter).registrars r .idle = s.registrars := by
    rw [take, Function.update_idem, ← hr, Function.update_eq_self]
  rw [assign, hidle] at hassign
  exact (Relation.ReflTransGen.single (.take s r filter hr hroom)).tail hassign

end Registering

/-! ## A writer on a store with other filters -/

def Store.withFilters (st : Store) (filters : Nat → List PacketFilter) : Store :=
  { st with filters := filters }

/-- The test of a packet against a character that the writer makes next. -/
def Writer.testing : Writer → Option (Nat × Memory)
  | .running _ _ _ _ none (.character c _ _ pkt :: _) => some (c, pkt)
  | _ => none

theorem Writer.testing_eq_some {x : Writer} {c : Nat} {pkt : Memory}
    (h : x.testing = some (c, pkt)) : ∃ b start offset n second id todo,
      x = .running b start offset n none (.character c second id pkt :: todo) := by
  unfold testing at h
  split at h
  · cases h
    exact ⟨_, _, _, _, _, _, _, rfl⟩
  · cases h

/-- Filters that judge the packet alike give the same step. -/
theorem Writer.step_withFilters {st st' : Store} {x x' : Writer}
    {filters : Nat → List PacketFilter} (h : x.step st = some (st', x'))
    (hf : ∀ c pkt, x.testing = some (c, pkt) →
      (filters c).any (·.applyPkt pkt) = (st.filters c).any (·.applyPkt pkt)) :
    x.step (st.withFilters filters) = some (st'.withFilters filters, x') := by
  rcases step_cases h with ⟨b, start, rfl, hcap, rfl, rfl⟩ | ⟨b, start, offset, rfl, rfl, rfl⟩ |
    ⟨b, start, offset, n, a, todo, rfl, rfl, rfl⟩ | ⟨b, start, offset, n, op, todo, rfl, rfl, rfl⟩
  · exact if_pos hcap
  · rfl
  · cases a <;> rfl
  · cases op with
    | character c second id pkt =>
      have heq : (st.withFilters filters).stepOp (.character c second id pkt) =
          ((st.stepOp (.character c second id pkt)).1.withFilters filters,
            (st.stepOp (.character c second id pkt)).2) := by
        rw [Store.stepOp, Store.stepOp, Store.withFilters, hf c pkt rfl]
      rw [step, heq]
    | _ => rfl

/-- A writer that tests a packet goes on to its next operation. -/
theorem Writer.testing_step {st st' : Store} {x x' : Writer} {test : Nat × Memory}
    (h : x.step st = some (st', x')) (ht : x.testing = some test) : x' ≠ x := by
  rcases step_cases h with ⟨b, start, rfl, -, rfl, rfl⟩ | ⟨b, start, offset, rfl, rfl, rfl⟩ |
    ⟨b, start, offset, n, a, todo, rfl, rfl, rfl⟩ | ⟨b, start, offset, n, op, todo, rfl, rfl, rfl⟩
  · cases ht
  · cases ht
  · cases ht
  · intro heq
    injection heq with _ _ _ _ _ htodo
    exact absurd htodo.symm (List.cons_ne_self _ _)

theorem System.step_withFilters {ω : Type} [DecidableEq ω] {s s' : System ω}
    {filters : Nat → List PacketFilter} (h : Step s s')
    (hf : ∀ w c pkt, (s.writers w).testing = some (c, pkt) → s'.writers w ≠ s.writers w →
      (filters c).any (·.applyPkt pkt) = (s.store.filters c).any (·.applyPkt pkt)) :
    Step (s.onStore (·.withFilters filters)) (s'.onStore (·.withFilters filters)) := by
  cases h with
  | request w b hw => exact .request (s.onStore (·.withFilters filters)) w b hw
  | publish w b start offset n hw hr =>
    exact .publish (s.onStore (·.withFilters filters)) w b start offset n hw hr
  | run w st x hw =>
    refine .run (s.onStore (·.withFilters filters)) w (st.withFilters filters) x ?_
    refine Writer.step_withFilters hw fun c pkt ht => hf w c pkt ht ?_
    dsimp only
    rw [Function.update_self]
    exact Writer.testing_step hw ht

/-! ## The characters of a burst -/

/-- The tests of a burst: each of its packets against each of the characters it knows. -/
theorem mem_loopOps_character {now n c second id : Nat} {pkt : Memory} (ms : List Mbuf) :
    ∀ start offset : Nat, .character c second id pkt ∈ loopOps now n start offset ms ↔
      ∃ i m, ms[i]? = some m ∧ second = now ∧ id = start + i ∧ pkt = m.data ∧ c < n := by
  induction ms with
  | nil => simp [loopOps]
  | cons m ms ih =>
    intro start offset
    have hhead : .character c second id pkt ∈ pktOps now n start offset m ↔
        second = now ∧ id = start ∧ pkt = m.data ∧ c < n := by
      simp only [pktOps, List.mem_append, List.mem_map, List.mem_cons, List.mem_range,
        reduceCtorEq, and_false, exists_false, List.not_mem_nil, or_false, false_or,
        Op.character.injEq]
      constructor
      · rintro ⟨c, hc, rfl, rfl, rfl, rfl⟩
        exact ⟨rfl, rfl, rfl, hc⟩
      · rintro ⟨rfl, rfl, rfl, hc⟩
        exact ⟨c, hc, rfl, rfl, rfl, rfl⟩
    rw [loopOps, List.mem_append, hhead, ih]
    constructor
    · rintro (⟨h1, h2, h3, h4⟩ | ⟨i, m', hm, h1, h2, h3, h4⟩)
      · exact ⟨0, m, rfl, h1, h2, h3, h4⟩
      · exact ⟨i + 1, m', hm, h1, by omega, h3, h4⟩
    · rintro ⟨i, m', hm, h1, h2, h3, h4⟩
      cases i with
      | zero =>
        cases hm
        exact .inl ⟨h1, h2, h3, h4⟩
      | succ i => exact .inr ⟨i, m', hm, h1, by omega, h3, h4⟩

theorem mem_burstOps_character {b : Burst} {start offset n c second id : Nat} {pkt : Memory} :
    .character c second id pkt ∈ burstOps b start offset n ↔ ∃ i m, b.pkts[i]? = some m ∧
      second = b.now.toNat ∧ id = start + i ∧ pkt = m.data ∧ c < n := by
  rw [burstOps, List.mem_cons, mem_loopOps_character]
  simp only [reduceCtorEq, false_or]

/-- The burst has loaded at most `n`, and its last operations are left. -/
def Writer.Below (num : Nat) : Writer → Prop
  | .running b start offset n _ todo => n ≤ num ∧ todo <:+ burstOps b start offset n
  | _ => True

theorem Writer.Below.mono {num num' : Nat} (hle : num ≤ num') {x : Writer} (h : x.Below num) :
    x.Below num' := by
  cases x with
  | running b start offset n cur todo => exact ⟨Nat.le_trans h.1 hle, h.2⟩
  | _ => trivial

theorem Writer.below_step {st st' : Store} {x x' : Writer} (h : x.step st = some (st', x'))
    (hx : x.Below st.numFilters) : x'.Below st.numFilters := by
  rcases step_cases h with ⟨b, start, rfl, -, rfl, rfl⟩ | ⟨b, start, offset, rfl, rfl, rfl⟩ |
    ⟨b, start, offset, n, a, todo, rfl, rfl, rfl⟩ | ⟨b, start, offset, n, op, todo, rfl, rfl, rfl⟩
  · trivial
  · exact ⟨Nat.le_refl _, List.suffix_refl _⟩
  · exact hx
  · exact ⟨hx.1, (List.suffix_cons op todo).trans hx.2⟩

namespace System

variable {ω : Type}

/-- The bursts know registered characters only. -/
structure BurstsBelow (s : System ω) : Prop where
  writers : ∀ w, (s.writers w).Below s.store.numFilters
  ended : ∀ e ∈ s.ended, e.numChars ≤ s.store.numFilters

variable [DecidableEq ω]

theorem step_filters {s s' : System ω} (h : Step s s') :
    s'.store.numFilters = s.store.numFilters ∧ s'.store.filters = s.store.filters := by
  cases h with
  | request w b hw => exact ⟨rfl, rfl⟩
  | publish w b start offset n hw hr => exact ⟨rfl, rfl⟩
  | run w st x hw => exact ⟨(Writer.step_ids hw).1.numFilters, (Writer.step_ids hw).1.filters⟩

theorem burstsBelow_step {s s' : System ω} (hs : BurstsBelow s) (h : Step s s') :
    BurstsBelow s' := by
  have hnum := (step_filters h).1
  have hwriters : ∀ w x, x.Below s.store.numFilters → ∀ v,
      (Function.update s.writers w x v).Below s'.store.numFilters := by
    intro w x hx v
    rw [hnum]
    by_cases hv : v = w
    · subst hv
      rw [Function.update_self]
      exact hx
    · rw [Function.update_of_ne hv]
      exact hs.writers v
  cases h with
  | request w b hw => exact ⟨hwriters w _ trivial, hs.ended⟩
  | run w st x hw =>
    refine ⟨hwriters w x (Writer.below_step hw (hs.writers w)), fun e he => ?_⟩
    rw [hnum]
    exact hs.ended e he
  | publish w b start offset n hw hr =>
    refine ⟨hwriters w _ trivial, fun e he => ?_⟩
    rcases List.mem_append.mp he with he | he
    · exact hs.ended e he
    · obtain rfl := List.mem_singleton.mp he
      have hw' := hs.writers w
      rw [hw] at hw'
      exact hw'.1

end System

/-! ## The entries of a burst in progress -/

/-- What an operation that is done put into the lists is not left to do. -/
theorem entries_of_done (filters : Nat → List PacketFilter) {b : Burst} {start offset n : Nat}
    {todo : List Op} (htodo : todo <:+ burstOps b start offset n) {op : Op}
    (hop : op ∈ burstOps b start offset n) (hdone : op ∉ todo) {p : Entry}
    (hp : p ∈ op.entries filters) : p ∉ entriesOf filters todo := by
  obtain ⟨done, heq⟩ := htodo
  have hnodup := entriesOf_burstOps_nodup filters b start offset n
  rw [← heq, entriesOf_append, List.nodup_append] at hnodup
  rw [← heq, List.mem_append] at hop
  have hmem : p ∈ entriesOf filters done :=
    List.mem_flatMap.mpr ⟨op, hop.resolve_right hdone, hp⟩
  exact fun hno => hnodup.2.2 p hmem p hno rfl

/-- An operation with an entry is not among those behind it. -/
theorem not_mem_behind (filters : Nat → List PacketFilter) {b : Burst} {start offset n : Nat}
    {op : Op} {todo : List Op} (htodo : op :: todo <:+ burstOps b start offset n) {p : Entry}
    (hp : p ∈ op.entries filters) : op ∉ todo := by
  obtain ⟨done, heq⟩ := htodo
  have hnodup := entriesOf_burstOps_nodup filters b start offset n
  rw [← heq, entriesOf_append, List.nodup_append, entriesOf_cons, List.nodup_append] at hnodup
  exact fun hop => hnodup.2.1.2.2 p hp p (List.mem_flatMap.mpr ⟨op, hop, hp⟩) rfl

/-- A test that accepts the packet is an entry. -/
theorem mem_character_entries {filters : Nat → List PacketFilter} {c second id : Nat}
    {pkt : Memory} (h : (filters c).any (·.applyPkt pkt)) :
    (.character second c, id) ∈ (Op.character c second id pkt).entries filters := by
  rw [Op.entries, Op.appended, if_pos h, Option.elim_some, Append.entries_one]
  exact List.mem_singleton_self _

/-- The id has a slot in the list, or the append in progress will give it one. -/
def Store.HasOrGets (st : Store) (cur : Option Appending) (k : ListKey) (id : Nat) : Prop :=
  (∃ j, ((st.lists k).slots j).value = some id) ∨ (k, id) ∈ cur.elim [] Appending.rest

theorem Appending.rest_subset (cur : Option Appending) {p : Entry}
    (h : p ∈ cur.elim [] Appending.rest) : p ∈ cur.elim [] (·.append.entries) := by
  cases cur with
  | none => exact h
  | some a =>
    cases a with
    | get a => exact h
    | reserve a => exact h
    | allocate a idx i => cases h
    | store a idx i => cases h

/-- An id of a running burst is in a list, or will be without another operation,
if it belongs there and no operation that is left puts it there. -/
theorem System.SlotsKept.hasOrGets_iff {ω : Type} {s : System ω} (h : s.SlotsKept) {w : ω}
    {b : Burst} {start offset n : Nat} {cur : Option Appending} {todo : List Op}
    (hw : s.writers w = .running b start offset n cur todo) {k : ListKey} {id : Nat}
    (hid : Block.Holds ⟨start, b.cnt⟩ id) : s.store.HasOrGets cur k id ↔
      (k, id) ∈ entriesOf s.store.filters (burstOps b start offset n) ∧
        (k, id) ∉ entriesOf s.store.filters todo := by
  have hpend : s.pending w = some ⟨start, b.cnt⟩ := by rw [pending, hw]; rfl
  have hahead := (h.order w).ahead
  rw [hw] at hahead
  have hnodup := List.nodup_append.mp (hahead.sublist.nodup (Writer.entries_nodup _ _))
  constructor
  · rintro (hslot | hrest)
    · rcases (h.placed.value_iff k id).mp hslot with ⟨e, he, hin⟩ | ⟨v, hv⟩
      · exact absurd hid (ended_apart_pending h.ids he hpend id (entriesOf_burstOps_holds _ hin))
      · obtain ⟨ids, hids, hhold⟩ := Writer.entries_holds hv.1
        obtain rfl := h.ids.tiles.unique v w id ⟨ids, hids, hhold⟩ ⟨_, hpend, hid⟩
        rw [hw] at hv
        exact ⟨hv.1, fun htodo => hv.2 (List.mem_append_right _ htodo)⟩
    · have hcur := Appending.rest_subset cur hrest
      exact ⟨hahead.subset (List.mem_append_left _ hcur),
        fun htodo => hnodup.2.2 _ hcur _ htodo rfl⟩
  · rintro ⟨hin, hno⟩
    by_cases hrest : (k, id) ∈ cur.elim [] Appending.rest
    · exact .inr hrest
    · refine .inl ((h.placed.value_iff k id).mpr (.inr ⟨w, ?_⟩))
      rw [hw]
      refine ⟨hin, fun hmem => ?_⟩
      rcases List.mem_append.mp hmem with hmem | hmem
      · exact hrest hmem
      · exact hno hmem

namespace Registering

variable {ω ρ : Type}

/-! ## What a run keeps -/

/-- The filters of a character are empty before the assignment and the registered ones behind it. -/
structure FiltersKept (s : Registering ω ρ) : Prop where
  registered_iff : ∀ c, (s.registered c).isSome ↔ c < s.numFilters
  numbered : ∀ r c filter, s.registrars r = .numbered c filter →
    s.registered c = some filter ∧ s.system.store.filters c = []
  distinct : ∀ r r' c filter filter', s.registrars r = .numbered c filter →
    s.registrars r' = .numbered c filter' → r = r'
  assigned : ∀ c filter, s.registered c = some filter →
    (∀ r filter', s.registrars r ≠ .numbered c filter') → s.system.store.filters c = filter
  vacant : ∀ c, s.numFilters ≤ c → s.system.store.filters c = []

theorem filtersKept_init : FiltersKept (init : Registering ω ρ) :=
  ⟨fun c => by simp [init, numFilters, System.init, Store.init], nofun, nofun, nofun,
    fun _ _ => rfl⟩

theorem FiltersKept.lt_of_registered {s : Registering ω ρ} (h : FiltersKept s) {c : Nat}
    {filter : List PacketFilter} (hc : s.registered c = some filter) : c < s.numFilters :=
  (h.registered_iff c).mp (by rw [hc]; rfl)

theorem filtersKept_insert [DecidableEq ω] {s : Registering ω ρ} (h : FiltersKept s)
    {sys : System ω} (hs : s.system.Step sys) : FiltersKept { s with system := sys } := by
  obtain ⟨hnum, hfilters⟩ := System.step_filters hs
  refine ⟨fun c => ?_, fun r c filter hr => ?_, h.distinct, fun c filter hc hno => ?_,
    fun c hc => ?_⟩
  · rw [numFilters, hnum]
    exact h.registered_iff c
  · rw [hfilters]
    exact h.numbered r c filter hr
  · rw [hfilters]
    exact h.assigned c filter hc hno
  · rw [numFilters, hnum] at hc
    rw [hfilters]
    exact h.vacant c hc

section

variable [DecidableEq ρ] {s : Registering ω ρ}

theorem take_numbered {r r' : ρ} {filter filter' : List PacketFilter} {c : Nat} :
    (s.take r filter).registrars r' = .numbered c filter' ↔
      (r' = r ∧ c = s.numFilters ∧ filter' = filter) ∨
        r' ≠ r ∧ s.registrars r' = .numbered c filter' := by
  rw [take]
  by_cases hr : r' = r
  · subst hr
    simp [eq_comm]
  · simp [hr]

theorem assign_numbered {r r' : ρ} {filter filter' : List PacketFilter} {c c' : Nat} :
    (s.assign r c filter).registrars r' = .numbered c' filter' ↔
      r' ≠ r ∧ s.registrars r' = .numbered c' filter' := by
  rw [assign]
  by_cases hr : r' = r
  · subst hr
    simp
  · simp [hr]

theorem filtersKept_take (h : FiltersKept s) {r : ρ} (hr : s.registrars r = .idle)
    (filter : List PacketFilter) : FiltersKept (s.take r filter) := by
  have hne : ∀ c filter', s.registered c = some filter' → c ≠ s.numFilters :=
    fun c filter' hc => Nat.ne_of_lt (h.lt_of_registered hc)
  refine ⟨fun c => ?_, fun r' c filter' hr' => ?_, fun r₁ r₂ c f₁ f₂ h₁ h₂ => ?_,
    fun c filter' hc hno => ?_, fun c hc => h.vacant c (Nat.le_of_succ_le hc)⟩
  · have hnum : (s.take r filter).numFilters = s.numFilters + 1 := rfl
    rw [hnum, take]
    by_cases hc : c = s.numFilters
    · subst hc
      simp
    · simp only [Function.update_of_ne hc, h.registered_iff c]
      omega
  · rcases take_numbered.mp hr' with ⟨rfl, rfl, rfl⟩ | ⟨-, hold⟩
    · exact ⟨Function.update_self _ _ _, h.vacant _ (Nat.le_refl _)⟩
    · obtain ⟨hreg, hnil⟩ := h.numbered r' c filter' hold
      exact ⟨(Function.update_of_ne (hne c filter' hreg) _ _).trans hreg, hnil⟩
  · rcases take_numbered.mp h₁ with ⟨rfl, hc, -⟩ | ⟨-, hold₁⟩ <;>
      rcases take_numbered.mp h₂ with ⟨rfl, hc', -⟩ | ⟨-, hold₂⟩
    · rfl
    · exact absurd hc (hne c f₂ (h.numbered r₂ c f₂ hold₂).1)
    · exact absurd hc' (hne c f₁ (h.numbered r₁ c f₁ hold₁).1)
    · exact h.distinct r₁ r₂ c f₁ f₂ hold₁ hold₂
  · by_cases hcn : c = s.numFilters
    · exact absurd (take_numbered.mpr (.inl ⟨rfl, hcn, rfl⟩)) (hno r filter)
    · refine h.assigned c filter' ((Function.update_of_ne hcn _ _).symm.trans hc) fun r' f hold => ?_
      refine hno r' f (take_numbered.mpr (.inr ⟨?_, hold⟩))
      rintro rfl
      rw [hr] at hold
      cases hold

theorem filtersKept_assign (h : FiltersKept s) {r : ρ} {c : Nat} {filter : List PacketFilter}
    (hr : s.registrars r = .numbered c filter) : FiltersKept (s.assign r c filter) := by
  obtain ⟨hreg, -⟩ := h.numbered r c filter hr
  refine ⟨h.registered_iff, fun r' c' filter' hr' => ?_, fun r₁ r₂ c' f₁ f₂ h₁ h₂ => ?_,
    fun c' filter' hc hno => ?_, fun c' hc => ?_⟩
  · obtain ⟨hne, hold⟩ := assign_numbered.mp hr'
    have hcc : c' ≠ c := by
      rintro rfl
      exact hne (h.distinct r' r c' filter' filter hold hr)
    obtain ⟨hreg', hnil⟩ := h.numbered r' c' filter' hold
    exact ⟨hreg', (Function.update_of_ne hcc _ _).trans hnil⟩
  · exact h.distinct r₁ r₂ c' f₁ f₂ (assign_numbered.mp h₁).2 (assign_numbered.mp h₂).2
  · by_cases hcc : c' = c
    · subst hcc
      have heq : filter = filter' := Option.some.inj (hreg.symm.trans hc)
      exact (Function.update_self _ _ _).trans heq
    · refine (Function.update_of_ne hcc _ _).trans (h.assigned c' filter' hc fun r' f hold => ?_)
      refine hno r' f (assign_numbered.mpr ⟨?_, hold⟩)
      rintro rfl
      rw [hr] at hold
      cases hold
      exact hcc rfl
  · have hcc : c' ≠ c := fun heq =>
      absurd (h.lt_of_registered hreg) (Nat.not_lt.mpr (heq ▸ hc))
    exact (Function.update_of_ne hcc _ _).trans (h.vacant c' hc)

end

/-- The filters say of every registered character what was passed to its registration. -/
def Agrees (s : Registering ω ρ) (filters : Nat → List PacketFilter) : Prop :=
  ∀ c filter, s.registered c = some filter → filters c = filter

def registeredLists (s : Registering ω ρ) (c : Nat) : List PacketFilter := (s.registered c).getD []

theorem agrees_registeredLists (s : Registering ω ρ) : s.Agrees s.registeredLists := by
  intro c filter hc
  rw [registeredLists, hc]
  rfl

/-- On a store with the registered lists the writers keep their invariants. -/
structure Kept (s : Registering ω ρ) : Prop where
  filters : FiltersKept s
  bursts : s.system.BurstsBelow
  slots : ∀ filters, s.Agrees filters → (s.system.onStore (·.withFilters filters)).SlotsKept

theorem kept_init : Kept (init : Registering ω ρ) :=
  ⟨filtersKept_init, ⟨fun _ => trivial, nofun⟩, fun filters _ => System.slotsKept_init 0 filters⟩

/-- The writer tests a packet against a character whose list is not assigned
yet, and the list accepts the packet. -/
def Early (s : Registering ω ρ) (w : ω) : Prop :=
  ∃ c pkt r filter, (s.system.writers w).testing = some (c, pkt) ∧
    s.registrars r = .numbered c filter ∧ filter.any (·.applyPkt pkt)

/-- In the step a writer makes such a test. -/
def TestsEarly (s s' : Registering ω ρ) : Prop :=
  ∃ w, s.Early w ∧ s'.system.writers w ≠ s.system.writers w

/-- A test that is not early gives what the registered list says. -/
theorem Kept.judges {s : Registering ω ρ} (h : Kept s) {filters : Nat → List PacketFilter}
    (hf : s.Agrees filters) {w : ω} {c : Nat} {pkt : Memory}
    (ht : (s.system.writers w).testing = some (c, pkt)) (hno : ¬ s.Early w) :
    (filters c).any (·.applyPkt pkt) = (s.system.store.filters c).any (·.applyPkt pkt) := by
  obtain ⟨b, start, offset, n, second, id, todo, hw⟩ := Writer.testing_eq_some ht
  have hbelow := h.bursts.writers w
  rw [hw] at hbelow
  obtain ⟨-, -, -, -, -, -, hc⟩ := mem_burstOps_character.mp (hbelow.2.subset List.mem_cons_self)
  obtain ⟨filter, hreg⟩ := Option.isSome_iff_exists.mp
    ((h.filters.registered_iff c).mpr (Nat.lt_of_lt_of_le hc hbelow.1))
  rw [hf c filter hreg]
  by_cases hopen : ∃ r filter', s.registrars r = .numbered c filter'
  · obtain ⟨r, filter', hr⟩ := hopen
    obtain ⟨hreg', hnil⟩ := h.filters.numbered r c filter' hr
    obtain rfl : filter = filter' := Option.some.inj (hreg.symm.trans hreg')
    have hrejects : ¬ filter.any (·.applyPkt pkt) = true :=
      fun hany => hno ⟨c, pkt, r, filter, ht, hr, hany⟩
    rw [hnil, Bool.eq_false_iff.mpr hrejects]
    rfl
  · have hclosed : ∀ r filter', s.registrars r ≠ .numbered c filter' :=
      fun r filter' hr => hopen ⟨r, filter', hr⟩
    rw [h.filters.assigned c filter hreg hclosed]

variable [DecidableEq ω] [DecidableEq ρ]

theorem kept_step {s s' : Registering ω ρ} (h : Kept s) (hs : Step s s') (hno : ¬ TestsEarly s s') :
    Kept s' := by
  cases hs with
  | insert sys hsys =>
    refine ⟨filtersKept_insert h.filters hsys, System.burstsBelow_step h.bursts hsys,
      fun filters hf => System.slotsKept_step (h.slots filters hf) ?_⟩
    exact System.step_withFilters hsys fun w c pkt ht hne =>
      h.judges hf ht fun hearly => hno ⟨w, hearly, hne⟩
  | take r filter hr hroom =>
    refine ⟨filtersKept_take h.filters hr filter, ⟨fun w => ?_, fun e he => ?_⟩, fun filters hf => ?_⟩
    · exact (h.bursts.writers w).mono (Nat.le_succ _)
    · exact Nat.le_succ_of_le (h.bursts.ended e he)
    · have hold : s.Agrees filters := fun c filter' hc => by
        refine hf c filter' ((Function.update_of_ne ?_ _ _).trans hc)
        exact Nat.ne_of_lt (h.filters.lt_of_registered hc)
      obtain ⟨⟨h1, h2, h3, h4⟩, h5, ⟨h6, h7⟩, ⟨h8, h9⟩⟩ := h.slots filters hold
      exact ⟨⟨h1, h2, h3, h4⟩, h5, ⟨h6, h7⟩, ⟨h8, h9⟩⟩
  | assign r c filter hr =>
    exact ⟨filtersKept_assign h.filters hr, ⟨h.bursts.writers, h.bursts.ended⟩, h.slots⟩

/-! ## What the lists of a character hold -/

/-- The packets of the bursts that know a character were tested against the list
passed to its registration: a packet whose test is done is in the character's
list of its second, or will be, exactly if a filter of that list accepts it. -/
structure Exact (s : Registering ω ρ) : Prop where
  running : ∀ w b start offset n cur todo,
    s.system.writers w = .running b start offset n cur todo → ∀ c, c < n →
      ∃ filter, s.registered c = some filter ∧ ∀ i m, b.pkts[i]? = some m →
        .character c b.now.toNat (start + i) m.data ∉ todo →
          (s.system.store.HasOrGets cur (.character b.now.toNat c) (start + i) ↔
            filter.any (·.applyPkt m.data))
  ended : ∀ e ∈ s.system.ended, ∀ c, c < e.numChars →
    ∃ filter, s.registered c = some filter ∧ ∀ id m, e.Gave id m → ∀ ts,
      ((∃ j, (s.system.store.lists (.character ts c)).slots j = .stored id) ↔
        ts = e.burst.now.toNat ∧ filter.any (·.applyPkt m.data))

omit [DecidableEq ω] [DecidableEq ρ] in
theorem exact_of_kept {s : Registering ω ρ} (h : Kept s) : Exact s := by
  have hslots := h.slots _ s.agrees_registeredLists
  have hknown : ∀ c, c < s.numFilters → ∃ filter, s.registered c = some filter :=
    fun c hc => Option.isSome_iff_exists.mp ((h.filters.registered_iff c).mpr hc)
  refine ⟨fun w b start offset n cur todo hw c hc => ?_, fun e he c hc => ?_⟩
  · have hbelow := h.bursts.writers w
    rw [hw] at hbelow
    obtain ⟨filter, hreg⟩ := hknown c (Nat.lt_of_lt_of_le hc hbelow.1)
    refine ⟨filter, hreg, fun i m hm hdone => ?_⟩
    have hfc : s.registeredLists c = filter := s.agrees_registeredLists c filter hreg
    refine (hslots.hasOrGets_iff hw (b.holds_id start hm)).trans ⟨fun hin => ?_, fun hany => ?_⟩
    · obtain ⟨i', m', hm', heq, hk⟩ := (mem_entriesOf_burstOps _).mp hin.1
      obtain rfl : i = i' := Nat.add_left_cancel heq
      obtain rfl : m = m' := Option.some.inj (hm.symm.trans hm')
      rw [← hfc]
      exact (mem_packetLists_character.mp hk).2.2
    · rw [← hfc] at hany
      refine ⟨(mem_entriesOf_burstOps _).mpr ⟨i, m, hm, rfl,
        mem_packetLists_character.mpr ⟨rfl, hc, hany⟩⟩, ?_⟩
      exact entries_of_done _ hbelow.2 (mem_burstOps_character.mpr ⟨i, m, hm, rfl, rfl, rfl, hc⟩)
        hdone (mem_character_entries hany)
  · obtain ⟨filter, hreg⟩ := hknown c (Nat.lt_of_lt_of_le hc (h.bursts.ended e he))
    refine ⟨filter, hreg, fun id m hgave ts => ?_⟩
    have hfc : s.registeredLists c = filter := s.agrees_registeredLists c filter hreg
    refine (hslots.stored_iff_mem he hgave (.character ts c)).trans ?_
    rw [mem_packetLists_character, eq_comm, ← hfc]
    exact ⟨fun hin => ⟨hin.1, hin.2.2⟩, fun hin => ⟨hin.1, hc, hin.2⟩⟩

/-- A writer that tests a packet is moved by its own step only. -/
theorem step_of_testing {s s' : Registering ω ρ} (hs : Step s s') {w : ω} {test : Nat × Memory}
    (ht : (s.system.writers w).testing = some test)
    (hne : s'.system.writers w ≠ s.system.writers w) : ∃ st x,
      (s.system.writers w).step s.system.store = some (st, x) ∧
        s' = { s with system := s.system.put w st x } := by
  have hother : ∀ v x, Function.update s.system.writers v x w ≠ s.system.writers w → w = v := by
    intro v x hupd
    by_contra hwv
    exact hupd (Function.update_of_ne hwv _ _)
  cases hs with
  | insert sys hsys =>
    cases hsys with
    | request v b hv =>
      obtain rfl := hother v _ hne
      rw [hv] at ht
      cases ht
    | publish v b start offset n hv hr =>
      obtain rfl := hother v _ hne
      rw [hv] at ht
      cases ht
    | run v st x hv =>
      obtain rfl := hother v _ hne
      exact ⟨st, x, hv, rfl⟩
  | take r filter hr hroom => exact absurd rfl hne
  | assign r c filter hr => exact absurd rfl hne

/-- Behind an early test the packet is missing from the character. -/
theorem not_exact_of_testsEarly {s s' : Registering ω ρ} (h : Kept s) (hs : Step s s')
    (hearly : TestsEarly s s') : ¬ Exact s' := by
  obtain ⟨w, ⟨c, pkt, r, filter, ht, hr, hany⟩, hne⟩ := hearly
  obtain ⟨b, start, offset, n, second, id, todo, hw⟩ := Writer.testing_eq_some ht
  obtain ⟨st, x, hstep, rfl⟩ := step_of_testing hs ht hne
  obtain ⟨hreg, hnil⟩ := h.filters.numbered r c filter hr
  have hbelow := h.bursts.writers w
  rw [hw] at hbelow
  have hop := hbelow.2.subset List.mem_cons_self
  obtain ⟨i, m, hm, rfl, rfl, rfl, hc⟩ := mem_burstOps_character.mp hop
  have hrun : st = s.system.store ∧ x = .running b start offset n none todo := by
    rw [hw] at hstep
    simp only [Writer.step, Store.stepOp, hnil, List.any_nil, Bool.false_eq_true, if_false] at hstep
    cases hstep
    exact ⟨rfl, rfl⟩
  obtain ⟨rfl, rfl⟩ := hrun
  have hfc : s.registeredLists c = filter := s.agrees_registeredLists c filter hreg
  have hentry : (.character b.now.toNat c, start + i) ∈
      (Op.character c b.now.toNat (start + i) m.data).entries s.registeredLists := by
    refine mem_character_entries ?_
    rw [hfc]
    exact hany
  have hmissing : ¬ s.system.store.HasOrGets none (.character b.now.toNat c) (start + i) := by
    intro hhas
    have hiff := (h.slots _ s.agrees_registeredLists).hasOrGets_iff (k := .character b.now.toNat c)
      hw (b.holds_id start hm)
    refine (hiff.mp hhas).2 ?_
    rw [entriesOf_cons]
    exact List.mem_append_left _ hentry
  intro hexact
  obtain ⟨filter', hreg', hall⟩ :=
    hexact.running w b start offset n none todo (System.put_writers _ _ _ _) c hc
  obtain rfl : filter = filter' := Option.some.inj (hreg.symm.trans hreg')
  exact hmissing ((hall i m hm (not_mem_behind _ hbelow.2 hentry)).mpr hany)

/-- In a run, every packet that was tested is in the characters that accept it
and in no others, in all states, exactly if no step tests early. -/
theorem exact_run_iff (states : List (Registering ω ρ)) (hrun : List.IsChain Step (init :: states)) :
    (∀ s ∈ init :: states, Exact s) ↔
      List.IsChain (fun s s' => ¬ TestsEarly s s') (init :: states) := by
  refine GuardedRun.forall_good_iff (fun s s' hk _ hs hno => ?_) (fun s s' hk _ hs hbad => ?_)
    states _ kept_init (exact_of_kept kept_init) hrun
  · have hk' := kept_step hk hs hno
    exact ⟨hk', exact_of_kept hk'⟩
  · exact not_exact_of_testsEarly hk hs hbad

/-! ## Registrations that take turns with writers -/

inductive Turn (ω ρ : Type) where
  | writer : System.Turn ω → Turn ω ρ
  | take : ρ → List PacketFilter → Turn ω ρ
  | assign : ρ → Turn ω ρ

def turn (s : Registering ω ρ) : Turn ω ρ → Option (Registering ω ρ)
  | .writer t => (s.system.turn t).map fun sys => { s with system := sys }
  | .take r filter => match s.registrars r with
    | .idle => if s.numFilters < maxFilters then some (s.take r filter) else none
    | _ => none
  | .assign r => match s.registrars r with
    | .numbered c filter => some (s.assign r c filter)
    | _ => none

theorem step_of_turn (s : Registering ω ρ) (t : Turn ω ρ) (s' : Registering ω ρ)
    (h : s.turn t = some s') : Step s s' := by
  cases t with
  | writer t =>
    obtain ⟨sys, hsys, rfl⟩ := Option.map_eq_some_iff.mp h
    exact .insert s sys (System.step_of_turn s.system t sys hsys)
  | take r filter =>
    simp only [turn] at h
    split at h
    · next hr =>
      split at h
      · next hroom =>
        cases h
        exact .take s r filter hr hroom
      · cases h
    · cases h
  | assign r =>
    simp only [turn] at h
    split at h
    · next c filter hr =>
      cases h
      exact .assign s r c filter hr
    · cases h

/-- No writer is at a test while the registration is between its two steps. -/
def calm (s : Registering Bool Unit) : Bool :=
  match s.registrars () with
  | .idle => true
  | .numbered _ _ => (s.system.writers false).testing.isNone && (s.system.writers true).testing.isNone

theorem not_early_of_calm {s : Registering Bool Unit} (h : s.calm = true) (w : Bool) :
    ¬ s.Early w := by
  rintro ⟨c, pkt, r, filter, ht, hr, -⟩
  simp only [calm, show s.registrars () = .numbered c filter from hr, Bool.and_eq_true] at h
  cases w with
  | false => simp [ht] at h
  | true => simp [ht] at h

/-- A turn in a calm state. -/
def calmTurn (s : Registering Bool Unit) (t : Turn Bool Unit) : Option (Registering Bool Unit) :=
  if s.calm then s.turn t else none

theorem step_of_calmTurn (s : Registering Bool Unit) (t : Turn Bool Unit)
    (s' : Registering Bool Unit) (h : calmTurn s t = some s') :
    Step s s' ∧ ¬ TestsEarly s s' := by
  rw [calmTurn] at h
  split at h
  · next hcalm =>
    refine ⟨step_of_turn s t s' h, ?_⟩
    rintro ⟨w, hearly, -⟩
    exact not_early_of_calm hcalm w hearly
  · cases h

/-- Two bursts load the counter between the two steps of a registration, and test their packets
behind the assignment. -/
def assignedBetween : List (Turn Bool Unit) :=
  .take () [openFilter] :: .writer (.call false (System.tcpBurst 7)) ::
    .writer (.call true (System.tcpBurst 7)) :: (System.byTurns true false 2).map .writer ++
  .assign () :: (System.byTurns true false 32 ++
    [System.Turn.goOn false, System.Turn.goOn true]).map .writer

/-- At its end the character has both packets in second 7, and no list around it. -/
theorem assignedBetween_run : ∃ s : Registering Bool Unit,
    Relation.ReflTransGen (fun s s' => Step s s' ∧ ¬ TestsEarly s s') init s ∧
    s.system.store.readId = 2 ∧ (s.system.store.lists (.character 7 0)).tail = 2 ∧
    (s.system.store.lists (.character 7 0)).slots 0 = .stored 1 ∧
    (s.system.store.lists (.character 7 0)).slots 1 = .stored 0 ∧
    (s.system.store.lists (.character 6 0)).created = false ∧
    (s.system.store.lists (.character 8 0)).created = false := by
  obtain ⟨s, hrun, hsee⟩ := Schedule.exists_run step_of_calmTurn assignedBetween
    (by decide +kernel : (Schedule.after calmTurn init assignedBetween).map (fun s =>
      (s.system.store.readId, (s.system.store.lists (.character 7 0)).tail,
        (s.system.store.lists (.character 7 0)).slots 0,
        (s.system.store.lists (.character 7 0)).slots 1,
        (s.system.store.lists (.character 6 0)).created,
        (s.system.store.lists (.character 8 0)).created)) =
      some (2, 2, .stored 1, .stored 0, false, false))
  simp only [Prod.mk.injEq] at hsee
  exact ⟨s, hrun, hsee⟩

/-- All its states are exact. -/
theorem exact_assignedBetween : ∃ states : List (Registering Bool Unit),
    List.IsChain Step (init :: states) ∧ (∀ s ∈ init :: states, Exact s) ∧
    ∃ s ∈ init :: states, s.system.store.readId = 2 ∧
      (s.system.store.lists (.character 7 0)).slots 0 = .stored 1 ∧
      (s.system.store.lists (.character 7 0)).slots 1 = .stored 0 := by
  obtain ⟨s, hrun, hread, -, hzero, hone, -⟩ := assignedBetween_run
  obtain ⟨states, hchain, hlast⟩ := List.exists_isChain_cons_of_relationReflTransGen hrun
  have hsteps : List.IsChain Step (init :: states) := hchain.imp fun _ _ h => h.1
  have hcalm : List.IsChain (fun s s' => ¬ TestsEarly s s') (init :: states) :=
    hchain.imp fun _ _ h => h.2
  exact ⟨states, hsteps, (exact_run_iff states hsteps).mpr hcalm, s,
    hlast ▸ List.getLast_mem (List.cons_ne_nil _ _), hread, hzero, hone⟩

/-- A registration has its number and has not assigned its list. -/
def taken : Registering Unit Unit := init.take () [openFilter]

/-- A burst by itself is a run. -/
theorem insertPktburst_run (s : Registering ω ρ) {w : ω} {b : Burst} {st : Store}
    (hw : s.system.writers w = .idle) (h : s.system.store.insertPktburst b = some st) :
    Relation.ReflTransGen Step s { s with system := ⟨st, s.system.writers, s.system.ended ++
      [⟨b, s.system.store.writeId, s.system.store.dtail, s.system.store.numFilters⟩]⟩ } := by
  have hrun := System.insertPktburst_run s.system hw h
  exact hrun.lift (fun sys => { s with system := sys })
    fun sys sys' hs => Step.insert { s with system := sys } sys' hs

/-- A burst of one packet between the two steps of a registration: when both have
returned, the character does not have the packet, which its filter accepts. -/
theorem missed_reached : ∃ s : Registering Unit Unit, Relation.ReflTransGen Step init s ∧
    s.system.Quiescent ∧ (∀ r, s.registrars r = .idle) ∧ s.registered 0 = some [openFilter] ∧
    s.system.ended = [⟨Store.blankBurst 7, 0, 0, 1⟩] ∧ openFilter.applyPkt (fun _ => 0) ∧
    (∀ j, (s.system.store.lists (.character 7 0)).slots j ≠ .stored 0) ∧ ¬ Exact s := by
  have htake : Step init taken := .take init () [openFilter] rfl (by decide)
  have hburst := insertPktburst_run taken (w := ()) rfl
    (Store.insertPktburst_eq _ (Store.blankBurst 7) rfl (by decide))
  refine ⟨_, (Relation.ReflTransGen.head htake hburst).tail (.assign _ () 0 [openFilter] rfl),
    fun _ => rfl, fun _ => rfl, rfl, rfl, rfl, fun j => ?_, ?_⟩
  · intro hj
    cases (hj : Slot.free = .stored 0)
  · intro hexact
    obtain ⟨filter, hreg, hall⟩ := hexact.ended ⟨Store.blankBurst 7, 0, 0, 1⟩
      (List.mem_singleton_self _) 0 Nat.zero_lt_one
    cases hreg
    obtain ⟨j, hj⟩ := (hall 0 ⟨fun _ => 0, 60⟩ ⟨0, rfl, rfl⟩ 7).mpr ⟨rfl, rfl⟩
    cases (hj : Slot.free = .stored 0)

end Registering

end Netplay
