import Netplay.CountEffects

/-!
# Counts among writers

Bursts, registrations and counts as their atomic steps. Without a burst in flight the
lists hold what was stored, published, and nothing else.
-/

namespace Netplay

open Packet NetplayUtils BlockTail

namespace Writer

/-- What is left of a burst is behind what it has done, and its append in progress holds
ids of its block. -/
def Inside : Writer → Prop
  | .running b start offset n cur todo =>
    todo <:+ burstOps b start offset n ∧
      ∀ c, cur = some c → c.InRange ∧ ∀ p ∈ c.append.entries, Block.Holds ⟨start, b.cnt⟩ p.2
  | _ => True

theorem stepAppend_append {st : Store} {c c' : Appending}
    (h : (st.stepAppend c).2 = some c') : c'.append = c.append := by
  have hentry : ∀ (a : Append) (idx i : Nat), a.entry idx i = some c' → c'.append = a := by
    intro a idx i he
    rw [Append.entry] at he
    split at he
    · cases he
      rfl
    · cases he
  cases c with
  | get a =>
    cases h
    rfl
  | reserve a => exact hentry a _ _ h
  | allocate a idx i =>
    cases h
    rfl
  | store a idx i => exact hentry a _ _ h

theorem inside_step {st st' : Store} {x x' : Writer} (h : x.step st = some (st', x'))
    (hx : x.Inside) : x'.Inside := by
  rcases step_cases h with ⟨b, start, rfl, -, rfl, rfl⟩ | ⟨b, start, offset, rfl, rfl, rfl⟩ |
    ⟨b, start, offset, n, c, todo, rfl, rfl, rfl⟩ | ⟨b, start, offset, n, op, todo, rfl, rfl, rfl⟩
  · trivial
  · exact ⟨List.suffix_refl _, fun c hc => by cases hc⟩
  · obtain ⟨hrange, hids⟩ := hx.2 c rfl
    refine ⟨hx.1, fun c' hc' => ⟨Store.stepAppend_inRange hrange hc', ?_⟩⟩
    rw [stepAppend_append hc']
    exact hids
  · refine ⟨(List.suffix_cons op todo).trans hx.1, fun c hc => ?_⟩
    rw [st.stepOp_snd] at hc
    obtain ⟨a, ha, rfl⟩ := Option.map_eq_some_iff.mp hc
    refine ⟨trivial, fun p hp => ?_⟩
    refine entriesOf_burstOps_holds st.filters (k := p.1) (v := p.2)
      (List.mem_flatMap.mpr ⟨op, hx.1.subset List.mem_cons_self, ?_⟩)
    rw [Op.entries, ha]
    exact hp

end Writer

namespace System

variable {ω : Type}

/-- Below its tail a list has no free slot; a reserved one is owed by a writer, and the
values are ids that were handed out. -/
structure SlotsTaken (s : System ω) : Prop where
  inside : ∀ w, (s.writers w).Inside
  taken : ∀ k j, j < (s.store.lists k).tail → (s.store.lists k).slots j ≠ .free
  reserved : ∀ k j v, (s.store.lists k).slots j = .reserved v → ∃ w, (s.writers w).Owes k j v
  below : ∀ k j v, ((s.store.lists k).slots j).value = some v → v < s.store.writeId

theorem slotsTaken_init (numFilters : Nat) (filters : Nat → List PacketFilter) :
    SlotsTaken (init numFilters filters : System ω) where
  inside _ := trivial
  taken _ _ h := absurd h (Nat.not_lt_zero _)
  reserved k j v h := by cases (h : Slot.free = .reserved v)
  below k j v h := by cases (h : none = some v)

variable [DecidableEq ω]

theorem inside_update {s : System ω} (h : ∀ w, (s.writers w).Inside) {w : ω} {x : Writer}
    (hx : x.Inside) (v : ω) : (Function.update s.writers w x v).Inside := by
  by_cases hv : v = w
  · subst hv
    rw [Function.update_self]
    exact hx
  · rw [Function.update_of_ne hv]
    exact h v

/-- Who owes a slot still does, if the writer that steps goes on owing it. -/
theorem owes_update {s : System ω} {w : ω} {x : Writer} {k : ListKey} {j v : Nat}
    (h : ∃ u, (s.writers u).Owes k j v) (hw : (s.writers w).Owes k j v → x.Owes k j v) :
    ∃ u, (Function.update s.writers w x u).Owes k j v := by
  obtain ⟨u, hu⟩ := h
  by_cases huw : u = w
  · subst huw
    exact ⟨u, by rw [Function.update_self]; exact hw hu⟩
  · exact ⟨u, by rw [Function.update_of_ne huw]; exact hu⟩

/-- A step that leaves the slots and what is owed. -/
theorem slotsTaken_same {s : System ω} (h : SlotsTaken s) {st : Store} {es : List Ended} {w : ω}
    {x : Writer} (hl : ∀ k, (st.lists k).slots = (s.store.lists k).slots ∧
      (st.lists k).tail = (s.store.lists k).tail)
    (hw : s.store.writeId ≤ st.writeId) (hx : x.Inside)
    (ho : ∀ k j v, (s.writers w).Owes k j v → x.Owes k j v) :
    SlotsTaken ⟨st, Function.update s.writers w x, es⟩ := by
  refine ⟨inside_update h.inside hx, fun k j hj => ?_, fun k j v hv => ?_, fun k j v hv => ?_⟩
  · dsimp only at hj ⊢
    rw [(hl k).2] at hj
    rw [(hl k).1]
    exact h.taken k j hj
  · dsimp only at hv ⊢
    rw [(hl k).1] at hv
    exact owes_update (h.reserved k j v hv) (ho k j v)
  · dsimp only at hv ⊢
    rw [(hl k).1] at hv
    exact Nat.lt_of_lt_of_le (h.below k j v hv) hw

theorem slotsTaken_reserve {s : System ω} (h : SlotsTaken s) {w : ω} {a : Append} {x : Writer}
    (hx : x.Inside) (hno : ∀ k j v, ¬ (s.writers w).Owes k j v)
    (ho : ∀ k j v, x.Owes k j v ↔ a.Covers (s.store.lists a.key).tail 0 k j v)
    (hids : ∀ p ∈ a.entries, p.2 < s.store.writeId) :
    SlotsTaken { s with
      store := s.store.updateList a.key (·.reserve a)
      writers := Function.update s.writers w x } := by
  have hcases := s.store.reserve_slot_cases a
  refine ⟨inside_update h.inside hx, fun k j hj => ?_, fun k j v hv => ?_, fun k j v hv => ?_⟩
  · dsimp only at hj ⊢
    rcases hcases k j with ⟨hslot, htail, -⟩ | ⟨v, hslot, -⟩ <;> rw [hslot]
    · exact h.taken k j (by omega)
    · intro hfree
      cases hfree
  · dsimp only at hv ⊢
    rcases hcases k j with ⟨hslot, -⟩ | ⟨v', hslot, -, hc⟩ <;> rw [hslot] at hv
    · exact owes_update (h.reserved k j v hv) fun hw => absurd hw (hno _ _ _)
    · cases hv
      refine ⟨w, ?_⟩
      rw [Function.update_self, ho]
      exact hc
  · dsimp only at hv ⊢
    rcases hcases k j with ⟨hslot, -⟩ | ⟨v', hslot, -, hc⟩ <;> rw [hslot] at hv
    · exact h.below k j v hv
    · cases hv
      exact hids (k, _) hc.mem_entries

theorem slotsTaken_store {s : System ω} (h : SlotsTaken s) {w : ω} {a : Append} {idx i : Nat}
    {x : Writer} (hi : i < a.count) (hx : x.Inside)
    (hw : ∀ k j v, (s.writers w).Owes k j v ↔ a.Covers idx i k j v)
    (ho : ∀ k j v, x.Owes k j v ↔ a.Covers idx (i + 1) k j v)
    (hids : ∀ p ∈ a.entries, p.2 < s.store.writeId) :
    SlotsTaken { s with
      store := s.store.updateList a.key (·.store (idx + i) (a.first + i))
      writers := Function.update s.writers w x } := by
  have hcases := s.store.store_slot_cases a.key (idx + i) (a.first + i)
  have hnext : ∀ k j v, ¬ (k = a.key ∧ j = idx + i) → (s.writers w).Owes k j v → x.Owes k j v := by
    intro k j v hne howes
    obtain ⟨hk, m, h1, h2, hj, hv⟩ := (hw k j v).mp howes
    have hmi : m ≠ i := fun hmi => hne ⟨hk, by rw [hj, hmi]⟩
    exact (ho k j v).mpr ⟨hk, m, by omega, h2, hj, hv⟩
  refine ⟨inside_update h.inside hx, fun k j hj => ?_, fun k j v hv => ?_, fun k j v hv => ?_⟩
  · dsimp only at hj ⊢
    rw [Store.store_tail] at hj
    rcases hcases k j with ⟨hslot, -⟩ | ⟨hslot, -⟩ <;> rw [hslot]
    · exact h.taken k j hj
    · intro hfree
      cases hfree
  · dsimp only at hv ⊢
    rcases hcases k j with ⟨hslot, hne⟩ | ⟨hslot, -⟩ <;> rw [hslot] at hv
    · exact owes_update (h.reserved k j v hv) (hnext k j v hne)
    · cases hv
  · dsimp only at hv ⊢
    rcases hcases k j with ⟨hslot, -⟩ | ⟨hslot, -⟩ <;> rw [hslot] at hv
    · exact h.below k j v hv
    · cases hv
      exact hids (a.key, _) (Append.mem_entries.mpr ⟨rfl, i, hi, rfl⟩)

omit [DecidableEq ω] in
/-- The ids of an append in progress were handed out. -/
theorem SlotsTaken.append_ids {s : System ω} (hi : IdsTiled s) (h : SlotsTaken s) {w : ω}
    {b : Burst} {start offset n : Nat} {c : Appending} {todo : List Op}
    (hw : s.writers w = .running b start offset n (some c) todo) :
    c.InRange ∧ ∀ p ∈ c.append.entries, p.2 < s.store.writeId := by
  have hin := h.inside w
  rw [hw] at hin
  obtain ⟨hrange, hids⟩ := hin.2 c rfl
  refine ⟨hrange, fun p hp => ?_⟩
  have hpend : s.pending w = some ⟨start, b.cnt⟩ := by rw [pending, hw]; rfl
  exact ((hi.tiles.holds p.2).mp ⟨w, _, hpend, hids p hp⟩).2

theorem slotsTaken_step {s s' : System ω} (hi : IdsTiled s) (h : SlotsTaken s) (hs : Step s s') :
    SlotsTaken s' := by
  cases hs with
  | request w b hw =>
    refine slotsTaken_same h (fun _ => ⟨rfl, rfl⟩) (Nat.le_add_right _ _) trivial ?_
    rw [hw]
    exact fun _ _ _ hno => hno.elim
  | publish w b start offset n hw hr =>
    refine slotsTaken_same h (fun _ => ⟨rfl, rfl⟩) (Nat.le_refl _) trivial ?_
    rw [hw]
    exact fun _ _ _ hno => hno.elim
  | run w st x hw =>
    have hx := Writer.inside_step hw (h.inside w)
    have hwrite := (Writer.step_ids hw).1.writeId
    rcases Writer.step_lists hw with ⟨b, start, offset, n, a, todo, hwr, rfl, rfl⟩ |
      ⟨b, start, offset, n, a, idx, i, todo, hwr, rfl, rfl⟩ | ⟨hl, ho, -⟩
    · refine slotsTaken_reserve h hx ?_ (Writer.entry_owes b start offset n todo a _ 0)
        (h.append_ids hi hwr).2
      rw [hwr]
      exact fun _ _ _ hno => hno
    · refine slotsTaken_store h (h.append_ids hi hwr).1 hx ?_
        (Writer.entry_owes b start offset n todo a idx (i + 1)) (h.append_ids hi hwr).2
      rw [hwr]
      exact fun _ _ _ => Iff.rfl
    · exact slotsTaken_same h hl (Nat.le_of_eq hwrite.symm) hx fun k j v => (ho k j v).mpr

omit [DecidableEq ω] in
/-- Without a burst in flight the store is at rest. -/
theorem SlotsTaken.atRest {s : System ω} (hi : IdsTiled s) (hc : ListsCreated s)
    (h : SlotsTaken s) (hq : s.Quiescent) : s.store.AtRest := by
  have hids := quiescent_ids hi hq
  refine ⟨hids, fun k j hj => ?_, hc.tail⟩
  cases hslot : (s.store.lists k).slots j with
  | free => exact absurd hslot (h.taken k j hj)
  | reserved v =>
    obtain ⟨w, hw⟩ := h.reserved k j v hslot
    rw [hq w] at hw
    exact hw.elim
  | stored v =>
    refine ⟨v, rfl, ?_⟩
    rw [hids]
    exact h.below k j v (by rw [hslot]; rfl)

end System

namespace Registering

variable {ω ρ : Type}

/-- A round of the loop of a count: it creates a list, and reads its size. -/
def getCharacter (s : Registering ω ρ) (c ts : Nat) : Registering ω ρ :=
  { s with system := s.system.onStore (·.getCharacter c ts) }

/-- What the writers, the registrations and the counts keep. -/
structure CountsKept (s : Registering ω ρ) : Prop where
  ids : s.system.IdsTiled
  lists : s.system.ListsCreated
  slots : s.system.SlotsTaken

theorem countsKept_init : CountsKept (init : Registering ω ρ) :=
  ⟨System.idsTiled_init _ _, System.listsCreated_init _ _, System.slotsTaken_init _ _⟩

theorem countsKept_getCharacter {s : Registering ω ρ} (h : CountsKept s) (c ts : Nat) :
    CountsKept (s.getCharacter c ts) := by
  have hsame := s.system.store.getCharacter_same c ts
  have hcreated : ∀ k, (s.system.store.lists k).created = true →
      ((s.system.store.getCharacter c ts).lists k).created = true := by
    intro k hk
    rw [Store.getCharacter_lists]
    split
    · rfl
    · exact hk
  obtain ⟨⟨h1, h2, h3, h4⟩, hlists, hslots⟩ := h
  refine ⟨⟨h1, h2, h3, h4⟩, ⟨fun k hk => ?_, fun w a hw => hcreated _ (hlists.reserve w a hw)⟩,
    ⟨hslots.inside, fun k j hj => ?_, fun k j v hv => ?_, fun k j v hv => ?_⟩⟩
  · refine (hsame k).1.trans (hlists.tail k ?_)
    rw [Bool.eq_false_iff]
    intro hk'
    have hk₁ : ((s.system.store.getCharacter c ts).lists k).created = false := hk
    rw [hcreated k hk'] at hk₁
    cases hk₁
  · have hj' : j < ((s.system.store.getCharacter c ts).lists k).tail := hj
    rw [(hsame k).1] at hj'
    intro hfree
    have hfree' : ((s.system.store.getCharacter c ts).lists k).slots j = .free := hfree
    rw [(hsame k).2] at hfree'
    exact hslots.taken k j hj' hfree'
  · have hv' : ((s.system.store.getCharacter c ts).lists k).slots j = .reserved v := hv
    rw [(hsame k).2] at hv'
    exact hslots.reserved k j v hv'
  · have hv' : (((s.system.store.getCharacter c ts).lists k).slots j).value = some v := hv
    rw [(hsame k).2] at hv'
    exact hslots.below k j v hv'

variable [DecidableEq ω] [DecidableEq ρ]

/-- One atomic step of a writer or of a registration, or one round of a count. -/
inductive CountingStep : Registering ω ρ → Registering ω ρ → Prop where
  | act {s s' : Registering ω ρ} (h : Step s s') : CountingStep s s'
  | round (s : Registering ω ρ) (c ts : Nat) (hc : c < maxFilters) (hts : ts < 2 ^ 32) :
      CountingStep s (s.getCharacter c ts)

theorem countsKept_step {s s' : Registering ω ρ} (h : CountsKept s) (hs : CountingStep s s') :
    CountsKept s' := by
  cases hs with
  | round c ts hc hts => exact countsKept_getCharacter h c ts
  | act h' =>
    cases h' with
    | insert sys hsys =>
      exact ⟨System.idsTiled_step h.ids hsys, System.listsCreated_step h.lists hsys,
        System.slotsTaken_step h.ids h.slots hsys⟩
    | take r filter hr hroom =>
      obtain ⟨⟨h1, h2, h3, h4⟩, ⟨h5, h6⟩, ⟨h7, h8, h9, h10⟩⟩ := h
      exact ⟨⟨h1, h2, h3, h4⟩, ⟨h5, h6⟩, ⟨h7, h8, h9, h10⟩⟩
    | assign r c filter hr =>
      obtain ⟨⟨h1, h2, h3, h4⟩, ⟨h5, h6⟩, ⟨h7, h8, h9, h10⟩⟩ := h
      exact ⟨⟨h1, h2, h3, h4⟩, ⟨h5, h6⟩, ⟨h7, h8, h9, h10⟩⟩

theorem countsKept_run {s : Registering ω ρ} (h : Relation.ReflTransGen CountingStep init s) :
    CountsKept s := by
  induction h with
  | refl => exact countsKept_init
  | tail _ hs ih => exact countsKept_step ih hs

/-- By itself a count is its rounds. -/
theorem getCharacters_run {c : Nat} (hc : c < maxFilters) (seconds : List Nat) :
    ∀ s : Registering ω ρ, (∀ ts ∈ seconds, ts < 2 ^ 32) → Relation.ReflTransGen CountingStep s
      { s with system := s.system.onStore (·.getCharacters c seconds) } := by
  induction seconds with
  | nil => exact fun s _ => .refl
  | cons ts seconds ih =>
    intro s hts
    exact .head (.round s c ts hc (hts ts List.mem_cons_self))
      (ih (s.getCharacter c ts) fun t ht => hts t (List.mem_cons_of_mem _ ht))

/-- In every state without a burst in flight, whatever bursts, registrations and counts
led to it, a count returns and is not seen later exactly where its window is
empty, or ends before the largest second and the character has a list in each of
its seconds but second 0. -/
theorem count_indistinct_iff {s : Registering ω ρ} (hs : Relation.ReflTransGen CountingStep init s)
    (hq : s.system.Quiescent) {c tsBeg tsEnd : Nat} (hc : c < maxFilters) (hbeg : tsBeg < 2 ^ 32)
    (hend : tsEnd < 2 ^ 32) :
    (∃ st' res, s.system.store.CountReturns c tsBeg tsEnd st' res ∧
        s.system.store.Indistinct st') ↔
      (tsBeg ≤ tsEnd → tsEnd < 2 ^ 32 - 1 ∧ ∀ ts, tsBeg ≤ ts → ts ≤ tsEnd → ts ≠ 0 →
        (s.system.store.characterList c ts).created = true) := by
  have hkept := countsKept_run hs
  exact (hkept.slots.atRest hkept.ids hkept.lists hq).count_unseen_iff hc hbeg hend

/-- A character registered before a burst in second 7, and the count of that second. -/
theorem count_indistinct_seven : ∃ s : Registering Unit Unit,
    Relation.ReflTransGen CountingStep init s ∧ s.numFilters = 1 ∧
      ∃ st' res, s.system.store.CountReturns 0 7 7 st' res ∧ s.system.store.Indistinct st' := by
  have hrun : Relation.ReflTransGen Step init (taken.assign () 0 [openFilter]) :=
    .head (.take init () [openFilter] rfl (by decide))
      (.single (.assign taken () 0 [openFilter] rfl))
  have hburst := hrun.trans (insertPktburst_run (taken.assign () 0 [openFilter]) (w := ()) rfl
    (Store.insertPktburst_eq _ (Store.blankBurst 7) rfl (by decide)))
  have hs := hburst.lift id fun a b h => CountingStep.act h
  exact ⟨_, hs, rfl, (count_indistinct_iff hs (fun _ => rfl) (by decide) (by decide)
    (by decide)).mpr fun _ => ⟨by decide, fun ts hlo hhi _ => by
      obtain rfl : ts = 7 := by omega
      rfl⟩⟩

/-- The count of second 7 in a store without packets: the lookup of the seconds 6 and 7
yields nothing before it, and has no result behind it. -/
theorem count_seen : (init : Registering Unit Unit).system.Quiescent ∧
    ∃ st', (init : Registering Unit Unit).system.store.CountReturns 0 7 7 st' 0 ∧
      ((init : Registering Unit Unit).system.store.characterResult 0 6 7).Yields [] ∧
      (∀ out, ¬ (st'.characterResult 0 6 7).Yields out) ∧
      ¬ (init : Registering Unit Unit).system.store.Indistinct st' := by
  have hkept : CountsKept (init : Registering Unit Unit) := countsKept_run .refl
  have hrest := hkept.slots.atRest hkept.ids hkept.lists fun _ => rfl
  have hcount : (init : Registering Unit Unit).system.store.CountReturns 0 7 7 _ 0 :=
    (Store.countReturns_iff (by decide) (by decide) (by decide)).mpr ⟨by decide, rfl, rfl⟩
  refine ⟨fun _ => rfl, _, hcount, ?_, fun out hout => ?_, fun hsame => ?_⟩
  · refine (hrest.yields_iff 0 (by decide) (by decide) []).mpr ⟨fun ts _ _ hc => ?_, rfl⟩
    cases (hc : false = true)
  · have hbroken := ((hrest.getCharacters 0 [7]).yields_iff 0 (by decide) (by decide) out).mp hout
    exact hbroken.1 7 (by decide) (by decide) rfl rfl
  · have hcreated := hrest.created_of_indistinct (by decide) hsame
      (List.mem_singleton_self 7) (by decide) (by decide)
    cases (hcreated : false = true)

end Registering

end Netplay
