import Netplay.CharacterCount

/-!
# What a count leaves behind

A count creates lists without entries, and the lookup of a character does not pass
such a list. Later results are as without the count exactly where the character
had a list in every second of the window but second 0.
-/

namespace Netplay

open Packet NetplayUtils

/-- The entries of a list; a position that is not stored reads as 0. -/
def EntryList.entries (l : EntryList) : List Nat :=
  (List.range l.tail).map fun j => (l.slots j).read 0

/-- The list behind the pointer, which is null where nothing was created. -/
def EntryList.pointed (l : EntryList) : Option (List Nat) :=
  if l.created then some l.entries else none

namespace Store

/-- `complex_character_lookup`. -/
def characterResult (st : Store) (c tsBeg tsEnd : Nat) : CharacterResult where
  lookup ts := if ts < 2 ^ 32 then some (st.characterList c ts).pointed else none
  tsBeg := tsBeg
  tsEnd := tsEnd
  maxRid := st.numPkts

/-! ## A store without calls in flight -/

/-- Every position taken in a list is stored, with an id below a bound, and only lists
that were created have entries. -/
structure ListsWithin (st : Store) (bound : Nat) : Prop where
  stored : ∀ k j, j < (st.lists k).tail → ∃ v, (st.lists k).slots j = .stored v ∧ v < bound
  created : ∀ k, (st.lists k).created = false → (st.lists k).tail = 0

/-- Every id is published, and the lists hold published ids. -/
structure AtRest (st : Store) : Prop where
  ids : st.readId = st.writeId
  lists : st.ListsWithin st.readId

theorem AtRest.entries_lt {st : Store} (h : st.AtRest) {k : ListKey} {v : Nat}
    (hv : v ∈ (st.lists k).entries) : v < st.readId := by
  obtain ⟨j, hj, rfl⟩ := List.mem_map.mp hv
  obtain ⟨v, hslot, hlt⟩ := h.lists.stored k j (List.mem_range.mp hj)
  rw [hslot]
  exact hlt

theorem AtRest.pointed_getD {st : Store} (h : st.AtRest) (k : ListKey) :
    (st.lists k).pointed.getD [] = (st.lists k).entries := by
  rw [EntryList.pointed]
  split
  · rfl
  · next hc =>
    rw [EntryList.entries, h.lists.created k (by simpa using hc)]
    rfl

/-- The seconds of a window behind the first have no list without entries. -/
def Unbroken (st : Store) (c tsBeg tsEnd : Nat) : Prop :=
  ∀ ts, tsBeg < ts → ts ≤ tsEnd →
    (st.characterList c ts).created = true → (st.characterList c ts).tail ≠ 0

/-- The entries of the lists of a window, second by second. -/
def entriesIn (st : Store) (c tsBeg tsEnd : Nat) : List Nat :=
  (List.range' tsBeg (tsEnd + 1 - tsBeg)).flatMap fun ts => (st.characterList c ts).entries

theorem AtRest.answers {st : Store} (h : st.AtRest) (c : Nat) {tsBeg tsEnd : Nat}
    (hrange : tsBeg ≤ tsEnd) (hend : tsEnd < 2 ^ 32 - 1) :
    (st.characterResult c tsBeg tsEnd).asFilter.Answers fun ts => (st.characterList c ts).pointed where
  lookup ts _ hle := if_pos (by
    have : ts ≤ tsEnd + 1 := hle
    omega)
  small ts list _ _ hl v hv := by
    rw [EntryList.pointed] at hl
    split at hl
    · cases hl
      exact h.entries_lt hv
    · cases hl
  range := hrange
  bound := show tsEnd + 1 < 2 ^ 64 by omega

/-- A lookup yields the entries of its window, or has no result. -/
theorem AtRest.yields_iff {st : Store} (h : st.AtRest) (c : Nat) {tsBeg tsEnd : Nat}
    (hrange : tsBeg ≤ tsEnd) (hend : tsEnd < 2 ^ 32 - 1) (out : List Nat) :
    (st.characterResult c tsBeg tsEnd).Yields out ↔
      st.Unbroken c tsBeg tsEnd ∧ out = st.entriesIn c tsBeg tsEnd := by
  have hpointed : ∀ ts, (st.characterList c ts).pointed ≠ some [] ↔
      ((st.characterList c ts).created = true → (st.characterList c ts).tail ≠ 0) := by
    intro ts
    rw [EntryList.pointed]
    split
    · next hc => simp [hc, EntryList.entries]
    · next hc => simp [hc]
  have hrest : (st.characterResult c tsBeg tsEnd).asFilter.rest
      (fun ts => (st.characterList c ts).pointed) tsBeg = st.entriesIn c tsBeg tsEnd :=
    List.flatMap_congr fun ts _ => h.pointed_getD _
  have heq : (st.characterResult c tsBeg tsEnd).asFilter.Yields out ↔ _ :=
    (h.answers c hrange hend).yields_eq_iff
  rw [← hrest, CharacterResult.yields_iff_asFilter (show tsEnd + 1 < 2 ^ 64 by omega) hrange, heq]
  refine and_congr_left fun _ => ?_
  exact forall_congr' fun ts => forall_congr' fun _ => forall_congr' fun _ => hpointed ts

/-! ## Calls from a store at rest -/

theorem ListsWithin.mono {st : Store} {bound bound' : Nat} (h : st.ListsWithin bound)
    (hle : bound ≤ bound') : st.ListsWithin bound' := by
  refine ⟨fun k j hj => ?_, h.created⟩
  obtain ⟨v, hv, hlt⟩ := h.stored k j hj
  exact ⟨v, hv, Nat.lt_of_lt_of_le hlt hle⟩

theorem ListsWithin.getCharacter {st : Store} {bound : Nat} (h : st.ListsWithin bound)
    (c ts : Nat) : (st.getCharacter c ts).ListsWithin bound := by
  refine ⟨fun k j hj => ?_, fun k hk => ?_⟩
  · rw [(st.getCharacter_same c ts k).1] at hj
    rw [(st.getCharacter_same c ts k).2]
    exact h.stored k j hj
  · rw [(st.getCharacter_same c ts k).1]
    refine h.created k ?_
    rw [getCharacter_lists] at hk
    split at hk
    · cases hk
    · exact hk

theorem ListsWithin.getCharacters {bound : Nat} (c : Nat) (seconds : List Nat) :
    ∀ {st : Store}, st.ListsWithin bound → (st.getCharacters c seconds).ListsWithin bound := by
  induction seconds with
  | nil => exact fun h => h
  | cons ts seconds ih => exact fun h => ih (h.getCharacter c ts)

theorem runAppend_within {st : Store} {bound : Nat} (h : st.ListsWithin bound) {a : Append}
    (ha : ∀ p ∈ a.entries, p.2 < bound) : (st.runAppend a).ListsWithin bound := by
  have hs := storeFrom_slots a (st.lists a.key).tail a.count
    ((st.updateList a.key .create).updateList a.key (·.reserve a)) 0
  obtain ⟨hc, ht⟩ := storeFrom_list a (st.lists a.key).tail a.count a.key
    ((st.updateList a.key .create).updateList a.key (·.reserve a)) 0
  simp only [updateList_self] at hc ht hs
  refine ⟨fun k j hj => ?_, fun k hk => ?_⟩
  · by_cases hka : k = a.key
    · subst hka
      rw [runAppend] at hj ⊢
      rw [ht] at hj
      rw [hs j]
      by_cases hold : j < (st.lists a.key).tail
      · obtain ⟨v, hv, hlt⟩ := h.stored a.key j hold
        rw [if_neg (by omega), EntryList.reserve_slots_other]
        · exact ⟨v, hv, hlt⟩
        · change ¬ ((st.lists a.key).tail ≤ j ∧ _)
          omega
      · have hj' : j < (st.lists a.key).tail + a.count := hj
        rw [if_pos (by omega)]
        exact ⟨_, rfl, ha (a.key, _) (Append.mem_entries.mpr ⟨rfl, _, by omega, rfl⟩)⟩
    · rw [runAppend_other st a hka] at hj ⊢
      exact h.stored k j hj
  · by_cases hka : k = a.key
    · subst hka
      rw [runAppend, hc] at hk
      cases hk
    · rw [runAppend_other st a hka] at hk ⊢
      exact h.created k hk

theorem runOp_within {st : Store} {bound : Nat} (h : st.ListsWithin bound) {op : Op}
    (hop : ∀ p ∈ op.entries st.filters, p.2 < bound) : (st.runOp op).ListsWithin bound := by
  have hlists := runOp_lists st op
  have hwithin : ((op.appended st.filters).elim st st.runAppend).ListsWithin bound := by
    rw [Op.entries] at hop
    cases ha : op.appended st.filters with
    | none => exact h
    | some a =>
      rw [ha] at hop
      exact runAppend_within h hop
  refine ⟨fun k => ?_, fun k => ?_⟩
  · rw [hlists]
    exact hwithin.stored k
  · rw [hlists]
    exact hwithin.created k

theorem runOps_within {bound : Nat} (ops : List Op) : ∀ {st : Store}, st.ListsWithin bound →
    (∀ p ∈ entriesOf st.filters ops, p.2 < bound) → (st.runOps ops).ListsWithin bound := by
  induction ops with
  | nil => exact fun h _ => h
  | cons op ops ih =>
    intro st h hops
    rw [entriesOf_cons] at hops
    refine ih (runOp_within h fun p hp => hops p (List.mem_append_left _ hp)) fun p hp => ?_
    rw [(runOp_sameIds st op).filters] at hp
    exact hops p (List.mem_append_right _ hp)

theorem AtRest.insertPktburst {st st' : Store} {b : Burst} (h : st.AtRest)
    (hins : st.insertPktburst b = some st') : st'.AtRest := by
  rw [Store.insertPktburst] at hins
  split at hins
  · cases hins
    have hids := runOps_sameIds (burstOps b st.writeId st.dtail st.numFilters)
      ((st.requestIdBlock b.cnt).requestBytes b.nbytes)
    refine ⟨hids.writeId.symm, ?_⟩
    have hwithin : st.ListsWithin (st.writeId + b.cnt) :=
      h.lists.mono (by rw [h.ids]; exact Nat.le_add_right _ _)
    have hrequested : ((st.requestIdBlock b.cnt).requestBytes b.nbytes).ListsWithin
        (st.writeId + b.cnt) := ⟨hwithin.stored, hwithin.created⟩
    have hbody : (st.burstBody b).ListsWithin (st.writeId + b.cnt) :=
      runOps_within _ hrequested fun p hp => (entriesOf_burstOps_holds _ hp).2
    exact ⟨hbody.stored, hbody.created⟩
  · cases hins

theorem AtRest.call {st st' : Store} {cl : StoreCall} (h : st.AtRest)
    (hcall : st.call cl = some st') : st'.AtRest := by
  cases cl with
  | addComplexCharacter filter =>
    obtain ⟨⟨st₁, c⟩, hadd, rfl⟩ := Option.map_eq_some_iff.mp hcall
    obtain ⟨-, rfl, rfl⟩ := addComplexCharacter_eq hadd
    exact ⟨h.ids, h.lists.stored, h.lists.created⟩
  | insertPktburst b => exact h.insertPktburst hcall

theorem getCharacters_sameIds (c : Nat) (seconds : List Nat) : ∀ st : Store,
    SameIds st (st.getCharacters c seconds) := by
  induction seconds with
  | nil => exact fun st => ⟨rfl, rfl, rfl, rfl⟩
  | cons ts seconds ih =>
    intro st
    obtain ⟨h1, h2, h3, h4⟩ := ih (st.getCharacter c ts)
    exact ⟨h1, h2, h3, h4⟩

theorem AtRest.getCharacters {st : Store} (h : st.AtRest) (c : Nat) (seconds : List Nat) :
    (st.getCharacters c seconds).AtRest := by
  have hids := getCharacters_sameIds c seconds st
  refine ⟨by rw [hids.readId, hids.writeId]; exact h.ids, ?_⟩
  rw [hids.readId]
  exact h.lists.getCharacters c seconds

/-! ## The same history with and without a created list -/

/-- A use of the store; a lookup changes nothing. -/
inductive Use where
  | call : StoreCall → Use
  | count : (c tsBeg tsEnd : Nat) → Use

/-- The arguments are a character and two seconds. -/
def Use.Fits : Use → Prop
  | .call _ => True
  | .count c tsBeg tsEnd => c < maxFilters ∧ tsBeg < 2 ^ 32 ∧ tsEnd < 2 ^ 32

/-- The uses return, one after the other, and leave this store. -/
inductive Uses : List Use → Store → Store → Prop where
  | nil (st : Store) : Uses [] st st
  | call {cl : StoreCall} {us : List Use} {st st₁ st' : Store} (h : st.call cl = some st₁)
      (hrest : Uses us st₁ st') : Uses (.call cl :: us) st st'
  | count {c tsBeg tsEnd res : Nat} {us : List Use} {st st₁ st' : Store}
      (h : st.CountReturns c tsBeg tsEnd st₁ res) (hrest : Uses us st₁ st') :
      Uses (.count c tsBeg tsEnd :: us) st st'

/-- Lookups and counts have the same results. -/
structure SameResults (st st' : Store) : Prop where
  lookup : ∀ c, c < maxFilters → ∀ tsBeg tsEnd, tsBeg ≤ tsEnd → tsEnd < 2 ^ 32 - 1 → ∀ out,
    (st.characterResult c tsBeg tsEnd).Yields out ↔ (st'.characterResult c tsBeg tsEnd).Yields out
  count : ∀ c, c < maxFilters → ∀ tsBeg tsEnd, tsBeg < 2 ^ 32 → tsEnd < 2 ^ 32 → ∀ res,
    (∃ t, st.CountReturns c tsBeg tsEnd t res) ↔ ∃ t, st'.CountReturns c tsBeg tsEnd t res

/-- After the same further uses, lookups and counts have the same results. -/
def Indistinct (st st' : Store) : Prop := ∀ us : List Use, (∀ u ∈ us, u.Fits) →
  (∀ t, Uses us st t → ∃ t', Uses us st' t' ∧ SameResults t t') ∧
    ∀ t', Uses us st' t' → ∃ t, Uses us st t ∧ SameResults t t'

theorem Indistinct.refl (st : Store) : Indistinct st st := fun _ _ =>
  ⟨fun t h => ⟨t, h, ⟨fun _ _ _ _ _ _ _ => Iff.rfl, fun _ _ _ _ _ _ _ => Iff.rfl⟩⟩,
    fun t h => ⟨t, h, ⟨fun _ _ _ _ _ _ _ => Iff.rfl, fun _ _ _ _ _ _ _ => Iff.rfl⟩⟩⟩

/-! ## Creating a list commutes with the calls -/

theorem updateList_comm (st : Store) (k k' : ListKey) {f g : EntryList → EntryList}
    (h : ∀ l, g (f l) = f (g l)) :
    (st.updateList k f).updateList k' g = (st.updateList k' g).updateList k f := by
  have hlists : Function.update (Function.update st.lists k (f (st.lists k))) k'
        (g (Function.update st.lists k (f (st.lists k)) k')) =
      Function.update (Function.update st.lists k' (g (st.lists k'))) k
        (f (Function.update st.lists k' (g (st.lists k')) k)) := by
    by_cases hk : k = k'
    · subst hk
      simp only [Function.update_self, Function.update_idem, h]
    · rw [Function.update_of_ne (Ne.symm hk), Function.update_of_ne hk, Function.update_comm hk]
  simp only [updateList, hlists]

theorem getCharacter_updateList (st : Store) (c ts : Nat) (k : ListKey)
    {g : EntryList → EntryList} (h : ∀ l, g l.create = (g l).create) :
    (st.getCharacter c ts).updateList k g = (st.updateList k g).getCharacter c ts :=
  st.updateList_comm _ k h

theorem getCharacter_comm (st : Store) (c ts c' ts' : Nat) :
    (st.getCharacter c ts).getCharacter c' ts' = (st.getCharacter c' ts').getCharacter c ts :=
  st.getCharacter_updateList c ts _ fun _ => rfl

theorem storeFrom_getCharacter (c ts : Nat) (a : Append) (idx n : Nat) : ∀ (st : Store) (i : Nat),
    (st.getCharacter c ts).storeFrom a idx i n = (st.storeFrom a idx i n).getCharacter c ts := by
  induction n with
  | zero => exact fun _ _ => rfl
  | succ n ih =>
    intro st i
    rw [storeFrom, storeFrom, ← ih, getCharacter_updateList (g := (·.allocate (idx + i))),
      getCharacter_updateList (g := (·.store (idx + i) (a.first + i)))]
    · exact fun _ => rfl
    · exact fun _ => rfl

theorem runAppend_getCharacter (st : Store) (c ts : Nat) (a : Append) :
    (st.getCharacter c ts).runAppend a = (st.runAppend a).getCharacter c ts := by
  rw [runAppend, runAppend, ← storeFrom_getCharacter, (st.getCharacter_same c ts a.key).1,
    getCharacter_updateList (g := EntryList.create), getCharacter_updateList (g := (·.reserve a))]
  · exact fun _ => rfl
  · exact fun _ => rfl

theorem runOp_getCharacter (st : Store) (c ts : Nat) (op : Op) :
    (st.getCharacter c ts).runOp op = (st.runOp op).getCharacter c ts := by
  cases op with
  | append a => exact st.runAppend_getCharacter c ts a
  | setOfflen id offset length => rfl
  | appendPkt offset second pkt len => rfl
  | character c' second id pkt =>
    have hfilters : (st.getCharacter c ts).filters = st.filters := rfl
    rw [runOp, runOp, hfilters]
    split
    · exact st.runAppend_getCharacter c ts _
    · rfl

theorem runOps_getCharacter (c ts : Nat) (ops : List Op) : ∀ st : Store,
    (st.getCharacter c ts).runOps ops = (st.runOps ops).getCharacter c ts := by
  induction ops with
  | nil => exact fun _ => rfl
  | cons op ops ih =>
    intro st
    rw [runOps, List.foldl_cons, runOp_getCharacter]
    exact ih (st.runOp op)

theorem insertPktburst_getCharacter (st : Store) (c ts : Nat) (b : Burst) :
    (st.getCharacter c ts).insertPktburst b =
      (st.insertPktburst b).map fun st => st.getCharacter c ts := by
  have hbody : (st.getCharacter c ts).burstBody b = (st.burstBody b).getCharacter c ts :=
    runOps_getCharacter c ts _ ((st.requestIdBlock b.cnt).requestBytes b.nbytes)
  rw [insertPktburst, insertPktburst, hbody]
  by_cases h : (st.dtail + b.nbytes) / blockSize < numBlocks ∧
      (st.burstBody b).readId = st.writeId
  · rw [if_pos h]
    exact if_pos h
  · rw [if_neg h]
    exact if_neg h

theorem call_getCharacter (st : Store) (c ts : Nat) (cl : StoreCall) :
    (st.getCharacter c ts).call cl = (st.call cl).map fun st => st.getCharacter c ts := by
  cases cl with
  | insertPktburst b => exact st.insertPktburst_getCharacter c ts b
  | addComplexCharacter filter =>
    have hnum : (st.getCharacter c ts).numFilters = st.numFilters := rfl
    rw [call, call, addComplexCharacter, addComplexCharacter, hnum]
    split <;> rfl

theorem getCharacters_getCharacter (c ts c' : Nat) (seconds : List Nat) : ∀ st : Store,
    (st.getCharacter c ts).getCharacters c' seconds =
      (st.getCharacters c' seconds).getCharacter c ts := by
  induction seconds with
  | nil => exact fun _ => rfl
  | cons ts' seconds ih =>
    intro st
    rw [getCharacters, List.foldl_cons, getCharacter_comm]
    exact ih (st.getCharacter c' ts')

theorem countReturns_getCharacter {st st' : Store} {c ts c' tsBeg tsEnd res : Nat}
    (hc : c' < maxFilters) (hbeg : tsBeg < 2 ^ 32) (hend : tsEnd < 2 ^ 32) :
    (st.getCharacter c ts).CountReturns c' tsBeg tsEnd st' res ↔
      ∃ st₁, st' = st₁.getCharacter c ts ∧ st.CountReturns c' tsBeg tsEnd st₁ res := by
  simp only [countReturns_iff hc hbeg hend, getCharacters_getCharacter, getCharacter_tail]
  constructor
  · rintro ⟨htop, rfl, rfl⟩
    exact ⟨_, rfl, htop, rfl, rfl⟩
  · rintro ⟨st₁, rfl, htop, rfl, rfl⟩
    exact ⟨htop, rfl, rfl⟩

/-- The uses from a store with a list more end with this list more. -/
theorem uses_getCharacter (c ts : Nat) {us : List Use} (hfits : ∀ u ∈ us, u.Fits) :
    ∀ {st t' : Store}, Uses us (st.getCharacter c ts) t' ↔
      ∃ t, t' = t.getCharacter c ts ∧ Uses us st t := by
  induction us with
  | nil =>
    intro st t'
    constructor
    · intro h
      cases h
      exact ⟨st, rfl, .nil st⟩
    · rintro ⟨t, rfl, h⟩
      cases h
      exact .nil _
  | cons u us ih =>
    intro st t'
    have hrest := @ih fun u hu => hfits u (List.mem_cons_of_mem _ hu)
    have hu := hfits u List.mem_cons_self
    constructor
    · intro h
      cases h with
      | call hcall hus =>
        rw [call_getCharacter] at hcall
        obtain ⟨st₁, hst₁, rfl⟩ := Option.map_eq_some_iff.mp hcall
        obtain ⟨t, rfl, ht⟩ := hrest.mp hus
        exact ⟨t, rfl, .call hst₁ ht⟩
      | count hcount hus =>
        obtain ⟨st₁, rfl, hst₁⟩ := (countReturns_getCharacter hu.1 hu.2.1 hu.2.2).mp hcount
        obtain ⟨t, rfl, ht⟩ := hrest.mp hus
        exact ⟨t, rfl, .count hst₁ ht⟩
    · rintro ⟨t, rfl, h⟩
      cases h with
      | call hcall hus =>
        refine .call ?_ (hrest.mpr ⟨t, rfl, hus⟩)
        rw [call_getCharacter, hcall]
        rfl
      | count hcount hus =>
        exact .count ((countReturns_getCharacter hu.1 hu.2.1 hu.2.2).mpr ⟨_, rfl, hcount⟩)
          (hrest.mpr ⟨t, rfl, hus⟩)

theorem Uses.atRest {us : List Use} {st t : Store} (hfits : ∀ u ∈ us, u.Fits) (h : Uses us st t)
    (hst : st.AtRest) : t.AtRest := by
  induction h with
  | nil st => exact hst
  | call hcall hrest ih => exact ih (fun u hu => hfits u (List.mem_cons_of_mem _ hu)) (hst.call hcall)
  | count hcount hrest ih =>
    obtain ⟨hc, hbeg, hend⟩ := hfits _ List.mem_cons_self
    obtain ⟨-, rfl, -⟩ := (countReturns_iff hc hbeg hend).mp hcount
    exact ih (fun u hu => hfits u (List.mem_cons_of_mem _ hu)) (hst.getCharacters _ _)

/-! ## The seconds with a list -/

theorem getCharacter_characterList (st : Store) (c ts c' ts' : Nat) :
    (st.getCharacter c ts).characterList c' ts' =
      if ts' = ts ∧ c' = c then (st.characterList c' ts').create else st.characterList c' ts' := by
  rw [characterList, getCharacter_lists]
  simp only [ListKey.character.injEq]
  rfl

theorem getCharacter_of_created {st : Store} {c ts : Nat}
    (h : (st.characterList c ts).created = true) : st.getCharacter c ts = st := by
  have hcreate : (st.lists (.character ts c)).create = st.lists (.character ts c) := by
    change (st.lists (.character ts c)).created = true at h
    rw [EntryList.create, ← h]
  rw [getCharacter, updateList, hcreate, Function.update_eq_self]

/-- Where every list is there, nothing changes. -/
theorem getCharacters_of_created {st : Store} {c : Nat} {seconds : List Nat}
    (h : ∀ ts ∈ seconds, (st.characterList c ts).created = true) :
    st.getCharacters c seconds = st := by
  induction seconds with
  | nil => rfl
  | cons ts seconds ih =>
    rw [getCharacters, List.foldl_cons, getCharacter_of_created (h ts List.mem_cons_self)]
    exact ih fun t ht => h t (List.mem_cons_of_mem _ ht)

theorem getCharacters_created {c ts : Nat} (seconds : List Nat) : ∀ {st : Store},
    ts ∈ seconds ∨ (st.characterList c ts).created = true →
      ((st.getCharacters c seconds).characterList c ts).created = true := by
  induction seconds with
  | nil =>
    intro st h
    exact h.resolve_left List.not_mem_nil
  | cons t seconds ih =>
    intro st h
    refine ih ?_
    rw [getCharacter_characterList]
    rcases h with h | h
    · rcases List.mem_cons.mp h with rfl | h
      · exact .inr (by rw [if_pos ⟨rfl, rfl⟩]; rfl)
      · exact .inl h
    · right
      split
      · rfl
      · exact h

theorem getCharacters_tail (c : Nat) (seconds : List Nat) (c' ts : Nat) : ∀ st : Store,
    ((st.getCharacters c seconds).characterList c' ts).tail = (st.characterList c' ts).tail := by
  induction seconds with
  | nil => exact fun _ => rfl
  | cons t seconds ih =>
    intro st
    exact (ih (st.getCharacter c t)).trans (st.getCharacter_tail c t c' ts)

/-- A list more in second 0 is not seen: no window has second 0 behind its first one. -/
theorem AtRest.sameResults {st : Store} (h : st.AtRest) (c : Nat) :
    SameResults st (st.getCharacter c 0) := by
  have h' : (st.getCharacter c 0).AtRest := h.getCharacters c [0]
  constructor
  · intro c' _ tsBeg tsEnd hrange hend out
    rw [h.yields_iff c' hrange hend, h'.yields_iff c' hrange hend]
    have hlist : ∀ ts, tsBeg < ts → (st.getCharacter c 0).characterList c' ts =
        st.characterList c' ts := fun ts hts => by
      rw [getCharacter_characterList, if_neg]
      omega
    have hunbroken : (st.getCharacter c 0).Unbroken c' tsBeg tsEnd ↔
        st.Unbroken c' tsBeg tsEnd := by
      refine forall_congr' fun ts => forall_congr' fun hts => ?_
      rw [hlist ts hts]
    have hentries : (st.getCharacter c 0).entriesIn c' tsBeg tsEnd =
        st.entriesIn c' tsBeg tsEnd := by
      refine List.flatMap_congr fun ts _ => ?_
      rw [EntryList.entries, EntryList.entries, getCharacter_tail, characterList,
        (st.getCharacter_same c 0 _).2]
      rfl
    rw [hunbroken, hentries]
  · intro c' hc tsBeg tsEnd hbeg hend res
    constructor
    · rintro ⟨t, ht⟩
      exact ⟨_, (countReturns_getCharacter hc hbeg hend).mpr ⟨t, rfl, ht⟩⟩
    · rintro ⟨t', ht⟩
      obtain ⟨t, -, ht⟩ := (countReturns_getCharacter hc hbeg hend).mp ht
      exact ⟨t, ht⟩

theorem AtRest.indistinct {st : Store} (h : st.AtRest) (c : Nat) :
    Indistinct st (st.getCharacter c 0) := by
  intro us hfits
  constructor
  · intro t ht
    exact ⟨_, (uses_getCharacter c 0 hfits).mpr ⟨t, rfl, ht⟩, (ht.atRest hfits h).sameResults c⟩
  · intro t' ht'
    obtain ⟨t, rfl, ht⟩ := (uses_getCharacter c 0 hfits).mp ht'
    exact ⟨t, ht, (ht.atRest hfits h).sameResults c⟩

/-- A list that a count has created is seen by a lookup from the second before. -/
theorem AtRest.created_of_indistinct {st : Store} (h : st.AtRest) {c : Nat} {seconds : List Nat}
    (hc : c < maxFilters) (hsame : Indistinct st (st.getCharacters c seconds)) {ts : Nat}
    (hts : ts ∈ seconds) (hpos : ts ≠ 0) (hlast : ts < 2 ^ 32 - 1) :
    (st.characterList c ts).created = true := by
  by_contra hno
  obtain ⟨t', ht', hresults⟩ := (hsame [] (by simp)).1 st (.nil st)
  obtain rfl : st.getCharacters c seconds = t' := by
    cases ht'
    rfl
  have htail : (st.characterList c ts).tail = 0 :=
    h.lists.created (.character ts c) (Bool.eq_false_iff.mpr hno)
  have hbefore : st.Unbroken c (ts - 1) ts := by
    intro t hgt hle hcreated
    obtain rfl : t = ts := by omega
    exact absurd hcreated hno
  have hyields := (h.yields_iff c (Nat.sub_le ts 1) hlast _).mpr ⟨hbefore, rfl⟩
  have hafter := ((h.getCharacters c seconds).yields_iff c (Nat.sub_le ts 1) hlast _).mp
    ((hresults.lookup c hc _ _ (Nat.sub_le ts 1) hlast _).mp hyields)
  refine hafter.1 ts (by omega) (Nat.le_refl ts) (getCharacters_created seconds (.inl hts)) ?_
  rw [getCharacters_tail, htail]

/-- From a store at rest a count returns and is not seen later exactly where its window is
empty, or ends before the largest second and the character has a list in each of
its seconds but second 0. -/
theorem AtRest.count_unseen_iff {st : Store} (h : st.AtRest) {c tsBeg tsEnd : Nat}
    (hc : c < maxFilters) (hbeg : tsBeg < 2 ^ 32) (hend : tsEnd < 2 ^ 32) :
    (∃ st' res, st.CountReturns c tsBeg tsEnd st' res ∧ Indistinct st st') ↔
      (tsBeg ≤ tsEnd → tsEnd < 2 ^ 32 - 1 ∧ ∀ ts, tsBeg ≤ ts → ts ≤ tsEnd → ts ≠ 0 →
        (st.characterList c ts).created = true) := by
  have hmem : ∀ ts, ts ∈ List.range' tsBeg (tsEnd + 1 - tsBeg) ↔ tsBeg ≤ ts ∧ ts ≤ tsEnd := by
    intro ts
    rw [List.mem_range'_1]
    omega
  simp only [countReturns_iff hc hbeg hend]
  constructor
  · rintro ⟨st', res, ⟨htop, rfl, -⟩, hsame⟩ hrange
    refine ⟨htop hrange, fun ts hlo hhi hpos => ?_⟩
    exact h.created_of_indistinct hc hsame ((hmem ts).mpr ⟨hlo, hhi⟩) hpos
      (Nat.lt_of_le_of_lt hhi (htop hrange))
  · intro hcond
    refine ⟨_, _, ⟨fun hrange => (hcond hrange).1, rfl, rfl⟩, ?_⟩
    have hcreated : ∀ ts ∈ List.range' tsBeg (tsEnd + 1 - tsBeg), ts ≠ 0 →
        (st.characterList c ts).created = true := fun ts hts hpos => by
      obtain ⟨hlo, hhi⟩ := (hmem ts).mp hts
      exact (hcond (Nat.le_trans hlo hhi)).2 ts hlo hhi hpos
    generalize hlen : tsEnd + 1 - tsBeg = len at hcreated
    cases tsBeg with
    | succ tsBeg =>
      rw [getCharacters_of_created fun ts hts => hcreated ts hts (by
        have := (List.mem_range'_1.mp hts).1
        omega)]
      exact .refl st
    | zero =>
      cases len with
      | zero => exact .refl st
      | succ len =>
        have hrest : (st.getCharacter c 0).getCharacters c (List.range' 1 len) =
            st.getCharacter c 0 := by
          refine getCharacters_of_created fun ts hts => ?_
          have hpos : ts ≠ 0 := by
            have := (List.mem_range'_1.mp hts).1
            omega
          rw [getCharacter_characterList, if_neg (by omega)]
          exact hcreated ts (List.mem_cons_of_mem _ hts) hpos
        rw [List.range'_succ]
        exact Eq.subst (motive := Indistinct st) hrest.symm (h.indistinct c)

end Store

end Netplay
