import Netplay.CountHistory

/-!
# The two counts of a character

`query_character` for the packet counter is specialised to a sum of list sizes, and has a
generic form that takes the size of the character's lookup. Both give the number of published
ids where all that the window holds is published and the lookup stands in no empty list.
-/

namespace Netplay

open Packet NetplayUtils

namespace Store

/-- The store as it reads, `junk` being what is in memory where nothing is stored. -/
def readWith (st : Store) (junk : ListKey → Nat → Nat) : Store :=
  { st with lists := fun k =>
      { st.lists k with slots := fun j => .stored (((st.lists k).slots j).read (junk k j)) } }

/-- The generic `query_character` for the packet counter: `size` of the result of
`complex_character_lookup`, whatever is read where nothing is stored. -/
def LookupCounts (st : Store) (c tsBeg tsEnd res : Nat) : Prop :=
  ∀ junk, ∃ n, ∀ m, n ≤ m → ((st.readWith junk).characterResult c tsBeg tsEnd).size m = some res

/-- Every position taken in a list of the window holds a published id. -/
def PublishedIn (st : Store) (c tsBeg tsEnd : Nat) : Prop :=
  ∀ ts, tsBeg ≤ ts → ts ≤ tsEnd → ∀ j, j < (st.characterList c ts).tail →
    ((st.characterList c ts).slots j).published st.numPkts = true

variable {st : Store} {c tsBeg tsEnd : Nat}

theorem readWith_pointed (junk : ListKey → Nat → Nat) (ts : Nat) :
    ((st.readWith junk).characterList c ts).pointed =
      if (st.characterList c ts).created then
        some ((List.range (st.characterList c ts).tail).map fun j =>
          ((st.characterList c ts).slots j).read (junk (.character ts c) j))
      else none := rfl

theorem published_read {numPkts junk : Nat} {slot : Slot} (h : slot.published numPkts = true) :
    slot.read junk < numPkts := by
  cases slot with
  | free => cases h
  | reserved v => cases h
  | stored v => exact of_decide_eq_true h

theorem PublishedIn.answers (h : st.PublishedIn c tsBeg tsEnd) (hrange : tsBeg ≤ tsEnd)
    (hend : tsEnd < 2 ^ 32 - 1) (junk : ListKey → Nat → Nat) :
    ((st.readWith junk).characterResult c tsBeg tsEnd).asFilter.Answers
      fun ts => ((st.readWith junk).characterList c ts).pointed where
  lookup ts _ hle := if_pos (by
    have : ts ≤ tsEnd + 1 := hle
    omega)
  small ts list hbeg hle hl v hv := by
    rw [readWith_pointed] at hl
    split at hl
    · obtain rfl := Option.some.inj hl
      obtain ⟨j, hj, rfl⟩ := List.mem_map.mp hv
      exact published_read (h ts hbeg hle j (List.mem_range.mp hj))
    · cases hl
  range := hrange
  bound := show tsEnd + 1 < 2 ^ 64 by omega

/-- The entries that the lookup has are those of the lists. -/
theorem length_rest (hnull : ∀ ts, (st.characterList c ts).created = false →
    (st.characterList c ts).tail = 0) (junk : ListKey → Nat → Nat) :
    (((st.readWith junk).characterResult c tsBeg tsEnd).asFilter.rest
      (fun ts => ((st.readWith junk).characterList c ts).pointed) tsBeg).length =
      ((List.range' tsBeg (tsEnd + 1 - tsBeg)).map fun ts => (st.characterList c ts).tail).sum := by
  rw [FilterResult.rest, List.length_flatMap]
  refine congrArg List.sum (List.map_congr_left fun ts _ => ?_)
  rw [readWith_pointed]
  split
  · simp
  · next hc => simp [hnull ts (by simpa using hc)]

/-- Where the window holds published ids only, the lookup has its size exactly where it stands in
no empty list. -/
theorem PublishedIn.lookupCounts_iff (h : st.PublishedIn c tsBeg tsEnd) (hrange : tsBeg ≤ tsEnd)
    (hend : tsEnd < 2 ^ 32 - 1) (hnull : ∀ ts, (st.characterList c ts).created = false →
      (st.characterList c ts).tail = 0) (res : Nat) :
    st.LookupCounts c tsBeg tsEnd res ↔ st.Unbroken c tsBeg tsEnd ∧
      res = ((List.range' tsBeg (tsEnd + 1 - tsBeg)).map fun ts =>
        (st.characterList c ts).tail).sum := by
  have hpointed : ∀ junk ts, ((st.readWith junk).characterList c ts).pointed ≠ some [] ↔
      ((st.characterList c ts).created = true → (st.characterList c ts).tail ≠ 0) := by
    intro junk ts
    rw [readWith_pointed]
    split
    · next hc => simp [hc]
    · next hc => simp [hc]
  have hone : ∀ junk, (∃ n, ∀ m, n ≤ m →
      ((st.readWith junk).characterResult c tsBeg tsEnd).size m = some res) ↔
      st.Unbroken c tsBeg tsEnd ∧ res = ((List.range' tsBeg (tsEnd + 1 - tsBeg)).map fun ts =>
        (st.characterList c ts).tail).sum := by
    intro junk
    rw [CharacterResult.size_iff (h.answers hrange hend junk), ← length_rest hnull junk]
    refine and_congr_left fun _ => ?_
    exact forall_congr' fun ts => forall_congr' fun _ => forall_congr' fun _ => hpointed junk ts
  exact ⟨fun hall => (hone fun _ _ => 0).mp (hall _), fun hboth junk => (hone junk).mpr hboth⟩

end Store

namespace Registering

variable {ω ρ : Type} [DecidableEq ω] [DecidableEq ρ]

/-- In every state that bursts, registrations and counts lead to, the count and the size of the
lookup are the number of published ids exactly where the window ends before the largest second,
every position taken in its lists holds a published id, and no list behind the first second of
the window is empty. -/
theorem counts_agree_iff {s : Registering ω ρ}
    (hs : Relation.ReflTransGen CountingStep init s) {c tsBeg tsEnd : Nat} (hc : c < maxFilters)
    (hrange : tsBeg ≤ tsEnd) (hend : tsEnd < 2 ^ 32) :
    ((∃ st', s.system.store.CountReturns c tsBeg tsEnd st'
        (s.system.store.publishedIn c tsBeg tsEnd)) ∧
      s.system.store.LookupCounts c tsBeg tsEnd (s.system.store.publishedIn c tsBeg tsEnd)) ↔
    tsEnd < 2 ^ 32 - 1 ∧ s.system.store.PublishedIn c tsBeg tsEnd ∧
      s.system.store.Unbroken c tsBeg tsEnd := by
  have hnull : ∀ ts, (s.system.store.characterList c ts).created = false →
      (s.system.store.characterList c ts).tail = 0 :=
    fun ts => (countsKept_run hs).lists.tail (.character ts c)
  rw [Store.count_published_iff s.system.store hc hrange hend]
  constructor
  · rintro ⟨⟨htop, hpub⟩, hlookup⟩
    have hpub : s.system.store.PublishedIn c tsBeg tsEnd := hpub
    exact ⟨htop, hpub, ((hpub.lookupCounts_iff hrange htop hnull _).mp hlookup).1⟩
  · rintro ⟨htop, hpub, hunbroken⟩
    have hcount := (Store.count_published_iff s.system.store hc hrange hend).mpr ⟨htop, hpub⟩
    obtain ⟨st', hst'⟩ := hcount
    have hsum := ((Store.countReturns_iff hc (Nat.lt_of_le_of_lt hrange hend) hend).mp hst').2.2
    exact ⟨⟨htop, hpub⟩, (hpub.lookupCounts_iff hrange htop hnull _).mpr ⟨hunbroken, hsum⟩⟩

/-- Two bursts of second 7 in a character, counted over the seconds around. -/
theorem counts_agree_assignedBetween : ∃ s : Registering Bool Unit,
    (∃ st', s.system.store.CountReturns 0 6 8 st' (s.system.store.publishedIn 0 6 8)) ∧
    s.system.store.LookupCounts 0 6 8 (s.system.store.publishedIn 0 6 8) := by
  obtain ⟨s, hrun, hread, htail, hzero, hone, hsix, height⟩ := assignedBetween_run
  have hs : Relation.ReflTransGen CountingStep init s :=
    hrun.lift id fun _ _ h => .act h.1
  have hnull := fun ts => (countsKept_run hs).lists.tail (.character ts 0)
  refine ⟨s, (counts_agree_iff hs (by decide) (by decide) (by decide)).mpr ⟨by decide, ?_, ?_⟩⟩
  · intro ts hbeg hle j hj
    have hseconds : ts = 6 ∨ ts = 7 ∨ ts = 8 := by omega
    rcases hseconds with rfl | rfl | rfl
    · rw [Store.characterList, hnull 6 hsix] at hj
      cases hj
    · rw [Store.characterList, htail] at hj
      have hslots : j = 0 ∨ j = 1 := by omega
      rw [Store.characterList, Store.numPkts, hread]
      rcases hslots with rfl | rfl
      · rw [hzero]
        rfl
      · rw [hone]
        rfl
    · rw [Store.characterList, hnull 8 height] at hj
      cases hj
  · intro ts hbeg hle hcreated
    have hseconds : ts = 7 ∨ ts = 8 := by omega
    rcases hseconds with rfl | rfl
    · rw [Store.characterList, htail]
      decide
    · rw [Store.characterList, height] at hcreated
      cases hcreated

end Registering

end Netplay
