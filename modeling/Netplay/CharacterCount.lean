import Mathlib.Algebra.Order.BigOperators.Group.List
import Mathlib.Algebra.Order.Group.Nat
import Netplay.CharacterRegistration
import Netplay.CharacterResult
import Netplay.ListGrowth

/-!
# The count of a character

`query_character` specialised for the packet counter: it adds up the sizes of the
character's lists over the seconds of a window, and creates the lists on the way.
-/

namespace Netplay

open Packet NetplayUtils

namespace Store

/-- `char_idx_->get(ts)->get(char_id)`. -/
def getCharacter (st : Store) (c ts : Nat) : Store := st.updateList (.character ts c) .create

/-- The list of a character in a second. -/
def characterList (st : Store) (c ts : Nat) : EntryList := st.lists (.character ts c)

/-- The loop of `query_character<packet_counter>` from the second `ts` on; `ts++` is
on a `uint32_t`. The result goes with the store. -/
def countFrom (c tsEnd : Nat) : Nat → (st : Store) → (ts res : Nat) → Option (Store × Nat)
  | 0, _, _, _ => none
  | n + 1, st, ts, res =>
    if ts ≤ tsEnd then
      if c < maxFilters then
        countFrom c tsEnd n (st.getCharacter c ts) ((ts + 1) % 2 ^ 32)
          (res + ((st.getCharacter c ts).characterList c ts).tail)
      else none
    else some (st, res)

/-- `query_character<packet_counter>` returns the number and leaves this store. -/
def CountReturns (st : Store) (c tsBeg tsEnd : Nat) (st' : Store) (res : Nat) : Prop :=
  ∃ n, ∀ m, n ≤ m → countFrom c tsEnd m st tsBeg 0 = some (st', res)

/-! ## The lists that a count creates -/

/-- The character's lists of these seconds are created. -/
def getCharacters (st : Store) (c : Nat) (seconds : List Nat) : Store :=
  seconds.foldl (fun st ts => st.getCharacter c ts) st

theorem getCharacter_lists (st : Store) (c ts : Nat) (k : ListKey) :
    (st.getCharacter c ts).lists k =
      if k = .character ts c then (st.lists k).create else st.lists k := by
  by_cases hk : k = .character ts c
  · subst hk
    rw [getCharacter, updateList_self, if_pos rfl]
  · rw [getCharacter, updateList_other _ hk, if_neg hk]

theorem getCharacter_same (st : Store) (c ts : Nat) (k : ListKey) :
    ((st.getCharacter c ts).lists k).tail = (st.lists k).tail ∧
      ((st.getCharacter c ts).lists k).slots = (st.lists k).slots := by
  rw [getCharacter_lists]
  split <;> exact ⟨rfl, rfl⟩

theorem getCharacter_tail (st : Store) (c ts c' ts' : Nat) :
    ((st.getCharacter c ts).characterList c' ts').tail = (st.characterList c' ts').tail :=
  (st.getCharacter_same c ts _).1

/-- A count over a window that ends before the largest second returns. -/
theorem countFrom_eq {c tsEnd : Nat} (hc : c < maxFilters) (hend : tsEnd < 2 ^ 32 - 1) (n : Nat) :
    ∀ {st : Store} {ts res : Nat}, ts ≤ tsEnd + 1 → tsEnd + 1 < n + ts →
      countFrom c tsEnd n st ts res = some (st.getCharacters c (List.range' ts (tsEnd + 1 - ts)),
        res + ((List.range' ts (tsEnd + 1 - ts)).map fun ts => (st.characterList c ts).tail).sum) := by
  induction n with
  | zero =>
    intro st ts res hle hn
    omega
  | succ n ih =>
    intro st ts res hle hn
    rw [countFrom, if_pos hc]
    split
    · next hts =>
      have hlen : tsEnd + 1 - ts = tsEnd + 1 - (ts + 1) + 1 := by omega
      have hmod : (ts + 1) % 2 ^ 32 = ts + 1 := Nat.mod_eq_of_lt (by omega)
      rw [hmod, ih (by omega) (by omega), hlen, List.range'_succ, List.map_cons,
        List.sum_cons, ← Nat.add_assoc]
      simp only [getCharacter_tail]
      rfl
    · next hts =>
      rw [Nat.sub_eq_zero_of_le (by omega)]
      rfl

/-- Up to the largest second the loop does not end. -/
theorem countFrom_top {c : Nat} (n : Nat) : ∀ {st : Store} {ts res : Nat}, ts < 2 ^ 32 →
    countFrom c (2 ^ 32 - 1) n st ts res = none := by
  induction n with
  | zero => exact fun _ => rfl
  | succ n ih =>
    intro st ts res hts
    rw [countFrom, if_pos (Nat.le_sub_one_of_lt hts)]
    split
    · exact ih (Nat.mod_lt _ (by decide))
    · rfl

/-- What a count does, and when it returns. -/
theorem countReturns_iff {st st' : Store} {c tsBeg tsEnd res : Nat} (hc : c < maxFilters)
    (hbeg : tsBeg < 2 ^ 32) (hend : tsEnd < 2 ^ 32) : st.CountReturns c tsBeg tsEnd st' res ↔
      (tsBeg ≤ tsEnd → tsEnd < 2 ^ 32 - 1) ∧
        st' = st.getCharacters c (List.range' tsBeg (tsEnd + 1 - tsBeg)) ∧
        res = ((List.range' tsBeg (tsEnd + 1 - tsBeg)).map fun ts =>
          (st.characterList c ts).tail).sum := by
  by_cases hle : tsBeg ≤ tsEnd
  · by_cases htop : tsEnd < 2 ^ 32 - 1
    · have heq : ∀ m, tsEnd + 2 ≤ m → countFrom c tsEnd m st tsBeg 0 =
          some (st.getCharacters c (List.range' tsBeg (tsEnd + 1 - tsBeg)),
            ((List.range' tsBeg (tsEnd + 1 - tsBeg)).map fun ts =>
              (st.characterList c ts).tail).sum) := by
        intro m hm
        rw [countFrom_eq hc htop m (by omega) (by omega), Nat.zero_add]
      constructor
      · rintro ⟨n, hn⟩
        have := hn (n + (tsEnd + 2)) (by omega)
        rw [heq _ (by omega), Option.some.injEq, Prod.mk.injEq] at this
        exact ⟨fun _ => htop, this.1.symm, this.2.symm⟩
      · rintro ⟨-, rfl, rfl⟩
        exact ⟨tsEnd + 2, heq⟩
    · obtain rfl : tsEnd = 2 ^ 32 - 1 := by omega
      refine iff_of_false ?_ fun h => htop (h.1 hle)
      rintro ⟨n, hn⟩
      have := hn n (Nat.le_refl n)
      rw [countFrom_top n hbeg] at this
      cases this
  · have hlen : tsEnd + 1 - tsBeg = 0 := by omega
    rw [hlen]
    constructor
    · rintro ⟨n, hn⟩
      have := hn (n + 1) (Nat.le_succ n)
      rw [countFrom, if_neg hle, Option.some.injEq, Prod.mk.injEq] at this
      exact ⟨fun h => absurd h hle, this.1.symm, this.2.symm⟩
    · rintro ⟨-, rfl, rfl⟩
      refine ⟨1, fun m hm => ?_⟩
      obtain ⟨m, rfl⟩ : ∃ k, m = k + 1 := ⟨m - 1, by omega⟩
      rw [countFrom, if_neg hle]
      rfl

end Store

/-! ## The published ids of a character -/

/-- The position holds a published id. -/
def Slot.published (numPkts : Nat) : Slot → Bool
  | .stored v => decide (v < numPkts)
  | _ => false

/-- The number of published ids in a list. -/
def EntryList.published (l : EntryList) (numPkts : Nat) : Nat :=
  ((List.range l.tail).filter fun j => (l.slots j).published numPkts).length

theorem EntryList.published_le (l : EntryList) (numPkts : Nat) : l.published numPkts ≤ l.tail := by
  have := List.length_filter_le (fun j => (l.slots j).published numPkts) (List.range l.tail)
  rwa [List.length_range] at this

theorem EntryList.published_eq_iff (l : EntryList) (numPkts : Nat) :
    l.published numPkts = l.tail ↔ ∀ j, j < l.tail → (l.slots j).published numPkts = true := by
  have hlen : l.published numPkts = l.tail ↔
      ((List.range l.tail).filter fun j => (l.slots j).published numPkts).length =
        (List.range l.tail).length := by rw [List.length_range]; rfl
  rw [hlen, List.length_filter_eq_length_iff]
  simp only [List.mem_range]

theorem sum_eq_iff {f g : Nat → Nat} (seconds : List Nat) (hle : ∀ ts ∈ seconds, g ts ≤ f ts) :
    (seconds.map f).sum = (seconds.map g).sum ↔ ∀ ts ∈ seconds, f ts = g ts := by
  induction seconds with
  | nil => simp
  | cons ts seconds ih =>
    have hrest : (seconds.map g).sum ≤ (seconds.map f).sum :=
      List.sum_le_sum fun t ht => hle t (List.mem_cons_of_mem _ ht)
    have hts := hle ts List.mem_cons_self
    rw [List.map_cons, List.map_cons, List.sum_cons, List.sum_cons, List.forall_mem_cons,
      ← ih fun t ht => hle t (List.mem_cons_of_mem _ ht)]
    omega

namespace Store

/-- The number of published ids in the lists of a character, from second to second. -/
def publishedIn (st : Store) (c tsBeg tsEnd : Nat) : Nat :=
  ((List.range' tsBeg (tsEnd + 1 - tsBeg)).map fun ts =>
    (st.characterList c ts).published st.numPkts).sum

/-- The count returns the number of published ids exactly where the window ends before
the largest second and every position taken in one of its lists holds a published id. -/
theorem count_published_iff (st : Store) {c tsBeg tsEnd : Nat} (hc : c < maxFilters)
    (hrange : tsBeg ≤ tsEnd) (hend : tsEnd < 2 ^ 32) :
    (∃ st', st.CountReturns c tsBeg tsEnd st' (st.publishedIn c tsBeg tsEnd)) ↔
      tsEnd < 2 ^ 32 - 1 ∧ ∀ ts, tsBeg ≤ ts → ts ≤ tsEnd →
        ∀ j, j < (st.characterList c ts).tail →
          ((st.characterList c ts).slots j).published st.numPkts = true := by
  have hsum := sum_eq_iff (f := fun ts => (st.characterList c ts).tail)
    (g := fun ts => (st.characterList c ts).published st.numPkts)
    (List.range' tsBeg (tsEnd + 1 - tsBeg)) fun ts _ => (st.characterList c ts).published_le _
  have hmem : ∀ ts, ts ∈ List.range' tsBeg (tsEnd + 1 - tsBeg) ↔ tsBeg ≤ ts ∧ ts ≤ tsEnd := by
    intro ts
    rw [List.mem_range'_1]
    omega
  simp only [countReturns_iff hc (Nat.lt_of_le_of_lt hrange hend) hend]
  constructor
  · rintro ⟨-, htop, -, hres⟩
    refine ⟨htop hrange, fun ts hbeg hle => ?_⟩
    have heq := hsum.mp hres.symm ts ((hmem ts).mpr ⟨hbeg, hle⟩)
    exact ((st.characterList c ts).published_eq_iff _).mp heq.symm
  · rintro ⟨htop, hall⟩
    refine ⟨_, fun _ => htop, rfl, (hsum.mpr fun ts hts => ?_).symm⟩
    obtain ⟨hbeg, hle⟩ := (hmem ts).mp hts
    exact (((st.characterList c ts).published_eq_iff _).mpr (hall ts hbeg hle)).symm

end Store

namespace System

/-- A burst that has listed its packet for a character and has not ended. -/
def listing : System Unit :=
  (init 1 fun _ => [openFilter]).put () ((Store.init 1 fun _ => [openFilter]).burstBody
    (Store.blankBurst 7)) (.running (Store.blankBurst 7) 0 0 1 none [])

/-- The count sees the packet of the burst in flight; up to the largest second it
does not end. -/
theorem listing_counted : Reached 1 (fun _ => [openFilter]) listing ∧
    listing.store.publishedIn 0 7 7 = 0 ∧
    (¬ ∃ st', listing.store.CountReturns 0 7 7 st' 0) ∧
    ∀ st' res, ¬ listing.store.CountReturns 0 7 (2 ^ 32 - 1) st' res := by
  have hone : (listing.store.characterList 0 7).tail = 1 := rfl
  refine ⟨burstBody_run (init 1 fun _ => [openFilter]) (w := ()) (Store.blankBurst 7) rfl
    (by decide), rfl, ?_, fun st' res h => ?_⟩
  · rintro ⟨st', h⟩
    have := ((Store.countReturns_iff (by decide) (by decide) (by decide)).mp h).2.2
    simp [hone] at this
  · exact absurd (((Store.countReturns_iff (by decide) (by decide) (by decide)).mp h).1 (by decide))
      (by decide)

end System

end Netplay
