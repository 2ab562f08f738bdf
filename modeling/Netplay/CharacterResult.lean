import Netplay.FilterResult
import Netplay.TieredIndex

/-!
# The iterator of a character

`complex_character_index` and its `result` over an index that nobody changes
meanwhile. Over a range that is not reversed the iterator is the one of a filter;
it differs in the test of the second in front of the loop and in `operator++`.
-/

namespace Netplay

/-- `char_index`: the entry list of each character. -/
abbrev CharIndex := Nat → Option (List Nat)

/-- `time_char_index`: the `char_index` of each second. -/
def CharacterIndex : Type := Tier CharIndex [65536, 65536]

namespace CharacterIndex

def fresh : CharacterIndex := Tier.fresh [65536, 65536]

/-- `at(ts)` and then `at(char_id)`. It has no result for a key outside an index. -/
def atKey (index : CharacterIndex) (c ts : Nat) : Option (Option (List Nat)) :=
  if Tier.inBounds [65536, 65536] ts then
    match Tier.atKey [65536, 65536] index ts with
    | none => some none
    | some chars => if c < 65536 then some (chars c) else none
  else none

/-- The entry list of a character in a second, where the pointers are not null. -/
def list (index : CharacterIndex) (c ts : Nat) : Option (List Nat) :=
  (Tier.atKey [65536, 65536] index ts).bind fun chars => chars c

theorem atKey_eq (index : CharacterIndex) {c ts : Nat} (hc : c < 65536) (hts : ts < 2 ^ 32) :
    index.atKey c ts = some (index.list c ts) := by
  have hin : Tier.inBounds [65536, 65536] ts = true :=
    Tier.inBounds_of_lt hts
  rw [atKey, if_pos hin, list]
  cases Tier.atKey [65536, 65536] index ts with
  | none => rfl
  | some chars => exact if_pos hc

/-- `get(ts)->get(char_id)->push_back(val)`. -/
def added (index : CharacterIndex) (c ts val : Nat) : CharacterIndex :=
  Tier.modify (fun chars => Function.update chars c (some ((chars c).getD [] ++ [val])))
    [65536, 65536] index ts

/-- The insertion of an id for a character in a second; undefined outside the indexes. -/
def addEntry (index : CharacterIndex) (c ts val : Nat) : Option CharacterIndex :=
  if Tier.inBounds [65536, 65536] ts ∧ c < 65536 then some (index.added c ts val) else none

theorem list_added_cases (index : CharacterIndex) (c ts val c' ts' : Nat) :
    (index.added c ts val).list c' ts' = index.list c' ts' ∨
      (index.added c ts val).list c' ts' = some ((index.list c' ts').getD [] ++ [val]) := by
  have hcases := Tier.atKey_modify_cases (fun chars : CharIndex =>
    Function.update chars c (some ((chars c).getD [] ++ [val]))) [65536, 65536] index ts ts'
  have hread : (index.added c ts val).list c' ts' =
      (Tier.atKey [65536, 65536] (index.added c ts val) ts').bind fun chars => chars c' := rfl
  rcases hcases with hsame | hnew
  · exact .inl (hread.trans (congrArg (fun t => t.bind fun chars => chars c') hsame))
  · have hlist := hread.trans (congrArg (fun t => t.bind fun chars => chars c') hnew)
    rw [Option.bind_some] at hlist
    have hold : ((Tier.atKey [65536, 65536] index ts').getD default) c' = index.list c' ts' := by
      rw [list]
      cases Tier.atKey [65536, 65536] index ts' <;> rfl
    by_cases hc : c' = c
    · subst hc
      rw [Function.update_self, hold] at hlist
      exact .inr hlist
    · rw [Function.update_of_ne hc, hold] at hlist
      exact .inl hlist

end CharacterIndex

/-- `complex_character_index::result`; `lookup` gives the list of the character in a second. -/
structure CharacterResult where
  lookup : Nat → Option (Option (List Nat))
  tsBeg : Nat
  tsEnd : Nat
  maxRid : Nat

/-- `filter` of the index. -/
def CharacterIndex.filter (index : CharacterIndex) (c tsBeg tsEnd maxRid : Nat) : CharacterResult :=
  ⟨index.atKey c, tsBeg, tsEnd, maxRid⟩

namespace CharacterResult

variable (r : CharacterResult)

/-- The filter over the same range of the same lists. -/
def asFilter : FilterResult := ⟨some r.lookup, r.tsBeg, r.tsEnd, r.maxRid⟩

/-- The loop has its test in front; behind it, it is the loop of a filter. -/
def advance (n : Nat) (it : FilterIterator) : Option FilterIterator :=
  if it.tok = inc64 r.tsEnd then some it
  else if { it with idx := it.idx + 1 }.exhausted then
    if it.tok ≤ r.tsEnd then r.asFilter.nextToken n it.tok else some ⟨it.tok, 0, none⟩
  else some { it with idx := it.idx + 1 }

/-- `operator++`. -/
def increment : Nat → FilterIterator → Option FilterIterator
  | 0, _ => none
  | n + 1, it => (r.advance n it).bind fun it =>
    if it.tok ≤ r.tsEnd then
      it.deref.bind fun v => if r.maxRid ≤ v then increment n it else some it
    else some it

/-- `begin()`. -/
def start (n : Nat) : Option FilterIterator :=
  (r.lookup r.tsBeg).bind fun list => r.advance n ⟨r.tsBeg, -1, list⟩

/-- `it == end()`. -/
def finished (it : FilterIterator) : Bool := it.idx == 0 && it.tok == inc64 r.tsEnd

/-- The loop `for (it = begin(); it != end(); ++it)` from a position on. -/
def iterate : Nat → FilterIterator → Option (List Nat)
  | 0, _ => none
  | n + 1, it =>
    if r.finished it then some []
    else it.deref.bind fun v => (r.increment n it).bind fun it => (iterate n it).map (v :: ·)

/-- The ids that the loop visits, if it ends within the steps. -/
def ids (n : Nat) : Option (List Nat) := (r.start n).bind (r.iterate n)

/-- The loop ends and has visited the ids in this order. -/
def Yields (out : List Nat) : Prop := ∃ n, ∀ m, n ≤ m → r.ids m = some out

/-- The loop of `size` from a position on. -/
def sizeFrom : Nat → FilterIterator → Option Nat
  | 0, _ => none
  | n + 1, it =>
    if r.finished it then some 0
    else (r.increment n it).bind fun it => (sizeFrom n it).map (· + 1)

def size (n : Nat) : Option Nat := (r.start n).bind (r.sizeFrom n)

/-- The size is the number of ids that the loop visits. -/
theorem sizeFrom_eq {r : CharacterResult} (n : Nat) : ∀ {it : FilterIterator} {out : List Nat},
    r.iterate n it = some out → r.sizeFrom n it = some out.length := by
  induction n with
  | zero =>
    intro it out h
    cases h
  | succ n ih =>
    intro it out h
    rw [iterate] at h
    rw [sizeFrom]
    split at h
    · next hfin =>
      cases h
      exact if_pos hfin
    · next hfin =>
      obtain ⟨v, -, h⟩ := Option.bind_eq_some_iff.mp h
      obtain ⟨it', hinc, h⟩ := Option.bind_eq_some_iff.mp h
      obtain ⟨vs, hvs, rfl⟩ := Option.map_eq_some_iff.mp h
      rw [if_neg hfin, hinc, Option.bind_some, ih hvs]
      rfl

theorem size_eq {r : CharacterResult} {n : Nat} {out : List Nat} (h : r.ids n = some out) :
    r.size n = some out.length := by
  obtain ⟨it, hit, hout⟩ := Option.bind_eq_some_iff.mp h
  rw [size, hit]
  exact sizeFrom_eq n hout

/-! ## A range that is not reversed -/

variable {r : CharacterResult}

theorem nextToken_le {r : FilterResult} (hend : r.tokMax + 1 < 2 ^ 64) {n : Nat} :
    ∀ {tok : Nat} {it : FilterIterator}, tok ≤ r.tokMax → r.nextToken n tok = some it →
      it.tok ≤ r.tokMax + 1 := by
  induction n with
  | zero =>
    intro tok it _ h
    cases h
  | succ n ih =>
    intro tok it htok h
    have hinc : inc64 tok = tok + 1 := inc64_eq (by omega)
    rw [FilterResult.nextToken, hinc] at h
    obtain ⟨list, -, h⟩ := Option.bind_eq_some_iff.mp h
    split at h
    · next hgo => exact ih hgo.2 h
    · cases h
      exact Nat.succ_le_succ htok

section

variable (hend : r.tsEnd + 1 < 2 ^ 64)

include hend

theorem advance_eq (n : Nat) {it : FilterIterator} (hit : it.tok ≤ r.tsEnd + 1) :
    r.advance n it = r.asFilter.advance n it := by
  have hinc : inc64 r.tsEnd = r.tsEnd + 1 := inc64_eq hend
  by_cases htok : it.tok = r.tsEnd + 1
  · rw [advance, FilterResult.advance, hinc, if_pos htok]
    exact (if_pos (htok.trans hinc.symm)).symm
  · rw [advance, if_pos (show it.tok ≤ r.tsEnd by omega)]
    rfl

theorem advance_le (n : Nat) {it it' : FilterIterator} (hit : it.tok ≤ r.tsEnd + 1)
    (h : r.advance n it = some it') : it'.tok ≤ r.tsEnd + 1 := by
  rw [advance] at h
  split at h
  · cases h
    exact hit
  · split at h
    · split at h
      · next hle => exact nextToken_le (r := r.asFilter) hend hle h
      · cases h
        exact hit
    · cases h
      exact hit

theorem increment_eq (n : Nat) : ∀ {it : FilterIterator}, it.tok ≤ r.tsEnd + 1 →
    r.increment n it = r.asFilter.increment n it ∧
      ∀ it', r.increment n it = some it' → it'.tok ≤ r.tsEnd + 1 := by
  induction n with
  | zero => exact fun _ => ⟨rfl, fun it' h => by cases h⟩
  | succ n ih =>
    intro it hit
    have hinc : inc64 r.asFilter.tokMax = r.tsEnd + 1 := inc64_eq hend
    rw [increment, FilterResult.increment, ← advance_eq hend n hit]
    cases hadv : r.advance n it with
    | none => exact ⟨rfl, fun it' h => by cases h⟩
    | some it₁ =>
      have hle := advance_le hend n hit hadv
      rw [Option.bind_some, Option.bind_some, hinc]
      by_cases htok : it₁.tok = r.tsEnd + 1
      · rw [if_neg (by omega), if_pos htok]
        refine ⟨rfl, fun it' h => ?_⟩
        cases h
        exact hle
      · rw [if_pos (by omega), if_neg htok]
        cases it₁.deref with
        | none => exact ⟨rfl, fun it' h => by cases h⟩
        | some v =>
          rw [Option.bind_some, Option.bind_some]
          by_cases hv : r.maxRid ≤ v
          · rw [if_pos hv, if_pos (show r.asFilter.maxRid ≤ v from hv)]
            exact ih hle
          · rw [if_neg hv, if_neg (show ¬ r.asFilter.maxRid ≤ v from hv)]
            refine ⟨rfl, fun it' h => ?_⟩
            cases h
            exact hle

theorem iterate_eq (n : Nat) : ∀ {it : FilterIterator}, it.tok ≤ r.tsEnd + 1 →
    r.iterate n it = r.asFilter.iterate n it := by
  induction n with
  | zero => exact fun _ => rfl
  | succ n ih =>
    intro it hit
    obtain ⟨heq, hle⟩ := increment_eq hend n hit
    have hfin : r.finished it = r.asFilter.finished it := Bool.and_comm _ _
    rw [iterate, FilterResult.iterate, hfin, ← heq]
    refine if_congr Iff.rfl rfl ?_
    refine Option.bind_congr fun v _ => Option.bind_congr fun it' hit' => ?_
    rw [ih (hle it' hit')]

theorem start_eq (hrange : r.tsBeg ≤ r.tsEnd) (n : Nat) : r.start n = r.asFilter.start n := by
  have hfirst : r.asFilter.firstList = r.lookup r.tsBeg := rfl
  rw [start, FilterResult.start, hfirst]
  exact Option.bind_congr fun list _ => advance_eq hend n (Nat.le_succ_of_le hrange)

/-- Over a range that is not reversed the loop is the loop over a filter. -/
theorem ids_eq (hrange : r.tsBeg ≤ r.tsEnd) (n : Nat) : r.ids n = r.asFilter.ids n := by
  rw [ids, FilterResult.ids, ← start_eq hend hrange]
  refine Option.bind_congr fun it hit => iterate_eq hend n ?_
  obtain ⟨list, -, hadv⟩ := Option.bind_eq_some_iff.mp hit
  exact advance_le hend n (Nat.le_succ_of_le hrange) hadv

theorem yields_iff_asFilter (hrange : r.tsBeg ≤ r.tsEnd) (out : List Nat) :
    r.Yields out ↔ r.asFilter.Yields out := by
  simp only [Yields, FilterResult.Yields, ids_eq hend hrange]

/-! ## The size of a range with an empty list -/

section

variable {lists : Nat → Option (List Nat)} {stop : Nat} (h : r.asFilter.Answers lists)
  (hle : stop ≤ r.tsEnd) (hempty : lists stop = some [])

include h hle hempty

theorem sizeFrom_stops (n : Nat) : ∀ {it : FilterIterator}, r.asFilter.InFront lists stop it →
    r.sizeFrom n it = none := by
  induction n with
  | zero => exact fun _ => rfl
  | succ n ih =>
    intro it hit
    have htok : it.tok < stop := by
      cases hit with
      | entry tok i list hmin hstop hl hi => exact hstop
    have hnot : ¬ r.finished it = true := by
      have hne : it.tok ≠ inc64 r.tsEnd := h.tok_ne (show it.tok ≤ r.tsEnd by omega)
      simp [finished, hne]
    rw [sizeFrom, if_neg hnot, (increment_eq hend n (show it.tok ≤ r.tsEnd + 1 by omega)).1]
    refine Option.bind_eq_none_iff.mpr fun it' hinc => ?_
    rw [ih (FilterResult.increment_stops h hle hempty n hit hinc), Option.map_none]

/-- The loop of `size` over a range with an empty list behind the first second has no result. -/
theorem size_none (hmin : r.tsBeg < stop) (n : Nat) : r.size n = none := by
  refine Option.bind_eq_none_iff.mpr fun it hit => ?_
  rw [start_eq hend h.range] at hit
  rcases FilterResult.start_stops h hle hempty hmin hit with hfront | hon
  · exact sizeFrom_stops hend h hle hempty n hfront
  · cases n with
    | zero => rfl
    | succ n =>
      have htok : it.tok ≤ r.tsEnd := hon.1
      have hnot : ¬ r.finished it = true := by
        have hne : it.tok ≠ inc64 r.tsEnd := h.tok_ne hon.1
        simp [finished, hne]
      rw [sizeFrom, if_neg hnot, (increment_eq hend n (Nat.le_succ_of_le htok)).1,
        hon.increment h, Option.bind_none]

end

end

/-- The size comes back exactly where no list behind the first second is empty, and is the number
of the entries. -/
theorem size_iff {lists : Nat → Option (List Nat)} (h : r.asFilter.Answers lists) (res : Nat) :
    (∃ n, ∀ m, n ≤ m → r.size m = some res) ↔
      r.asFilter.NoneEmpty lists ∧ res = (r.asFilter.rest lists r.tsBeg).length := by
  have hyields : r.asFilter.NoneEmpty lists →
      ∃ n, ∀ m, n ≤ m → r.size m = some (r.asFilter.rest lists r.tsBeg).length := by
    intro hne
    obtain ⟨n, hn⟩ := (yields_iff_asFilter h.bound h.range _).mpr (h.yields_rest hne)
    exact ⟨n, fun m hm => size_eq (hn m hm)⟩
  constructor
  · rintro ⟨n, hn⟩
    have hne : r.asFilter.NoneEmpty lists := fun tok hmin hle hempty => by
      have hnone := hn n (Nat.le_refl n)
      rw [size_none h.bound h hle hempty hmin] at hnone
      cases hnone
    obtain ⟨n', hn'⟩ := hyields hne
    have hmax := hn (max n n') (Nat.le_max_left _ _)
    rw [hn' (max n n') (Nat.le_max_right _ _)] at hmax
    exact ⟨hne, (Option.some.inj hmax).symm⟩
  · rintro ⟨hne, rfl⟩
    exact hyields hne

end CharacterResult

end Netplay
