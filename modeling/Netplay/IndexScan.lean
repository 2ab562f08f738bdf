import Netplay.CharacterResult
import Netplay.IndexedRecords

/-!
# Scans of an index up to its largest key

The loop over a filter looks up the key behind its range, the loop of
`filter_count` does not. Both end exactly where that key is a key of the index;
an empty list behind the first token stops the loop over a filter.
-/

namespace Netplay

/-- An `at` that answers for some keys only: a loop with a result looks up no other. -/
def only (keys : Nat → Prop) [DecidablePred keys] (look : Nat → Option (Option (List Nat)))
    (key : Nat) : Option (Option (List Nat)) := if keys key then look key else none

/-! ## The count of a filter -/

/-- The loop of `filter_count` from `i` on. -/
def countFrom (look : Nat → Option (Option (List Nat))) (tokMax : Nat) :
    Nat → (i : Nat) → (count : Nat) → Option Nat
  | 0, _, _ => none
  | n + 1, i, count =>
    if i ≤ tokMax then
      (look i).bind fun list => countFrom look tokMax n (inc64 i) (count + (list.getD []).length)
    else some count

/-- `filter_count` returns the number. -/
def CountsTo (look : Nat → Option (Option (List Nat))) (tokMin tokMax total : Nat) : Prop :=
  ∃ n, ∀ m, n ≤ m → countFrom look tokMax m tokMin 0 = some total

section

variable {look : Nat → Option (Option (List Nat))} {lists : Nat → Option (List Nat)}

theorem countFrom_eq {tokMax : Nat} (hend : tokMax + 1 < 2 ^ 64) (n : Nat) :
    ∀ {i count : Nat}, (∀ t, i ≤ t → t ≤ tokMax → look t = some (lists t)) → i ≤ tokMax + 1 →
      tokMax + 1 < n + i → countFrom look tokMax n i count = some (count +
        ((List.range' i (tokMax + 1 - i)).flatMap fun t => (lists t).getD []).length) := by
  induction n with
  | zero =>
    intro i count _ hi hn
    omega
  | succ n ih =>
    intro i count hlook hi hn
    rw [countFrom]
    split
    · next hle =>
      have hlen : tokMax + 1 - i = tokMax + 1 - (i + 1) + 1 := by omega
      rw [hlook i (Nat.le_refl i) hle, Option.bind_some, inc64_eq (by omega),
        ih (fun t ht => hlook t (by omega)) (by omega) (by omega), hlen, List.range'_succ,
        List.flatMap_cons, List.length_append, Nat.add_assoc]
    · next hgt =>
      rw [Nat.sub_eq_zero_of_le (by omega)]
      rfl

/-- Up to the largest `uint64_t` the count does not end. -/
theorem countFrom_top (n : Nat) : ∀ {i count : Nat}, i < 2 ^ 64 →
    countFrom look (2 ^ 64 - 1) n i count = none := by
  induction n with
  | zero => exact fun _ => rfl
  | succ n ih =>
    intro i count hi
    rw [countFrom, if_pos (Nat.le_sub_one_of_lt hi)]
    exact Option.bind_eq_none_iff.mpr fun list _ => ih (Nat.mod_lt _ (by decide))

end

namespace LogIndex

variable {k : Nat}

/-- `filter` of an index. -/
def filter (index : LogIndex k) (tokMin tokMax maxRid : Nat) : FilterResult :=
  ⟨some index.atKey, tokMin, tokMax, maxRid⟩

/-- All ids of the index are below. -/
def Below (index : LogIndex k) (maxRid : Nat) : Prop :=
  ∀ key list, index.list key = some list → ∀ v ∈ list, v < maxRid

theorem bound_of_lt (hk : 1 ≤ k ∧ k ≤ 8) {tok : Nat} (h : tok < 256 ^ k) : tok < 2 ^ 64 :=
  Nat.lt_of_lt_of_le h (Nat.pow_le_pow_right (by decide) hk.2)

theorem atKey_eq (hk : 1 ≤ k ∧ k ≤ 8) (index : LogIndex k) {key : Nat} (h : key < 256 ^ k) :
    index.atKey key = some (index.list key) := if_pos (inBounds_of_lt hk h)

theorem filter_answers (hk : 1 ≤ k ∧ k ≤ 8) (index : LogIndex k) {tokMin tokMax maxRid : Nat}
    (hrange : tokMin ≤ tokMax) (hmax : tokMax + 1 < 256 ^ k) (hbelow : index.Below maxRid) :
    (index.filter tokMin tokMax maxRid).Answers index.list where
  lookup _ _ hle := atKey_eq hk index (Nat.lt_of_le_of_lt hle hmax)
  small tok list _ _ := hbelow tok list
  range := hrange
  bound := bound_of_lt hk hmax

/-! ## Empty lists -/

/-- Below the largest key a filter visits the lists of its range exactly where
none behind the first token is empty. -/
theorem filter_yields_iff (hk : 1 ≤ k ∧ k ≤ 8) (index : LogIndex k) {tokMin tokMax maxRid : Nat}
    (hrange : tokMin ≤ tokMax) (hmax : tokMax < 256 ^ k - 1) (hbelow : index.Below maxRid) :
    (index.filter tokMin tokMax maxRid).Yields
        ((List.range' tokMin (tokMax + 1 - tokMin)).flatMap fun tok => (index.list tok).getD []) ↔
      ∀ tok, tokMin < tok → tok ≤ tokMax → index.list tok ≠ some [] :=
  (filter_answers hk index hrange (by omega) hbelow).yields_iff

/-- `get(now)`, and then the entries of an empty burst. -/
def emptyAt (index : LogIndex k) (key : Nat) : LogIndex k :=
  Tier.modify (fun list => list ++ []) (indexSizes k) index key

theorem list_emptyAt_cases (index : LogIndex k) (key key' : Nat) :
    (index.emptyAt key).list key' = index.list key' ∨
      (index.emptyAt key).list key' = some ((index.list key').getD []) := by
  have h := Tier.atKey_modify_cases (fun list => list ++ []) (indexSizes k) index key key'
  rwa [List.append_nil] at h

theorem list_emptyAt (index : LogIndex k) (key : Nat) :
    (index.emptyAt key).list key = some ((index.list key).getD []) :=
  (Tier.atKey_modify_self _ _ _ _).trans (congrArg some (List.append_nil _))

theorem list_fresh_emptyAt (hk : 1 ≤ k ∧ k ≤ 8) (key key' : Nat) :
    ((fresh k).emptyAt key).list key' = none ∨ ((fresh k).emptyAt key).list key' = some [] := by
  have h := list_emptyAt_cases (fresh k) key key'
  rwa [list_fresh hk] at h

theorem below_fresh_emptyAt (hk : 1 ≤ k ∧ k ≤ 8) (key maxRid : Nat) :
    ((fresh k).emptyAt key).Below maxRid := by
  intro key' list hl v hv
  rcases list_fresh_emptyAt hk key key' with h | h
  · rw [h] at hl
    cases hl
  · rw [h] at hl
    cases hl
    cases hv

/-- An empty burst in the first second of a range. -/
theorem filter_yields_first :
    (((fresh 4).emptyAt 5).filter 5 5 1).Yields ((List.range' 5 (5 + 1 - 5)).flatMap fun tok =>
      (((fresh 4).emptyAt 5).list tok).getD []) :=
  (filter_yields_iff (by decide) _ (by decide) (by decide) (below_fresh_emptyAt (by decide) 5 1)).mpr
    fun tok h1 h2 => by omega

/-- An empty burst in second 5: the scan of the seconds 4 and 5 has no result. -/
theorem empty_burst_read : ((fresh 4).emptyAt 5).Below 1 ∧
    ¬ (((fresh 4).emptyAt 5).filter 4 5 1).Yields ((List.range' 4 (5 + 1 - 4)).flatMap fun tok =>
      (((fresh 4).emptyAt 5).list tok).getD []) := by
  have hbelow := below_fresh_emptyAt (k := 4) (by decide) 5 1
  refine ⟨hbelow, ?_⟩
  rintro ⟨n, hn⟩
  have hanswers := filter_answers (by decide) _ (by decide : 4 ≤ 5) (by decide) hbelow
  have hnone := hanswers.ids_none (Nat.le_refl 5) (list_emptyAt (fresh 4) 5) (by decide) n
  rw [hn n (Nat.le_refl n)] at hnone
  cases hnone

/-! ## The largest key -/

/-- What `add_entry` makes of an index. -/
def addEntries (index : LogIndex k) (entries : List (Nat × Nat)) : Except Halt (LogIndex k) :=
  entries.foldlM (fun index e => index.addEntry e.1 e.2) index

def Made (index : LogIndex k) : Prop := ∃ entries, (fresh k).addEntries entries = .ok index

theorem addEntry_noneEmpty {index index' : LogIndex k} {key val : Nat}
    (h : ∀ key, index.list key ≠ some []) (hadd : index.addEntry key val = .ok index') (key' : Nat) :
    index'.list key' ≠ some [] := by
  rw [addEntry] at hadd
  split at hadd
  · cases hadd
    rcases Tier.atKey_modify_cases (fun list => list ++ [val]) (indexSizes k) index key key' with
      hsame | hnew
    · intro hnil
      exact h key' (hsame.symm.trans hnil)
    · intro hnil
      have := Option.some.inj (hnew.symm.trans hnil)
      exact absurd this (by simp)
  · cases hadd

theorem addEntries_noneEmpty (entries : List (Nat × Nat)) : ∀ {index index' : LogIndex k},
    (∀ key, index.list key ≠ some []) → index.addEntries entries = .ok index' →
      ∀ key, index'.list key ≠ some [] := by
  induction entries with
  | nil =>
    intro index index' h hadd
    cases hadd
    exact h
  | cons e entries ih =>
    intro index index' h hadd
    obtain ⟨index₁, h₁, hrest⟩ := ok_of_bind hadd
    exact ih (addEntry_noneEmpty h h₁) hrest

theorem Made.noneEmpty (hk : 1 ≤ k ∧ k ≤ 8) {index : LogIndex k} (h : index.Made) (key : Nat) :
    index.list key ≠ some [] := by
  obtain ⟨entries, hadd⟩ := h
  refine addEntries_noneEmpty entries (fun key => ?_) hadd key
  rw [list_fresh hk]
  intro hnil
  cases hnil

/-- The loop over a filter and `filter_count` return, look up these keys only, and
the count is the number of ids. -/
def ScansWithin (index : LogIndex k) (keys : Nat → Prop) [DecidablePred keys]
    (tokMin tokMax maxRid : Nat) : Prop :=
  ∃ out, (FilterResult.mk (some (only keys index.atKey)) tokMin tokMax maxRid).Yields out ∧
    CountsTo (only keys index.atKey) tokMin tokMax out.length

/-- The key behind the largest one is not a key of the index. -/
theorem atKey_top (hk : 1 ≤ k ∧ k < 8) (index : LogIndex k) : index.atKey (256 ^ k) = none := by
  have hout : Tier.inBounds (indexSizes k) (256 ^ k) = false := by
    rcases index_cases ⟨hk.1, Nat.le_of_lt hk.2⟩ with
      rfl | rfl | rfl | rfl | rfl | rfl | rfl | rfl
    case inr.inr.inr.inr.inr.inr.inr => exact absurd hk.2 (Nat.lt_irrefl 8)
    all_goals rfl
  rw [atKey, hout]
  rfl

/-- Below the largest key the scan and the count return. -/
theorem scans_of_lt (hk : 1 ≤ k ∧ k ≤ 8) {index : LogIndex k} (hmade : index.Made)
    {tokMin tokMax maxRid : Nat} (hrange : tokMin ≤ tokMax) (hmax : tokMax + 1 < 256 ^ k)
    (hbelow : index.Below maxRid) : index.ScansWithin (fun _ => True) tokMin tokMax maxRid := by
  have hall : only (fun _ => True) index.atKey = index.atKey := rfl
  refine ⟨_, (filter_answers hk index hrange hmax hbelow).yields_rest fun tok _ _ =>
    hmade.noneEmpty hk tok, tokMax + 2, fun m hm => ?_⟩
  rw [hall, countFrom_eq (bound_of_lt hk hmax) m (fun t _ ht => atKey_eq hk index (by omega))
    (by omega) (by omega), Nat.zero_add]
  rfl

/-- A loop that returns has looked up the key behind its range. -/
theorem not_scansWithin (index : LogIndex k) {keys : Nat → Prop} [DecidablePred keys]
    {tokMin tokMax maxRid : Nat} (hend : only keys index.atKey (inc64 tokMax) = none) :
    ¬ index.ScansWithin keys tokMin tokMax maxRid := by
  rintro ⟨out, ⟨n, hn⟩, -⟩
  have hnone := FilterResult.ids_none_of_end
    (r := ⟨some (only keys index.atKey), tokMin, tokMax, maxRid⟩) hend rfl n
  rw [hn n (Nat.le_refl n)] at hnone
  cases hnone

theorem not_scansWithin_range (index : LogIndex k) {tokMin tokMax maxRid : Nat}
    (hmax : tokMax < 2 ^ 64) :
    ¬ index.ScansWithin (fun key => tokMin ≤ key ∧ key ≤ tokMax) tokMin tokMax maxRid := by
  by_cases hend : tokMin ≤ inc64 tokMax ∧ inc64 tokMax ≤ tokMax
  · have htop : tokMax + 1 = 2 ^ 64 := by
      by_contra hne
      rw [inc64_eq (by omega)] at hend
      omega
    have hzero : inc64 tokMax = 0 := by
      rw [inc64, htop]
      rfl
    rw [hzero, Nat.le_zero] at hend
    rintro ⟨out, ⟨n, hn⟩, -⟩
    have hnone := FilterResult.ids_none_of_next (r := ⟨some (only (fun key => tokMin ≤ key ∧
      key ≤ tokMax) index.atKey), tokMin, tokMax, maxRid⟩) (hend.1.trans hzero.symm) n
    rw [hn n (Nat.le_refl n)] at hnone
    cases hnone
  · exact not_scansWithin index (if_neg hend)

/-- Where the scan and the count return, the range ends below the largest key. -/
theorem lt_of_scans (hk : 1 ≤ k ∧ k ≤ 8) (index : LogIndex k) {tokMin tokMax maxRid : Nat}
    (hrange : tokMin ≤ tokMax) (hmax : tokMax < 256 ^ k)
    (h : index.ScansWithin (fun _ => True) tokMin tokMax maxRid) : tokMax + 1 < 256 ^ k := by
  refine Nat.lt_of_le_of_ne hmax fun htop => ?_
  rcases Nat.lt_or_ge k 8 with hlt | hge
  · refine not_scansWithin index ?_ h
    have hpow : 256 ^ k ≤ 256 ^ 7 := Nat.pow_le_pow_right (by decide) (by omega)
    rw [inc64_eq (by omega), htop]
    exact atKey_top ⟨hk.1, hlt⟩ index
  · obtain rfl : k = 8 := by omega
    obtain rfl : tokMax = 2 ^ 64 - 1 := by omega
    obtain ⟨out, -, n, hn⟩ := h
    have hsome := hn n (Nat.le_refl n)
    rw [countFrom_top n (by omega)] at hsome
    cases hsome

end LogIndex

namespace CharacterIndex

/-- All ids of the character are below. -/
def Below (index : CharacterIndex) (c maxRid : Nat) : Prop :=
  ∀ ts list, index.list c ts = some list → ∀ v ∈ list, v < maxRid

/-- An entry: its character, its second and the id. -/
structure Added where
  character : Nat
  second : Nat
  id : Nat

def addEntries (index : CharacterIndex) (entries : List Added) : Option CharacterIndex :=
  entries.foldlM (fun index e => index.addEntry e.character e.second e.id) index

def Made (index : CharacterIndex) : Prop := ∃ entries, fresh.addEntries entries = some index

theorem addEntry_noneEmpty {index index' : CharacterIndex} {c ts val : Nat}
    (h : ∀ c ts, index.list c ts ≠ some []) (hadd : index.addEntry c ts val = some index')
    (c' ts' : Nat) : index'.list c' ts' ≠ some [] := by
  rw [addEntry] at hadd
  split at hadd
  · cases hadd
    rcases list_added_cases index c ts val c' ts' with hsame | hnew
    · rw [hsame]
      exact h c' ts'
    · rw [hnew]
      simp
  · cases hadd

theorem addEntries_noneEmpty (entries : List Added) : ∀ {index index' : CharacterIndex},
    (∀ c ts, index.list c ts ≠ some []) → index.addEntries entries = some index' →
      ∀ c ts, index'.list c ts ≠ some [] := by
  induction entries with
  | nil =>
    intro index index' h hadd
    cases hadd
    exact h
  | cons e entries ih =>
    intro index index' h hadd
    obtain ⟨index₁, h₁, hrest⟩ := Option.bind_eq_some_iff.mp hadd
    exact ih (addEntry_noneEmpty h h₁) hrest

theorem Made.noneEmpty {index : CharacterIndex} (h : index.Made) (c ts : Nat) :
    index.list c ts ≠ some [] := by
  obtain ⟨entries, hadd⟩ := h
  refine addEntries_noneEmpty entries (fun c ts => ?_) hadd c ts
  intro hnil
  cases hnil

/-- The loop over a lookup and `size` return, look up these seconds only, and the
size is the number of ids. -/
def ScansWithin (index : CharacterIndex) (keys : Nat → Prop) [DecidablePred keys]
    (c tsBeg tsEnd maxRid : Nat) : Prop :=
  ∃ out, (CharacterResult.mk (only keys (index.atKey c)) tsBeg tsEnd maxRid).Yields out ∧
    ∃ n, ∀ m, n ≤ m →
      (CharacterResult.mk (only keys (index.atKey c)) tsBeg tsEnd maxRid).size m = some out.length

theorem filter_answers (index : CharacterIndex) {c tsBeg tsEnd maxRid : Nat} (hc : c < 65536)
    (hrange : tsBeg ≤ tsEnd) (hmax : tsEnd + 1 < 2 ^ 32) (hbelow : index.Below c maxRid) :
    (index.filter c tsBeg tsEnd maxRid).asFilter.Answers (index.list c) where
  lookup _ _ hle := atKey_eq index hc (Nat.lt_of_le_of_lt hle hmax)
  small tok list _ _ := hbelow tok list
  range := hrange
  bound := Nat.lt_trans hmax (by decide)

theorem scans_of_lt {index : CharacterIndex} (hmade : index.Made) {c tsBeg tsEnd maxRid : Nat}
    (hc : c < 65536) (hrange : tsBeg ≤ tsEnd) (hmax : tsEnd + 1 < 2 ^ 32)
    (hbelow : index.Below c maxRid) : index.ScansWithin (fun _ => True) c tsBeg tsEnd maxRid := by
  have hyields := (CharacterResult.yields_iff_asFilter
    (r := index.filter c tsBeg tsEnd maxRid) (Nat.lt_trans hmax (by decide)) hrange _).mpr
    ((filter_answers index hc hrange hmax hbelow).yields_rest fun ts _ _ => hmade.noneEmpty c ts)
  obtain ⟨n, hn⟩ := hyields
  exact ⟨_, ⟨n, hn⟩, n, fun m hm => CharacterResult.size_eq (hn m hm)⟩

theorem not_scansWithin (index : CharacterIndex) {keys : Nat → Prop} [DecidablePred keys]
    {c tsBeg tsEnd maxRid : Nat} (hrange : tsBeg ≤ tsEnd) (hmax : tsEnd < 2 ^ 32)
    (hend : only keys (index.atKey c) (tsEnd + 1) = none) :
    ¬ index.ScansWithin keys c tsBeg tsEnd maxRid := by
  rintro ⟨out, hyields, -⟩
  rw [CharacterResult.yields_iff_asFilter (by dsimp only; omega) hrange] at hyields
  obtain ⟨n, hn⟩ := hyields
  have hinc : inc64 tsEnd = tsEnd + 1 := inc64_eq (by omega)
  have hnone := FilterResult.ids_none_of_end (r := CharacterResult.asFilter
    ⟨only keys (index.atKey c), tsBeg, tsEnd, maxRid⟩) (by
      rw [← hinc] at hend
      exact hend) rfl n
  rw [hn n (Nat.le_refl n)] at hnone
  cases hnone

end CharacterIndex

/-- For no index and no range do the scan and the count keep to the keys of the
range: the scan looks up the key behind it. They keep to the keys of the index, return
and agree exactly where the range ends below the largest key. -/
theorem scansWithin_iff {first last : Nat} (hrange : first ≤ last) (maxRid : Nat) :
    (∀ k, 1 ≤ k ∧ k ≤ 8 → ∀ index : LogIndex k, index.Made → last ≤ 256 ^ k - 1 →
      index.Below maxRid →
        ¬ index.ScansWithin (fun key => first ≤ key ∧ key ≤ last) first last maxRid ∧
        (index.ScansWithin (fun _ => True) first last maxRid ↔ last < 256 ^ k - 1)) ∧
    ∀ index : CharacterIndex, index.Made → ∀ c, c < 65536 → last ≤ 2 ^ 32 - 1 →
      index.Below c maxRid →
        ¬ index.ScansWithin (fun ts => first ≤ ts ∧ ts ≤ last) c first last maxRid ∧
        (index.ScansWithin (fun _ => True) c first last maxRid ↔ last < 2 ^ 32 - 1) := by
  constructor
  · intro k hk index hmade hmax hbelow
    have hpos : 0 < 256 ^ k := Nat.pow_pos (by decide)
    have hlt : last < 256 ^ k := by omega
    refine ⟨index.not_scansWithin_range (LogIndex.bound_of_lt hk hlt), fun h => ?_, fun h => ?_⟩
    · have := LogIndex.lt_of_scans hk index hrange hlt h
      omega
    · exact LogIndex.scans_of_lt hk hmade hrange (by omega) hbelow
  · intro index hmade c hc hmax hbelow
    have hlt : last < 2 ^ 32 := by omega
    refine ⟨index.not_scansWithin hrange hlt (if_neg ?_), fun h => ?_, fun h => ?_⟩
    · exact fun hin => absurd hin.2 (Nat.not_succ_le_self last)
    · by_contra hge
      obtain rfl : last = 2 ^ 32 - 1 := by omega
      exact index.not_scansWithin hrange hlt rfl h
    · exact CharacterIndex.scans_of_lt hmade hc hrange (by omega) hbelow

/-- One entry in each index, and a range around it. -/
theorem scansWithin_seven :
    ((LogIndex.fresh 2).added 7 0).ScansWithin (fun _ => True) 5 9 1 ∧
      (CharacterIndex.fresh.added 3 7 0).ScansWithin (fun _ => True) 3 5 9 1 := by
  have hindex : ((LogIndex.fresh 2).added 7 0).Below 1 := by
    intro key list hl v hv
    rcases Tier.atKey_modify_cases (fun list => list ++ [0]) (indexSizes 2) (LogIndex.fresh 2) 7 key
      with h | h
    · cases hl.symm.trans h
    · cases hl.symm.trans h
      obtain rfl := List.mem_singleton.mp hv
      exact Nat.zero_lt_one
  have hchar : (CharacterIndex.fresh.added 3 7 0).Below 3 1 := by
    intro ts list hl v hv
    rcases CharacterIndex.list_added_cases CharacterIndex.fresh 3 7 0 3 ts with h | h
    · cases hl.symm.trans h
    · cases hl.symm.trans h
      obtain rfl := List.mem_singleton.mp hv
      exact Nat.zero_lt_one
  have hrange : 5 ≤ 9 := by decide
  exact ⟨((scansWithin_iff hrange 1).1 2 (by decide) _ ⟨[(7, 0)], rfl⟩ (by decide)
      hindex).2.mpr (by decide),
    ((scansWithin_iff hrange 1).2 _ ⟨[⟨3, 7, 0⟩], rfl⟩ 3 (by decide) (by decide)
      hchar).2.mpr (by decide)⟩

/-- The last port of an index without entries. -/
theorem last_port_read : (LogIndex.fresh 2).Made ∧
    ¬ (LogIndex.fresh 2).ScansWithin (fun key => 65535 ≤ key ∧ key ≤ 65535) 65535 65535 1 ∧
    ¬ (LogIndex.fresh 2).ScansWithin (fun _ => True) 65535 65535 1 :=
  ⟨⟨[], rfl⟩, LogIndex.not_scansWithin_range _ (by decide),
    LogIndex.not_scansWithin _ (LogIndex.atKey_top (by decide) (LogIndex.fresh 2))⟩

end Netplay
