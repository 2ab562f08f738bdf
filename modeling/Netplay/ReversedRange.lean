import Netplay.IndexScan

/-!
# Ranges that are reversed

The position behind a range is reached from its tokens only. Where the first token
lies behind the last one, the loop from `begin()` to `end()` does not end at once,
but for a range that begins with the largest token of all.
-/

namespace Netplay

namespace FilterResult

variable {r : FilterResult} {lists : Nat → Option (List Nat)}

/-- A loop that visits nothing has begun at the end. -/
theorem start_of_ids_nil {n : Nat} (h : r.ids n = some []) :
    ∃ it, r.start n = some it ∧ it.tok = inc64 r.tokMax := by
  obtain ⟨it, hit, hout⟩ := Option.bind_eq_some_iff.mp h
  refine ⟨it, hit, ?_⟩
  cases n with
  | zero => cases hout
  | succ n =>
    rw [iterate] at hout
    split at hout
    · next hfin =>
      simp only [finished, Bool.and_eq_true, beq_iff_eq] at hfin
      exact hfin.1
    · obtain ⟨v, -, hout⟩ := Option.bind_eq_some_iff.mp hout
      obtain ⟨it', -, hout⟩ := Option.bind_eq_some_iff.mp hout
      obtain ⟨vs, -, hout⟩ := Option.map_eq_some_iff.mp hout
      cases hout

/-- A loop that begins at the end visits nothing. -/
theorem yields_nil_of_start {n : Nat}
    (h : ∀ m, n ≤ m → ∃ list, r.start m = some ⟨inc64 r.tokMax, 0, list⟩) : r.Yields [] := by
  refine ⟨n + 1, fun m hm => ?_⟩
  obtain ⟨list, hstart⟩ := h m (Nat.le_of_succ_le hm)
  obtain ⟨m, rfl⟩ : ∃ k, m = k + 1 := ⟨m - 1, by omega⟩
  rw [ids, hstart, Option.bind_some, iterate, if_pos]
  simp [finished]

theorem empty_not_yields : ¬ FilterResult.empty.Yields [] := by
  rintro ⟨n, hn⟩
  have := hn n (Nat.le_refl n)
  rw [ids_none_of_next rfl] at this
  cases this

/-- The first token of a reversed range whose loop visits nothing has no entries, and
no token is behind it. -/
theorem last_of_ids_nil (hidx : r.index.isSome) (hrange : r.tokMax < r.tokMin)
    (hmin : r.tokMin < 2 ^ 64) {n : Nat} (h : r.ids n = some []) :
    r.tokMin = 2 ^ 64 - 1 ∧ r.tokMax < 2 ^ 64 - 2 ∧
      (∃ list, r.lookup r.tokMin = some list ∧ list.getD [] = []) ∧
      ∃ it, r.nextToken n r.tokMin = some it ∧ it.tok = r.tokMax + 1 := by
  have hend : inc64 r.tokMax = r.tokMax + 1 := inc64_eq (by omega)
  have hne : r.tokMin ≠ inc64 r.tokMax := fun heq => by
    rw [ids_none_of_next heq] at h
    cases h
  obtain ⟨it, hit, htok⟩ := start_of_ids_nil h
  rw [start_eq hidx hne] at hit
  obtain ⟨list, hlook, hit⟩ := Option.bind_eq_some_iff.mp hit
  rw [hend] at htok
  split at hit
  · next hempty =>
    refine ⟨?_, by omega, ⟨list, hlook, hempty⟩, it, hit, htok⟩
    by_contra hlt
    have hinc : inc64 r.tokMin = r.tokMin + 1 := inc64_eq (by omega)
    cases n with
    | zero => cases hit
    | succ n =>
      obtain ⟨list', -, hit⟩ := Option.bind_eq_some_iff.mp hit
      rw [hinc, if_neg (fun hgo => absurd hgo.2 (by omega))] at hit
      cases hit
      dsimp only at htok
      omega
  · cases hit
    exact absurd (htok.trans hend.symm) hne

/-- Behind the largest token the loop goes on from the first one. -/
theorem nextToken_wraps (hlook : ∀ t, t ≤ r.tokMax + 1 → r.lookup t = some (lists t)) (n : Nat) :
    r.nextToken (n + 1) (2 ^ 64 - 1) =
      if lists 0 = none then r.nextToken n 0 else some ⟨0, 0, lists 0⟩ := by
  have hzero : inc64 (2 ^ 64 - 1) = 0 := rfl
  rw [nextToken, hzero, hlook 0 (Nat.zero_le _), Option.bind_some]
  simp only [Option.isNone_iff_eq_none, Nat.zero_le, and_true]

/-- From the largest token the loop reaches the end exactly where no token of the range
and none in front of it has a list. -/
theorem nextToken_wraps_iff (hlook : ∀ t, t ≤ r.tokMax + 1 → r.lookup t = some (lists t))
    (hend : r.tokMax + 1 < 2 ^ 64) {n : Nat} {it : FilterIterator}
    (hit : r.nextToken n (2 ^ 64 - 1) = some it) :
    it.tok = r.tokMax + 1 ↔ ∀ t, t ≤ r.tokMax → lists t = none := by
  cases n with
  | zero => cases hit
  | succ n =>
    rw [nextToken_wraps hlook] at hit
    split at hit
    · next h0 =>
      obtain ⟨t, -, hle, rfl, hnone, hsome⟩ :=
        nextToken_eq_some (fun t _ => hlook t) hend (Nat.zero_le _) hit
      constructor
      · intro htok u hu
        dsimp only at htok
        rcases Nat.eq_zero_or_pos u with rfl | hpos
        · exact h0
        · exact hnone u hpos (by omega)
      · intro hall
        by_contra hne
        dsimp only at hne
        exact hsome (by omega) (hall t (by omega))
    · next h0 =>
      cases hit
      refine iff_of_false (by dsimp only; omega) fun hall => h0 (hall 0 (Nat.zero_le _))

theorem yields_nil_of_last (hidx : r.index.isSome)
    (hlook : ∀ t, t < 2 ^ 64 → r.lookup t = some (lists t)) (hmin : r.tokMin = 2 ^ 64 - 1)
    (hlt : r.tokMax < 2 ^ 64 - 2) (hempty : (lists r.tokMin).getD [] = [])
    (hnone : ∀ t, t ≤ r.tokMax → lists t = none) : r.Yields [] := by
  have hend : r.tokMax + 1 < 2 ^ 64 := by omega
  have hinc : inc64 r.tokMax = r.tokMax + 1 := inc64_eq hend
  have hrest : ∀ t, t ≤ r.tokMax + 1 → r.lookup t = some (lists t) :=
    fun t ht => hlook t (by omega)
  refine yields_nil_of_start (n := r.tokMax + 2) fun m hm => ?_
  obtain ⟨m, rfl⟩ : ∃ k, m = k + 1 := ⟨m - 1, by omega⟩
  obtain ⟨it, hit⟩ := nextToken_returns (n := m) (fun t _ => hrest t) hend (Nat.zero_le _)
    (by omega)
  obtain ⟨t, -, hle, rfl, -, hsome⟩ :=
    nextToken_eq_some (fun t _ => hrest t) hend (Nat.zero_le _) hit
  have ht : t = inc64 r.tokMax := by
    by_contra hne
    exact hsome (by omega) (hnone t (by omega))
  refine ⟨lists t, ?_⟩
  rw [start_eq hidx (by omega), hlook r.tokMin (by omega), Option.bind_some, if_pos hempty, hmin,
    nextToken_wraps hrest, if_pos (hnone 0 (Nat.zero_le _)), hit, ht]

end FilterResult

/-! ## The indexes -/

namespace LogIndex

variable {k : Nat}

/-- The largest token is a key of eight bytes only. -/
theorem atKey_last (hk : 1 ≤ k ∧ k ≤ 8) {index : LogIndex k} {list : Option (List Nat)}
    (h : index.atKey (2 ^ 64 - 1) = some list) : k = 8 := by
  by_contra hne
  have hout : Tier.inBounds (indexSizes k) (2 ^ 64 - 1) = false := by
    rcases index_cases hk with rfl | rfl | rfl | rfl | rfl | rfl | rfl | rfl
    case inr.inr.inr.inr.inr.inr.inr => exact absurd rfl hne
    all_goals rfl
  rw [atKey, hout] at h
  cases h

/-- The loop over a reversed range visits nothing exactly where the range begins with
the largest key of an index of eight bytes, this key has no entry, and no key from the
smallest one up to the last one of the range has a list. -/
theorem filter_yields_nil_iff (hk : 1 ≤ k ∧ k ≤ 8) (index : LogIndex k)
    {tokMin tokMax maxRid : Nat} (hrange : tokMax < tokMin) (hmin : tokMin < 2 ^ 64) :
    (index.filter tokMin tokMax maxRid).Yields [] ↔
      k = 8 ∧ tokMin = 2 ^ 64 - 1 ∧ tokMax < 2 ^ 64 - 2 ∧ (index.list tokMin).getD [] = [] ∧
        ∀ tok, tok ≤ tokMax → index.list tok = none := by
  have hlook : k = 8 → ∀ t, t < 2 ^ 64 →
      (index.filter tokMin tokMax maxRid).lookup t = some (index.list t) := by
    rintro rfl t ht
    exact atKey_eq (by decide) index ht
  constructor
  · rintro ⟨n, hn⟩
    obtain ⟨hlast, hlt, ⟨list, hlist, hempty⟩, it, hit, htok⟩ :=
      FilterResult.last_of_ids_nil (r := index.filter tokMin tokMax maxRid) rfl hrange hmin
        (hn n (Nat.le_refl n))
    obtain rfl : tokMin = 2 ^ 64 - 1 := hlast
    have hlt' : tokMax < 2 ^ 64 - 2 := hlt
    have h8 := atKey_last hk hlist
    have hsame : index.list (2 ^ 64 - 1) = list :=
      Option.some.inj ((hlook h8 _ hmin).symm.trans hlist)
    refine ⟨h8, rfl, hlt, by rw [hsame]; exact hempty, ?_⟩
    exact (FilterResult.nextToken_wraps_iff (r := index.filter _ tokMax maxRid)
      (fun t ht => hlook h8 t (Nat.lt_of_le_of_lt ht (show tokMax + 1 < 2 ^ 64 by omega)))
      (show tokMax + 1 < 2 ^ 64 by omega) hit).mp htok
  · rintro ⟨h8, rfl, hlt, hempty, hnone⟩
    exact FilterResult.yields_nil_of_last rfl (hlook h8) rfl hlt hempty hnone

end LogIndex

/-- The lookup of a character over a reversed range does not begin at the end. -/
theorem CharacterResult.not_yields_nil (r : CharacterResult) (hrange : r.tsEnd < r.tsBeg)
    (hbeg : r.tsBeg < 2 ^ 32) : ¬ r.Yields [] := by
  rintro ⟨n, hn⟩
  have hend : inc64 r.tsEnd = r.tsEnd + 1 := inc64_eq (by omega)
  obtain ⟨it, hit, hout⟩ := Option.bind_eq_some_iff.mp (hn n (Nat.le_refl n))
  obtain ⟨list, -, hadv⟩ := Option.bind_eq_some_iff.mp hit
  have hnot : ¬ r.finished it = true := by
    rw [finished, hend]
    rw [advance, hend] at hadv
    dsimp only at hadv
    split at hadv
    · cases hadv
      simp
    · next hne =>
      rw [if_neg (Nat.not_le.mpr hrange)] at hadv
      split at hadv
      · cases hadv
        simp [hne]
      · cases hadv
        simp [hne]
  cases n with
  | zero => cases hout
  | succ n =>
    rw [iterate, if_neg hnot] at hout
    obtain ⟨v, -, hout⟩ := Option.bind_eq_some_iff.mp hout
    obtain ⟨it', -, hout⟩ := Option.bind_eq_some_iff.mp hout
    obtain ⟨vs, -, hout⟩ := Option.map_eq_some_iff.mp hout
    cases hout

/-- Which loops over a reversed range visit nothing and end: of an index those from its
largest 64-bit key over keys without lists, not that of an unknown index, and none of a
character. -/
theorem reversed_yields_nil_iff {first last : Nat} (hrange : last < first) (maxRid : Nat) :
    (∀ k, 1 ≤ k ∧ k ≤ 8 → ∀ index : LogIndex k, first < 2 ^ 64 →
      ((index.filter first last maxRid).Yields [] ↔
        k = 8 ∧ first = 2 ^ 64 - 1 ∧ last < 2 ^ 64 - 2 ∧ (index.list first).getD [] = [] ∧
          ∀ tok, tok ≤ last → index.list tok = none)) ∧
    ¬ FilterResult.empty.Yields [] ∧
    ∀ (index : CharacterIndex) (c : Nat), first < 2 ^ 32 →
      ¬ (index.filter c first last maxRid).Yields [] :=
  ⟨fun _ hk index hfirst => index.filter_yields_nil_iff hk hrange hfirst,
    FilterResult.empty_not_yields,
    fun _ _ hfirst => CharacterResult.not_yields_nil _ hrange hfirst⟩

/-- The largest key, with nothing in the index, and a range of seconds. -/
theorem reversed_yields_nil_last :
    ((LogIndex.fresh 8).filter (2 ^ 64 - 1) 3 1).Yields [] ∧
      ¬ (CharacterIndex.fresh.filter 0 7 6 1).Yields [] :=
  ⟨((reversed_yields_nil_iff (by decide : 3 < 2 ^ 64 - 1) 1).1 8 (by decide) (LogIndex.fresh 8)
      (by decide)).mpr ⟨rfl, rfl, by decide, rfl, fun _ _ => rfl⟩,
    (reversed_yields_nil_iff (by decide : 6 < 7) 1).2.2 CharacterIndex.fresh 0 (by decide)⟩

/-- Ports above 65535: the plan of the predicate, and its loop. -/
theorem no_port_above : NetplayUtils.portFilter NetplayUtils.srcportIdx (Text.lit ">")
      (Text.lit "65535") = .ok ⟨NetplayUtils.srcportIdx, ⟨65536, 65535⟩⟩ ∧
    ¬ ((LogIndex.fresh 2).filter 65536 65535 0).Yields [] := by
  refine ⟨by rfl, ?_⟩
  rintro ⟨n, hn⟩
  have := hn n (Nat.le_refl n)
  rw [FilterResult.ids_none_of_next rfl] at this
  cases this

end Netplay
