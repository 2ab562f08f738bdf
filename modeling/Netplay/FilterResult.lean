import Netplay.Packet

/-!
# The iterator of a filter

`filter_result` and its loop from `begin()` to `end()` over an index that nobody
changes meanwhile. The functions take a number of steps after which they give up;
they have no result where the code runs on for longer, dereferences a null
pointer, reads a list behind its size, or looks up a key outside the index.
-/

namespace Netplay

/-- `+ 1` on a `uint64_t`. -/
def inc64 (n : Nat) : Nat := (n + 1) % 2 ^ 64

theorem inc64_eq {n : Nat} (h : n + 1 < 2 ^ 64) : inc64 n = n + 1 := Nat.mod_eq_of_lt h

/-- `index_` is its `at`, which has no result for a key outside the index. -/
structure FilterResult where
  index : Option (Nat → Option (Option (List Nat)))
  tokMin : Nat
  tokMax : Nat
  maxRid : Nat

/-- `cur_tok_`, `cur_idx_` and `cur_entry_list_`. -/
structure FilterIterator where
  tok : Nat
  idx : Int
  list : Option (List Nat)

namespace FilterIterator

/-- `operator*`. -/
def deref (it : FilterIterator) : Option Nat :=
  it.list.bind fun list => if 0 ≤ it.idx then list[it.idx.toNat]? else none

/-- `cur_entry_list_ == NULL || cur_idx_ == cur_entry_list_->size()`. -/
def exhausted (it : FilterIterator) : Bool :=
  match it.list with
  | none => true
  | some list => it.idx == list.length

end FilterIterator

namespace FilterResult

/-- `filter_result()`. -/
def empty : FilterResult := ⟨none, 1, 0, 0⟩

variable (r : FilterResult)

/-- `index_->at(tok)`. -/
def lookup (tok : Nat) : Option (Option (List Nat)) := r.index.bind fun index => index tok

/-- The loop over the tokens in `advance`. -/
def nextToken : Nat → Nat → Option FilterIterator
  | 0, _ => none
  | n + 1, tok => (r.lookup (inc64 tok)).bind fun list =>
    if list.isNone ∧ inc64 tok ≤ r.tokMax then nextToken n (inc64 tok)
    else some ⟨inc64 tok, 0, list⟩

def advance (n : Nat) (it : FilterIterator) : Option FilterIterator :=
  if it.tok = inc64 r.tokMax then some it
  else if { it with idx := it.idx + 1 }.exhausted then r.nextToken n it.tok
  else some { it with idx := it.idx + 1 }

/-- `operator++`. -/
def increment : Nat → FilterIterator → Option FilterIterator
  | 0, _ => none
  | n + 1, it => (r.advance n it).bind fun it =>
    if it.tok = inc64 r.tokMax then some it
    else it.deref.bind fun v => if r.maxRid ≤ v then increment n it else some it

/-- The list of the first token; a filter without an index has none. -/
def firstList : Option (Option (List Nat)) :=
  if r.index.isNone then some none else r.lookup r.tokMin

/-- `begin()`. -/
def start (n : Nat) : Option FilterIterator :=
  r.firstList.bind fun list => r.advance n ⟨r.tokMin, -1, list⟩

/-- `it == end()`. -/
def finished (it : FilterIterator) : Bool := it.tok == inc64 r.tokMax && it.idx == 0

/-- The loop `for (it = begin(); it != end(); ++it)` from a position on. -/
def iterate : Nat → FilterIterator → Option (List Nat)
  | 0, _ => none
  | n + 1, it =>
    if r.finished it then some []
    else it.deref.bind fun v => (r.increment n it).bind fun it => (iterate n it).map (v :: ·)

/-- The ids that the loop visits, if it ends within the steps. -/
def ids (n : Nat) : Option (List Nat) := (r.start n).bind (r.iterate n)

/-- The loop ends and has visited the ids in this order. -/
def Yields (out : List Nat) : Prop := ∃ n, ∀ m, n ≤ m → r.ids m = some out

/-! ## A range of tokens with their lists -/

/-- What the index holds for the tokens of the range and the one behind it. -/
structure Holds (lists : Nat → Option (List Nat)) : Prop where
  lookup : ∀ tok, r.tokMin ≤ tok → tok ≤ r.tokMax + 1 → r.lookup tok = some (lists tok)
  nonempty : ∀ tok, lists tok ≠ some []
  small : ∀ tok list, lists tok = some list → ∀ v ∈ list, v < r.maxRid
  range : r.tokMin ≤ r.tokMax
  bound : r.tokMax + 1 < 2 ^ 64

/-- What the index answers for the tokens of the range and the one behind it, with
lists of any length. -/
structure Answers (lists : Nat → Option (List Nat)) : Prop where
  lookup : ∀ tok, r.tokMin ≤ tok → tok ≤ r.tokMax + 1 → r.lookup tok = some (lists tok)
  small : ∀ tok list, r.tokMin ≤ tok → tok ≤ r.tokMax → lists tok = some list →
    ∀ v ∈ list, v < r.maxRid
  range : r.tokMin ≤ r.tokMax
  bound : r.tokMax + 1 < 2 ^ 64

/-- No token behind the first one of the range has an empty list. -/
def NoneEmpty (lists : Nat → Option (List Nat)) : Prop :=
  ∀ tok, r.tokMin < tok → tok ≤ r.tokMax → lists tok ≠ some []

/-- The entries of the tokens from one on to the end of the range. -/
def rest (lists : Nat → Option (List Nat)) (tok : Nat) : List Nat :=
  (List.range' tok (r.tokMax + 1 - tok)).flatMap fun t => (lists t).getD []

/-- The iterator is the end, or it is at an entry of a token's list; with the
entries from there on. -/
inductive Stands (lists : Nat → Option (List Nat)) : FilterIterator → List Nat → Prop where
  | finished (list : Option (List Nat)) : Stands lists ⟨r.tokMax + 1, 0, list⟩ []
  | entry (tok i : Nat) (list : List Nat) (hmin : r.tokMin ≤ tok) (hmax : tok ≤ r.tokMax)
      (hl : lists tok = some list) (hi : i < list.length) :
      Stands lists ⟨tok, i, some list⟩ (list.drop i ++ r.rest lists (tok + 1))

variable {r : FilterResult} {lists : Nat → Option (List Nat)}

theorem Holds.answers (h : r.Holds lists) : r.Answers lists :=
  ⟨h.lookup, fun tok list _ _ => h.small tok list, h.range, h.bound⟩

theorem Holds.noneEmpty (h : r.Holds lists) : r.NoneEmpty lists := fun tok _ _ => h.nonempty tok

theorem rest_of_le {tok : Nat} (h : tok ≤ r.tokMax) :
    r.rest lists tok = (lists tok).getD [] ++ r.rest lists (tok + 1) := by
  have hlen : r.tokMax + 1 - tok = r.tokMax + 1 - (tok + 1) + 1 := by omega
  rw [rest, hlen, List.range'_succ, List.flatMap_cons, rest]

theorem rest_end : r.rest lists (r.tokMax + 1) = [] := by simp [rest]

theorem rest_of_none {tok tok' : Nat} (hle : tok ≤ tok') (hend : tok' ≤ r.tokMax + 1)
    (hnone : ∀ u, tok ≤ u → u < tok' → lists u = none) :
    r.rest lists tok = r.rest lists tok' := by
  induction hle with
  | refl => rfl
  | step hle ih =>
    rw [ih (by omega) fun u hu hlt => hnone u hu (by omega), rest_of_le (by omega),
      hnone _ hle (Nat.lt_succ_self _), Option.getD_none, List.nil_append]

theorem Answers.end_eq (h : r.Answers lists) : inc64 r.tokMax = r.tokMax + 1 := inc64_eq h.bound

theorem Answers.tok_ne (h : r.Answers lists) {tok : Nat} (hle : tok ≤ r.tokMax) :
    tok ≠ inc64 r.tokMax := by
  rw [h.end_eq]
  omega

theorem firstList_eq (hidx : r.index.isSome) : r.firstList = r.lookup r.tokMin := by
  rw [firstList, if_neg]
  simpa using Option.isSome_iff_ne_none.mp hidx

/-- `begin()` is at the first entry of the first token, or goes on behind it. -/
theorem start_eq (hidx : r.index.isSome) (hne : r.tokMin ≠ inc64 r.tokMax) (n : Nat) :
    r.start n = (r.lookup r.tokMin).bind fun list =>
      if list.getD [] = [] then r.nextToken n r.tokMin else some ⟨r.tokMin, 0, list⟩ := by
  rw [start, firstList_eq hidx]
  refine Option.bind_congr fun list _ => ?_
  rw [advance, if_neg hne]
  cases list with
  | none => rfl
  | some list =>
    cases list with
    | nil => rfl
    | cons v list =>
      have hmore : ¬ ((-1 : Int) + 1 = ((v :: list).length : Nat)) := by
        rw [List.length_cons]
        omega
      simp only [FilterIterator.exhausted, beq_iff_eq, hmore, if_false, Option.getD_some,
        reduceCtorEq]
      rfl

theorem Answers.start_eq (h : r.Answers lists) (n : Nat) :
    r.start n = if (lists r.tokMin).getD [] = [] then r.nextToken n r.tokMin
      else some ⟨r.tokMin, 0, lists r.tokMin⟩ := by
  have hlook := h.lookup r.tokMin (Nat.le_refl _) (Nat.le_succ_of_le h.range)
  have hidx : r.index.isSome := by
    rw [FilterResult.lookup] at hlook
    obtain ⟨index, hindex, -⟩ := Option.bind_eq_some_iff.mp hlook
    rw [hindex]
    rfl
  rw [FilterResult.start_eq hidx (h.tok_ne h.range), hlook, Option.bind_some]

/-! ## The loop over the tokens -/

section

variable {tok n : Nat} (hlook : ∀ t, tok < t → t ≤ r.tokMax + 1 → r.lookup t = some (lists t))
  (hend : r.tokMax + 1 < 2 ^ 64)

include hlook hend

/-- The loop goes on to the next token that has a list, or to the one behind the range. -/
theorem nextToken_eq_some (htok : tok ≤ r.tokMax) {it : FilterIterator}
    (h : r.nextToken n tok = some it) : ∃ t, tok < t ∧ t ≤ r.tokMax + 1 ∧ it = ⟨t, 0, lists t⟩ ∧
      (∀ u, tok < u → u < t → lists u = none) ∧ (t ≤ r.tokMax → lists t ≠ none) := by
  induction n generalizing tok with
  | zero => cases h
  | succ n ih =>
    have hinc : inc64 tok = tok + 1 := inc64_eq (by omega)
    rw [nextToken, hinc, hlook (tok + 1) (by omega) (by omega), Option.bind_some] at h
    by_cases hgo : (lists (tok + 1)).isNone ∧ tok + 1 ≤ r.tokMax
    · rw [if_pos hgo] at h
      obtain ⟨t, h1, h2, h3, h4, h5⟩ := ih (fun t ht => hlook t (by omega)) hgo.2 h
      refine ⟨t, by omega, h2, h3, fun u hu hut => ?_, h5⟩
      rcases Nat.lt_or_ge (tok + 1) u with hlt | hge
      · exact h4 u hlt hut
      · obtain rfl : u = tok + 1 := by omega
        exact Option.isNone_iff_eq_none.mp hgo.1
    · rw [if_neg hgo] at h
      cases h
      refine ⟨tok + 1, by omega, by omega, rfl, fun u hu hut => by omega, fun hle hnone => ?_⟩
      exact hgo ⟨Option.isNone_iff_eq_none.mpr hnone, hle⟩

theorem nextToken_returns (htok : tok ≤ r.tokMax) (hn : r.tokMax < n + tok) :
    ∃ it, r.nextToken n tok = some it := by
  induction n generalizing tok with
  | zero => omega
  | succ n ih =>
    have hinc : inc64 tok = tok + 1 := inc64_eq (by omega)
    rw [nextToken, hinc, hlook (tok + 1) (by omega) (by omega), Option.bind_some]
    split
    · next hgo => exact ih (fun t ht => hlook t (by omega)) hgo.2 (by omega)
    · exact ⟨_, rfl⟩

end

/-- The loop over the tokens stops at the first entry behind the token, or at the end. -/
theorem nextToken_stands (h : r.Answers lists) (hne : r.NoneEmpty lists) {n tok : Nat}
    (hmin : r.tokMin ≤ tok) (hmax : tok ≤ r.tokMax) (hn : r.tokMax < n + tok) :
    ∃ it, r.nextToken n tok = some it ∧ r.Stands lists it (r.rest lists (tok + 1)) := by
  have hlook : ∀ t, tok < t → t ≤ r.tokMax + 1 → r.lookup t = some (lists t) :=
    fun t ht => h.lookup t (by omega)
  obtain ⟨it, hit⟩ := nextToken_returns hlook h.bound hmax hn
  obtain ⟨t, hlt, hle, rfl, hnone, hsome⟩ := nextToken_eq_some hlook h.bound hmax hit
  refine ⟨_, hit, ?_⟩
  rw [rest_of_none (Nat.succ_le_of_lt hlt) hle hnone]
  rcases Nat.lt_or_ge r.tokMax t with hend | hin
  · obtain rfl : t = r.tokMax + 1 := by omega
    rw [rest_end]
    exact .finished _
  · obtain ⟨list, hl⟩ := Option.ne_none_iff_exists'.mp (hsome hin)
    have hpos : 0 < list.length := List.length_pos_iff.mpr fun h0 =>
      hne t (by omega) hin (by rw [hl, h0])
    rw [rest_of_le hin, hl]
    exact .entry t 0 list (by omega) hin hl hpos

theorem advance_stands (h : r.Answers lists) (hne : r.NoneEmpty lists) {n : Nat}
    (hn : r.tokMax < n + r.tokMin) {it : FilterIterator} {v : Nat} {vs : List Nat}
    (hst : r.Stands lists it (v :: vs)) :
    ∃ it', r.advance n it = some it' ∧ r.Stands lists it' vs := by
  generalize hall : v :: vs = all at hst
  cases hst with
  | finished list => cases hall
  | entry tok i list hmin hmax hl hi =>
    rw [List.drop_eq_getElem_cons hi, List.cons_append, List.cons.injEq] at hall
    obtain ⟨-, rfl⟩ := hall
    rw [advance, if_neg (h.tok_ne hmax)]
    by_cases hend : i + 1 = list.length
    · obtain ⟨it', hit, hst'⟩ := nextToken_stands h hne (n := n) hmin hmax (by omega)
      refine ⟨it', ?_, ?_⟩
      · rw [if_pos]
        · exact hit
        · simp only [FilterIterator.exhausted, beq_iff_eq]
          omega
      · rw [List.drop_eq_nil_of_le (Nat.le_of_eq hend.symm)]
        exact hst'
    · refine ⟨⟨tok, (i : Int) + 1, some list⟩, if_neg ?_, ?_⟩
      · simp only [FilterIterator.exhausted, beq_iff_eq]
        omega
      · exact .entry tok (i + 1) list hmin hmax hl (by omega)

theorem Stands.deref {it : FilterIterator} {v : Nat} {vs : List Nat}
    (hst : r.Stands lists it (v :: vs)) : it.deref = some v := by
  generalize hall : v :: vs = all at hst
  cases hst with
  | finished list => cases hall
  | entry tok i list hmin hmax hl hi =>
    rw [List.drop_eq_getElem_cons hi, List.cons_append, List.cons.injEq] at hall
    simp [FilterIterator.deref, hi, hall.1]

theorem Stands.lt_maxRid (h : r.Answers lists) {it : FilterIterator} {v : Nat} {vs : List Nat}
    (hst : r.Stands lists it (v :: vs)) : v < r.maxRid ∧ it.tok ≤ r.tokMax := by
  generalize hall : v :: vs = all at hst
  cases hst with
  | finished list => cases hall
  | entry tok i list hmin hmax hl hi =>
    rw [List.drop_eq_getElem_cons hi, List.cons_append, List.cons.injEq] at hall
    exact ⟨h.small tok list hmin hmax hl v (by rw [hall.1]; exact List.getElem_mem hi), hmax⟩

/-- No id is skipped. -/
theorem increment_stands (h : r.Answers lists) (hne : r.NoneEmpty lists) {n : Nat}
    (hn : r.tokMax < n + r.tokMin) {it : FilterIterator} {v : Nat} {vs : List Nat}
    (hst : r.Stands lists it (v :: vs)) :
    ∃ it', r.increment (n + 1) it = some it' ∧ r.Stands lists it' vs := by
  obtain ⟨it', hit, hst'⟩ := advance_stands h hne hn hst
  refine ⟨it', ?_, hst'⟩
  rw [increment, hit, Option.bind_some]
  cases vs with
  | nil =>
    have hend : it'.tok = inc64 r.tokMax := by
      rw [h.end_eq]
      generalize hall : ([] : List Nat) = all at hst'
      cases hst' with
      | finished list => rfl
      | entry tok i list hmin hmax hl hi =>
        rw [List.drop_eq_getElem_cons hi] at hall
        cases hall
    rw [if_pos hend]
  | cons v' vs =>
    obtain ⟨hlt, hmax⟩ := hst'.lt_maxRid h
    rw [if_neg (h.tok_ne hmax), hst'.deref, Option.bind_some, if_neg (Nat.not_le.mpr hlt)]

/-- The loop visits what remains. -/
theorem iterate_stands (h : r.Answers lists) (hne : r.NoneEmpty lists) (vs : List Nat) :
    ∀ (n : Nat) (it : FilterIterator), r.Stands lists it vs → vs.length + r.tokMax + 2 < n →
      r.iterate n it = some vs := by
  induction vs with
  | nil =>
    intro n it hst hn
    obtain ⟨n, rfl⟩ : ∃ k, n = k + 1 := ⟨n - 1, by omega⟩
    refine if_pos ?_
    generalize hall : ([] : List Nat) = all at hst
    cases hst with
    | finished list => simp [finished, h.end_eq]
    | entry tok i list hmin hmax hl hi =>
      rw [List.drop_eq_getElem_cons hi] at hall
      cases hall
  | cons v vs ih =>
    intro n it hst hn
    rw [List.length_cons] at hn
    obtain ⟨n, rfl⟩ : ∃ k, n = k + 2 := ⟨n - 2, by omega⟩
    obtain ⟨it', hit, hst'⟩ := increment_stands h hne (n := n) (by omega) hst
    have hmax := (hst.lt_maxRid h).2
    have hnot : ¬ r.finished it = true := by
      simp [finished, h.tok_ne hmax]
    rw [iterate, if_neg hnot, hst.deref, Option.bind_some, hit, Option.bind_some,
      ih (n + 1) it' hst' (by omega), Option.map_some]

/-- Where no list behind the first is empty the loop visits the entries of the lists,
token after token. -/
theorem Answers.yields_rest (h : r.Answers lists) (hne : r.NoneEmpty lists) :
    r.Yields (r.rest lists r.tokMin) := by
  refine ⟨(r.rest lists r.tokMin).length + r.tokMax + 3, fun n hn => ?_⟩
  have hfirst : ∃ it, r.start n = some it ∧ r.Stands lists it (r.rest lists r.tokMin) := by
    have hnext := nextToken_stands h hne (n := n) (Nat.le_refl _) h.range (by omega)
    rw [h.start_eq, rest_of_le h.range]
    cases hl : lists r.tokMin with
    | none => exact hnext
    | some list =>
      cases list with
      | nil => exact hnext
      | cons v list =>
        exact ⟨_, rfl, .entry r.tokMin 0 (v :: list) (Nat.le_refl _) h.range hl
          (Nat.zero_lt_succ _)⟩
  obtain ⟨it, hit, hst⟩ := hfirst
  rw [ids, hit, Option.bind_some]
  exact iterate_stands h hne _ n it hst (by omega)

/-- The loop over a range of tokens visits the entries of their lists, token after token. -/
theorem yields_rest (h : r.Holds lists) : r.Yields (r.rest lists r.tokMin) :=
  h.answers.yields_rest h.noneEmpty

/-! ## A list without entries -/

/-- The iterator is at an entry of a token in front of this one. -/
inductive InFront (lists : Nat → Option (List Nat)) (stop : Nat) : FilterIterator → Prop where
  | entry (tok i : Nat) (list : List Nat) (hmin : r.tokMin ≤ tok) (hstop : tok < stop)
      (hl : lists tok = some list) (hi : i < list.length) : InFront lists stop ⟨tok, i, some list⟩

/-- The iterator is at the first position of an empty list. -/
def OnEmpty (r : FilterResult) (it : FilterIterator) : Prop :=
  it.tok ≤ r.tokMax ∧ it.idx = 0 ∧ it.list = some []

theorem OnEmpty.deref {it : FilterIterator} (h : r.OnEmpty it) : it.deref = none := by
  simp [FilterIterator.deref, h.2.2]

/-- `operator++` reads the empty list behind its first position. -/
theorem OnEmpty.increment (h : r.Answers lists) {it : FilterIterator} (hon : r.OnEmpty it)
    (n : Nat) : r.increment n it = none := by
  cases n with
  | zero => rfl
  | succ n =>
    obtain ⟨tok, idx, list⟩ := it
    obtain ⟨hle, rfl, rfl⟩ := hon
    have hne : tok ≠ inc64 r.tokMax := h.tok_ne hle
    have hadv : r.advance n ⟨tok, 0, some []⟩ = some ⟨tok, 0 + 1, some []⟩ := by
      rw [advance, if_neg hne]
      rfl
    rw [FilterResult.increment, hadv, Option.bind_some, if_neg hne]
    rfl

section

variable {stop : Nat} (h : r.Answers lists) (hle : stop ≤ r.tokMax)
  (hempty : lists stop = some [])

include h hle hempty

/-- The loop over the tokens does not pass an empty list. -/
theorem nextToken_stops {n tok : Nat} (hmin : r.tokMin ≤ tok) (htok : tok < stop)
    {it : FilterIterator} (hit : r.nextToken n tok = some it) :
    r.InFront lists stop it ∨ r.OnEmpty it := by
  have hlook : ∀ t, tok < t → t ≤ r.tokMax + 1 → r.lookup t = some (lists t) :=
    fun t ht => h.lookup t (by omega)
  obtain ⟨t, hlt, -, rfl, hnone, hsome⟩ := nextToken_eq_some hlook h.bound (by omega) hit
  have hstop : t ≤ stop := by
    by_contra hgt
    rw [hnone stop htok (by omega)] at hempty
    cases hempty
  obtain ⟨list, hl⟩ := Option.ne_none_iff_exists'.mp (hsome (by omega))
  rw [hl]
  cases list with
  | nil => exact .inr ⟨Nat.le_trans hstop hle, rfl, rfl⟩
  | cons v list =>
    refine .inl (.entry t 0 (v :: list) (by omega) ?_ hl (Nat.zero_lt_succ _))
    refine Nat.lt_of_le_of_ne hstop fun heq => ?_
    rw [heq, hempty] at hl
    cases hl

theorem advance_stops {n : Nat} {it it' : FilterIterator} (hit : r.InFront lists stop it)
    (hadv : r.advance n it = some it') : r.InFront lists stop it' ∨ r.OnEmpty it' := by
  cases hit with
  | entry tok i list hmin hstop hl hi =>
    have hne : tok ≠ inc64 r.tokMax := h.tok_ne (by omega)
    rw [advance, if_neg hne] at hadv
    split at hadv
    · exact nextToken_stops h hle hempty hmin hstop hadv
    · next hmore =>
      cases hadv
      simp only [FilterIterator.exhausted, beq_iff_eq] at hmore
      exact .inl (.entry tok (i + 1) list hmin hstop hl (by omega))

/-- `operator++` leads to another entry in front of the empty list, if anywhere. -/
theorem increment_stops (n : Nat) : ∀ {it it' : FilterIterator}, r.InFront lists stop it →
    r.increment n it = some it' → r.InFront lists stop it' := by
  induction n with
  | zero =>
    intro it it' _ hinc
    cases hinc
  | succ n ih =>
    intro it it' hit hinc
    obtain ⟨it₁, hadv, hinc⟩ := Option.bind_eq_some_iff.mp hinc
    have hin : it₁.tok ≤ r.tokMax ∧ (r.InFront lists stop it₁ ∨ it₁.deref = none) := by
      rcases advance_stops h hle hempty hit hadv with hfront | hon
      · refine ⟨?_, .inl hfront⟩
        cases hfront with
        | entry tok i list hmin hstop hl hi => exact Nat.le_trans (Nat.le_of_lt hstop) hle
      · exact ⟨hon.1, .inr hon.deref⟩
    rw [if_neg (h.tok_ne hin.1)] at hinc
    obtain ⟨v, hv, hinc⟩ := Option.bind_eq_some_iff.mp hinc
    have hfront := hin.2.resolve_right (by simp [hv])
    split at hinc
    · exact ih hfront hinc
    · cases hinc
      exact hfront

theorem iterate_stops (n : Nat) : ∀ {it : FilterIterator}, r.InFront lists stop it →
    r.iterate n it = none := by
  induction n with
  | zero => exact fun _ => rfl
  | succ n ih =>
    intro it hit
    have hnot : ¬ r.finished it = true := by
      cases hit with
      | entry tok i list hmin hstop hl hi =>
        have hne : tok ≠ inc64 r.tokMax := h.tok_ne (by omega)
        simp [finished, hne]
    rw [iterate, if_neg hnot]
    refine Option.bind_eq_none_iff.mpr fun v _ => Option.bind_eq_none_iff.mpr fun it' hinc => ?_
    rw [ih (increment_stops h hle hempty n hit hinc), Option.map_none]

/-- `begin()` is in front of the empty list, or on one. -/
theorem start_stops (hmin : r.tokMin < stop) {n : Nat} {it : FilterIterator}
    (hit : r.start n = some it) : r.InFront lists stop it ∨ r.OnEmpty it := by
  rw [h.start_eq] at hit
  split at hit
  · exact nextToken_stops h hle hempty (Nat.le_refl _) hmin hit
  · next hmore =>
    cases hit
    cases hl : lists r.tokMin with
    | none => exact absurd (by rw [hl]; rfl) hmore
    | some list =>
      rw [hl, Option.getD_some] at hmore
      exact .inl (.entry r.tokMin 0 list (Nat.le_refl _) hmin hl (List.length_pos_iff.mpr hmore))

/-- The loop over a range with an empty list behind the first token has no result. -/
theorem Answers.ids_none (hmin : r.tokMin < stop) (n : Nat) : r.ids n = none := by
  refine Option.bind_eq_none_iff.mpr fun it hit => ?_
  rcases start_stops h hle hempty hmin hit with hfront | hon
  · exact iterate_stops h hle hempty n hfront
  · cases n with
    | zero => rfl
    | succ n =>
      have hnot : ¬ r.finished it = true := by simp [finished, h.tok_ne hon.1]
      rw [iterate, if_neg hnot, hon.deref, Option.bind_none]

end

theorem Yields.unique {out out' : List Nat} (h : r.Yields out) (h' : r.Yields out') :
    out = out' := by
  obtain ⟨n, hn⟩ := h
  obtain ⟨n', hn'⟩ := h'
  have hmax := hn (max n n') (Nat.le_max_left _ _)
  rw [hn' (max n n') (Nat.le_max_right _ _)] at hmax
  exact (Option.some.inj hmax).symm

/-- The loop has a result exactly where no list behind the first is empty. -/
theorem Answers.yields_eq_iff (h : r.Answers lists) {out : List Nat} :
    r.Yields out ↔ r.NoneEmpty lists ∧ out = r.rest lists r.tokMin := by
  constructor
  · intro hout
    have hne : r.NoneEmpty lists := fun tok hmin hle hempty => by
      obtain ⟨n, hn⟩ := hout
      have := hn n (Nat.le_refl n)
      rw [h.ids_none hle hempty hmin] at this
      cases this
    exact ⟨hne, hout.unique (h.yields_rest hne)⟩
  · rintro ⟨hne, rfl⟩
    exact h.yields_rest hne

/-- The loop visits the lists of the range exactly where none behind the first is empty. -/
theorem Answers.yields_iff (h : r.Answers lists) :
    r.Yields (r.rest lists r.tokMin) ↔ r.NoneEmpty lists := by
  simp [h.yields_eq_iff]

/-! ## The end of the range -/

section

variable (hno : r.lookup (inc64 r.tokMax) = none)

include hno

theorem nextToken_ne_end (n : Nat) : ∀ {tok : Nat} {it : FilterIterator},
    r.nextToken n tok = some it → it.tok ≠ inc64 r.tokMax := by
  induction n with
  | zero =>
    intro tok it h
    cases h
  | succ n ih =>
    intro tok it h
    obtain ⟨list, hlook, h⟩ := Option.bind_eq_some_iff.mp h
    split at h
    · exact ih h
    · cases h
      intro hend
      dsimp only at hend
      rw [hend, hno] at hlook
      cases hlook

theorem advance_ne_end {n : Nat} {it it' : FilterIterator} (hit : it.tok ≠ inc64 r.tokMax)
    (h : r.advance n it = some it') : it'.tok ≠ inc64 r.tokMax := by
  rw [advance, if_neg hit] at h
  split at h
  · exact nextToken_ne_end hno n h
  · cases h
    exact hit

theorem increment_ne_end (n : Nat) : ∀ {it it' : FilterIterator}, it.tok ≠ inc64 r.tokMax →
    r.increment n it = some it' → it'.tok ≠ inc64 r.tokMax := by
  induction n with
  | zero =>
    intro it it' _ h
    cases h
  | succ n ih =>
    intro it it' hit h
    obtain ⟨it₁, hadv, h⟩ := Option.bind_eq_some_iff.mp h
    have hne := advance_ne_end hno hit hadv
    rw [if_neg hne] at h
    obtain ⟨v, -, h⟩ := Option.bind_eq_some_iff.mp h
    split at h
    · exact ih hne h
    · cases h
      exact hne

theorem iterate_none (n : Nat) : ∀ {it : FilterIterator}, it.tok ≠ inc64 r.tokMax →
    r.iterate n it = none := by
  induction n with
  | zero => exact fun _ => rfl
  | succ n ih =>
    intro it hit
    have hnot : ¬ r.finished it = true := by simp [finished, hit]
    rw [iterate, if_neg hnot]
    refine Option.bind_eq_none_iff.mpr fun v _ => Option.bind_eq_none_iff.mpr fun it' hinc => ?_
    rw [ih (increment_ne_end hno n hit hinc), Option.map_none]

/-- A loop that ends has looked up the token behind the range. -/
theorem ids_none_of_end (hidx : r.index.isSome) (n : Nat) : r.ids n = none := by
  refine Option.bind_eq_none_iff.mpr fun it hit => ?_
  obtain ⟨list, hlook, hadv⟩ := Option.bind_eq_some_iff.mp hit
  refine iterate_none hno n (advance_ne_end hno ?_ hadv)
  intro hend
  dsimp only at hend
  rw [firstList_eq hidx, hend, hno] at hlook
  cases hlook

end

/-- A range that begins at its own end leaves the iterator in front of it. -/
theorem ids_none_of_next (hnext : r.tokMin = inc64 r.tokMax) (n : Nat) : r.ids n = none := by
  refine Option.bind_eq_none_iff.mpr fun it hit => ?_
  obtain ⟨list, -, hadv⟩ := Option.bind_eq_some_iff.mp hit
  rw [advance, if_pos hnext] at hadv
  cases hadv
  cases n with
  | zero => rfl
  | succ n => cases list <;> simp [iterate, finished, FilterIterator.deref]

end FilterResult

end Netplay
