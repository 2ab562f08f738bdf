import Netplay.IndexScan

/-!
# The ids of indexes

`handle::add_index` and the three switches that take an id apart again. An id is the
offset of its family and a position in it; the switches know the first 1024 positions
of a family, and the length that a handle is given is cut to 16 bits on its way.
-/

namespace Netplay

/-- A call of `handle::add_index` and what it returned; for the record, the family and
the position of the index that it created. -/
structure IndexAdded where
  tokenLength : Nat
  id : Nat
  place : Option (Nat × Nat)
  deriving DecidableEq, Repr

namespace LogStore

variable {D : Type} [Datalog D]

/-- `handle::add_index`: the `size_t` goes on as a `len_t`, and the result is an
`identifier_t`. -/
def handleAddIndex (st : LogStore D) (tokenLength : Nat) : LogStore D × Nat :=
  ((st.addIndex (tokenLength % 2 ^ 16)).1, (st.addIndex (tokenLength % 2 ^ 16)).2 % 2 ^ 32)

/-- Where the call puts a new index. -/
def newPlace (st : LogStore D) (tokenLength : Nat) : Option (Nat × Nat) :=
  if 1 ≤ tokenLength % 2 ^ 16 ∧ tokenLength % 2 ^ 16 ≤ 8 then
    some (tokenLength % 2 ^ 16, (st.indexes (tokenLength % 2 ^ 16)).length)
  else none

/-- One call after the other. -/
def handleAddIndexes (st : LogStore D) : List Nat → LogStore D × List IndexAdded
  | [] => (st, [])
  | len :: lens =>
    (((st.handleAddIndex len).1.handleAddIndexes lens).1,
      ⟨len, (st.handleAddIndex len).2, st.newPlace len⟩ ::
        ((st.handleAddIndex len).1.handleAddIndexes lens).2)

/-- `filter_count`, in `n` steps of its loop. -/
def filterCount (st : LogStore D) (n indexId tokMin tokMax : Nat) : Option Nat :=
  match indexFamily (indexId / offsetMin) with
  | none => some 0
  | some k => (st.indexes k)[indexId % offsetMin]?.bind fun index =>
    countFrom index.atKey tokMax n tokMin 0

/-- `update_indexes`, `filter` and `filter_count` take the id for that of the index. -/
structure Resolves (st : LogStore D) (id : Nat) {k : Nat} (i : Nat) (index : LogIndex k) : Prop where
  updates : ∀ rid key, st.addEntry rid ⟨id, key⟩ = (index.addEntry key rid).map fun index' =>
    { st with indexes := Function.update st.indexes k ((st.indexes k).set i index') }
  filters : ∀ tokMin tokMax,
    st.filter id tokMin tokMax = some (index.filter tokMin tokMax st.olog.numIds)
  counts : ∀ n tokMin tokMax,
    st.filterCount n id tokMin tokMax = countFrom index.atKey tokMax n tokMin 0

/-- Zero stands for the lengths outside 1 to 8, the other ids are distinct, and each
leads to the index of its call. -/
structure IdsRoute (st : LogStore D) (calls : List IndexAdded) : Prop where
  zero_iff : ∀ c ∈ calls, c.id = 0 ↔ ¬ (1 ≤ c.tokenLength ∧ c.tokenLength ≤ 8)
  distinct : calls.Pairwise fun c c' => c.id ≠ 0 → c.id ≠ c'.id
  resolves : ∀ c ∈ calls, c.id ≠ 0 → ∃ (k i : Nat) (index : LogIndex k), c.place = some (k, i) ∧
    (st.indexes k)[i]? = some index ∧ st.Resolves c.id i index

/-! ## What the calls create -/

section

omit [Datalog D]

theorem handleAddIndexes_indexes (lens : List Nat) (k : Nat) : ∀ st : LogStore D,
    (st.handleAddIndexes lens).1.indexes k = st.indexes k ++
      List.replicate (if 1 ≤ k ∧ k ≤ 8 then lens.countP (· % 2 ^ 16 = k) else 0) (.fresh k) := by
  induction lens with
  | nil => simp [handleAddIndexes]
  | cons len lens ih =>
    intro st
    rw [handleAddIndexes, ih, handleAddIndex, addIndex_indexes]
    by_cases hk : 1 ≤ k ∧ k ≤ 8
    · rw [if_pos hk, if_pos hk, List.append_assoc]
      by_cases hkl : k = len % 2 ^ 16
      · rw [if_pos ⟨hkl, hk⟩, List.countP_cons_of_pos (by simpa using hkl.symm), List.replicate_succ]
        rfl
      · rw [if_neg fun h => hkl h.1, List.countP_cons_of_neg (by simpa using Ne.symm hkl),
          List.nil_append]
    · rw [if_neg hk, if_neg hk, if_neg fun h => hk h.2, List.append_nil]

theorem length_handleAddIndexes (lens : List Nat) (st : LogStore D) (k : Nat) :
    (st.indexes k).length ≤ ((st.handleAddIndexes lens).1.indexes k).length := by
  rw [handleAddIndexes_indexes, List.length_append]
  exact Nat.le_add_right _ _

theorem tokenLength_handleAddIndexes (lens : List Nat) : ∀ st : LogStore D,
    (st.handleAddIndexes lens).2.map IndexAdded.tokenLength = lens := by
  induction lens with
  | nil => exact fun _ => rfl
  | cons len lens ih =>
    intro st
    rw [handleAddIndexes, List.map_cons, ih]

theorem newPlace_eq {st : LogStore D} {len k i : Nat} (h : st.newPlace len = some (k, i)) :
    (1 ≤ k ∧ k ≤ 8) ∧ len % 2 ^ 16 = k ∧ i = (st.indexes k).length ∧
      (st.handleAddIndex len).2 = (indexOffset k + i) % 2 ^ 32 ∧
      ((st.handleAddIndex len).1.indexes k).length = i + 1 := by
  rw [newPlace] at h
  split at h
  · next hlen =>
    cases h
    refine ⟨hlen, rfl, rfl, ?_, ?_⟩
    · rw [handleAddIndex, addIndex, if_pos hlen]
    · rw [handleAddIndex, addIndex_indexes, if_pos ⟨rfl, hlen⟩, List.length_append]
      rfl
  · cases h

theorem newPlace_none {st : LogStore D} {len : Nat} (h : st.newPlace len = none) :
    ¬ (1 ≤ len % 2 ^ 16 ∧ len % 2 ^ 16 ≤ 8) ∧ (st.handleAddIndex len).2 = 0 := by
  rw [newPlace] at h
  split at h
  · cases h
  · next hlen =>
    refine ⟨hlen, ?_⟩
    rw [handleAddIndex, addIndex, if_neg hlen]
    rfl

/-- A call that creates an index returns the id of its place. -/
theorem place_some (lens : List Nat) : ∀ (st : LogStore D) {c : IndexAdded} {k i : Nat},
    c ∈ (st.handleAddIndexes lens).2 → c.place = some (k, i) →
    (1 ≤ k ∧ k ≤ 8) ∧ c.tokenLength % 2 ^ 16 = k ∧ (st.indexes k).length ≤ i ∧
      i < ((st.handleAddIndexes lens).1.indexes k).length ∧
      c.id = (indexOffset k + i) % 2 ^ 32 := by
  induction lens with
  | nil =>
    intro st c k i hc
    cases hc
  | cons len lens ih =>
    intro st c k i hc hp
    rcases List.mem_cons.mp hc with rfl | hc
    · obtain ⟨hk, hlen, rfl, hid, hnext⟩ := newPlace_eq hp
      refine ⟨hk, hlen, Nat.le_refl _, ?_, hid⟩
      exact Nat.lt_of_lt_of_le (by omega) (length_handleAddIndexes lens (st.handleAddIndex len).1 k)
    · obtain ⟨hk, hlen, hge, hlt, hid⟩ := ih _ hc hp
      refine ⟨hk, hlen, Nat.le_trans ?_ hge, hlt, hid⟩
      rw [handleAddIndex, addIndex_indexes, List.length_append]
      exact Nat.le_add_right _ _

/-- A call that creates none returns zero. -/
theorem place_none (lens : List Nat) : ∀ (st : LogStore D) {c : IndexAdded},
    c ∈ (st.handleAddIndexes lens).2 → c.place = none →
    ¬ (1 ≤ c.tokenLength % 2 ^ 16 ∧ c.tokenLength % 2 ^ 16 ≤ 8) ∧ c.id = 0 := by
  induction lens with
  | nil =>
    intro st c hc
    cases hc
  | cons len lens ih =>
    intro st c hc hp
    rcases List.mem_cons.mp hc with rfl | hc
    · exact newPlace_none hp
    · exact ih _ hc hp

/-- Every new index was created by a call. -/
theorem exists_place (lens : List Nat) : ∀ (st : LogStore D) {k i : Nat},
    (st.indexes k).length ≤ i → i < ((st.handleAddIndexes lens).1.indexes k).length →
    ∃ c ∈ (st.handleAddIndexes lens).2, c.place = some (k, i) := by
  induction lens with
  | nil =>
    intro st k i hge hlt
    exact absurd hlt (Nat.not_lt.mpr hge)
  | cons len lens ih =>
    intro st k i hge hlt
    by_cases hnext : ((st.handleAddIndex len).1.indexes k).length ≤ i
    · obtain ⟨c, hc, hp⟩ := ih _ hnext hlt
      exact ⟨c, List.mem_cons_of_mem _ hc, hp⟩
    · refine ⟨_, List.mem_cons_self, ?_⟩
      rw [handleAddIndex, addIndex_indexes, List.length_append] at hnext
      by_cases hk : k = len % 2 ^ 16 ∧ 1 ≤ k ∧ k ≤ 8
      · rw [if_pos hk, List.length_singleton] at hnext
        obtain ⟨rfl, hk⟩ := hk
        have hi : i = (st.indexes (len % 2 ^ 16)).length := by omega
        rw [newPlace, if_pos hk, hi]
      · rw [if_neg hk, List.length_nil] at hnext
        omega

/-- No two calls create the same index. -/
theorem places_distinct (lens : List Nat) : ∀ st : LogStore D,
    (st.handleAddIndexes lens).2.Pairwise fun c c' => c.place ≠ none → c.place ≠ c'.place := by
  induction lens with
  | nil => exact fun _ => List.Pairwise.nil
  | cons len lens ih =>
    intro st
    refine List.pairwise_cons.mpr ⟨fun c hc hne heq => ?_, ih _⟩
    obtain ⟨⟨k, i⟩, hp⟩ := Option.ne_none_iff_exists'.mp hne
    obtain ⟨-, -, -, -, hnext⟩ := newPlace_eq hp
    obtain ⟨-, -, hge, -, -⟩ := place_some lens _ hc (heq.symm.trans hp)
    omega

end

/-! ## Where ids lead -/

section

omit [Datalog D]

/-- The id of one of the first 1024 positions of a family leads there. -/
theorem resolves_id {st : LogStore D} {k i : Nat} (hk : 1 ≤ k ∧ k ≤ 8) (hi : i < offsetMin)
    {index : LogIndex k} (hindex : (st.indexes k)[i]? = some index) :
    st.Resolves (indexOffset k + i) i index := by
  obtain ⟨hf, hm⟩ := indexFamily_id hk hi
  refine ⟨fun rid key => ?_, fun tokMin tokMax => ?_, fun n tokMin tokMax => ?_⟩
  · simp only [addEntry, hf, hm, hindex]
  · simp only [filter, hf, hm, hindex, Option.map_some]
    rfl
  · simp only [filterCount, hf, hm, hindex, Option.bind_some]

theorem addEntry_other {st st' : LogStore D} {rid : Nat} {t : Token} {k : Nat}
    (hf : indexFamily (t.indexId / offsetMin) ≠ some k) (h : st.addEntry rid t = .ok st') :
    st'.indexes k = st.indexes k := by
  rw [addEntry] at h
  split at h
  · cases h
    rfl
  · next k' hk' =>
    split at h
    · cases h
    · next index _ =>
      cases hadd : index.addEntry t.data rid with
      | error e =>
        rw [hadd] at h
        cases h
      | ok index' =>
        rw [hadd] at h
        cases h
        exact Function.update_of_ne (fun heq => hf (by rw [hk', heq])) _ _

/-- The id behind the first 1024 of a family is of another one, or of none. -/
theorem indexFamily_next {k : Nat} (hk : 1 ≤ k ∧ k ≤ 8) :
    indexFamily ((indexOffset k + 1024) / offsetMin) ≠ some k := by
  rcases index_cases hk with rfl | rfl | rfl | rfl | rfl | rfl | rfl | rfl <;> decide

theorem added_ne {k : Nat} (index : LogIndex k) (key val : Nat) : index.added key val ≠ index := by
  intro heq
  have hself := index.list_added_self key val
  rw [heq] at hself
  cases hlist : index.list key with
  | none =>
    rw [hlist] at hself
    cases hself
  | some list =>
    rw [hlist] at hself
    simp at hself

theorem not_resolves_next {st : LogStore D} {k : Nat} (hk : 1 ≤ k ∧ k ≤ 8) {index : LogIndex k}
    (hindex : (st.indexes k)[1024]? = some index) :
    ¬ st.Resolves (indexOffset k + 1024) 1024 index := by
  intro h
  have hin := LogIndex.inBounds_of_lt hk (show 0 < 256 ^ k from Nat.pow_pos (by decide))
  have hadd : index.addEntry 0 0 = .ok (index.added 0 0) := if_pos hin
  have hok := h.updates 0 0
  rw [hadd] at hok
  have hsame := addEntry_other (indexFamily_next hk) hok
  have hplace := congrArg (fun l => l[1024]?) hsame
  obtain ⟨hlt, -⟩ := List.getElem?_eq_some_iff.mp hindex
  simp only [Function.update_self, List.getElem?_set_self hlt, hindex, Option.some.injEq] at hplace
  exact added_ne index 0 0 hplace

end

/-! ## When the ids route -/

theorem indexOffset_lt {k : Nat} (hk : 1 ≤ k ∧ k ≤ 8) : 0 < indexOffset k ∧ indexOffset k ≤ 131072 := by
  rcases index_cases hk with rfl | rfl | rfl | rfl | rfl | rfl | rfl | rfl <;> decide

theorem id_eq {k i : Nat} (hk : 1 ≤ k ∧ k ≤ 8) (hi : i ≤ 1024) :
    (indexOffset k + i) % 2 ^ 32 = indexOffset k + i := by
  have hoff := indexOffset_lt hk
  exact Nat.mod_eq_of_lt (by omega)

/-- No length is cut to one from 1 to 8. -/
def Uncut (lens : List Nat) : Prop := ∀ len ∈ lens, 1 ≤ len % 2 ^ 16 ∧ len % 2 ^ 16 ≤ 8 → len ≤ 8

theorem Uncut.count_eq {lens : List Nat} (h : Uncut lens) {k : Nat} (hk : 1 ≤ k ∧ k ≤ 8) :
    lens.countP (· % 2 ^ 16 = k) = lens.count k := by
  rw [List.count_eq_countP]
  refine List.countP_congr fun len hlen => ?_
  have hle := h len hlen
  simp only [decide_eq_true_eq, beq_iff_eq]
  omega

omit [Datalog D] in
/-- Ids that route have no family with more than 1024 indexes. -/
theorem IdsRoute.length_le {st : LogStore D} {lens : List Nat} (hst : ∀ k, st.indexes k = [])
    (h : IdsRoute (st.handleAddIndexes lens).1 (st.handleAddIndexes lens).2) {k : Nat}
    (hk : 1 ≤ k ∧ k ≤ 8) : ((st.handleAddIndexes lens).1.indexes k).length ≤ 1024 := by
  by_contra hgt
  obtain ⟨c, hc, hp⟩ := exists_place lens st (by simp [hst k]) (Nat.not_le.mp hgt)
  obtain ⟨-, -, -, -, hid⟩ := place_some lens st hc hp
  rw [id_eq hk (Nat.le_refl _)] at hid
  have hne : c.id ≠ 0 := by
    have := (indexOffset_lt hk).1
    omega
  obtain ⟨k', i', index, hp', hindex, hres⟩ := h.resolves c hc hne
  cases hp.symm.trans hp'
  rw [hid] at hres
  exact not_resolves_next hk hindex hres

omit [Datalog D] in
/-- With at most 1024 indexes a family and no length cut, the ids route. -/
theorem idsRoute_of_uncut {st : LogStore D} {lens : List Nat} (hcut : Uncut lens)
    (hlen : ∀ k, 1 ≤ k ∧ k ≤ 8 → ((st.handleAddIndexes lens).1.indexes k).length ≤ 1024) :
    IdsRoute (st.handleAddIndexes lens).1 (st.handleAddIndexes lens).2 := by
  have hplace : ∀ c ∈ (st.handleAddIndexes lens).2, c.id ≠ 0 → ∃ k i, c.place = some (k, i) := by
    intro c hc hne
    cases hp : c.place with
    | none => exact absurd (place_none lens st hc hp).2 hne
    | some p => exact ⟨p.1, p.2, rfl⟩
  have hspec : ∀ c ∈ (st.handleAddIndexes lens).2, ∀ k i, c.place = some (k, i) →
      (1 ≤ k ∧ k ≤ 8) ∧ i < offsetMin ∧ c.id = indexOffset k + i ∧ c.id ≠ 0 := by
    intro c hc k i hp
    obtain ⟨hk, -, -, hlt, hid⟩ := place_some lens st hc hp
    have hi : i < offsetMin := Nat.lt_of_lt_of_le hlt (hlen k hk)
    rw [id_eq hk (Nat.le_of_lt hi)] at hid
    refine ⟨hk, hi, hid, ?_⟩
    have := (indexOffset_lt hk).1
    omega
  refine ⟨fun c hc => ?_, ?_, fun c hc hne => ?_⟩
  · have hmem : c.tokenLength ∈ lens := by
      rw [← tokenLength_handleAddIndexes lens st]
      exact List.mem_map_of_mem hc
    have hle := hcut _ hmem
    cases hp : c.place with
    | none =>
      obtain ⟨hnot, hid⟩ := place_none lens st hc hp
      exact iff_of_true hid (by omega)
    | some p =>
      obtain ⟨hk, hlenk, -⟩ := place_some lens st hc hp
      obtain ⟨-, -, -, hne⟩ := hspec c hc _ _ hp
      exact iff_of_false hne (by omega)
  · refine (places_distinct lens st).imp_of_mem fun {c c'} hc hc' hne h0 heq => ?_
    obtain ⟨k, i, hp⟩ := hplace c hc h0
    obtain ⟨k', i', hp'⟩ := hplace c' hc' (by rwa [← heq])
    obtain ⟨hk, hi, hid, -⟩ := hspec c hc k i hp
    obtain ⟨hk', hi', hid', -⟩ := hspec c' hc' k' i' hp'
    rw [hid, hid'] at heq
    obtain ⟨rfl, rfl⟩ := indexOffset_injective hk hk' hi hi' heq
    exact hne (by simp [hp]) (hp.trans hp'.symm)
  · obtain ⟨k, i, hp⟩ := hplace c hc hne
    obtain ⟨hk, hi, hid, -⟩ := hspec c hc k i hp
    obtain ⟨-, -, -, hlt, -⟩ := place_some lens st hc hp
    have hindex := List.getElem?_eq_getElem hlt
    refine ⟨k, i, _, hp, hindex, ?_⟩
    rw [hid]
    exact resolves_id hk hi hindex

/-- The ids of a sequence of calls route exactly if no length is cut to one from 1 to 8
and no length from 1 to 8 occurs more than 1024 times. -/
theorem idsRoute_iff (lens : List Nat) :
    IdsRoute ((empty : LogStore D).handleAddIndexes lens).1
        ((empty : LogStore D).handleAddIndexes lens).2 ↔
      Uncut lens ∧ ∀ k, 1 ≤ k ∧ k ≤ 8 → lens.count k ≤ 1024 := by
  have hlength : ∀ k, 1 ≤ k ∧ k ≤ 8 →
      (((empty : LogStore D).handleAddIndexes lens).1.indexes k).length =
        lens.countP (· % 2 ^ 16 = k) := by
    intro k hk
    rw [handleAddIndexes_indexes, if_pos hk]
    simp [empty]
  constructor
  · intro h
    have hcut : Uncut lens := by
      intro len hlen hsmall
      by_contra hgt
      rw [← tokenLength_handleAddIndexes lens (empty : LogStore D)] at hlen
      obtain ⟨c, hc, rfl⟩ := List.mem_map.mp hlen
      cases hp : c.place with
      | none => exact (place_none lens _ hc hp).1 hsmall
      | some p =>
        obtain ⟨hk, -, -, hlt, hid⟩ := place_some lens _ hc hp
        have hle := h.length_le (fun _ => rfl) hk
        rw [id_eq hk (by omega)] at hid
        have hzero := (h.zero_iff c hc).mpr (by omega)
        have := (indexOffset_lt hk).1
        omega
    refine ⟨hcut, fun k hk => ?_⟩
    rw [← hcut.count_eq hk, ← hlength k hk]
    exact h.length_le (fun _ => rfl) hk
  · rintro ⟨hcut, hcount⟩
    refine idsRoute_of_uncut hcut fun k hk => ?_
    rw [hlength k hk, hcut.count_eq hk]
    exact hcount k hk

/-- The length 65537 creates an index of one byte. -/
theorem not_idsRoute : ¬ ∀ lens : List Nat,
    IdsRoute ((empty : LogStore FlatLog).handleAddIndexes lens).1
      ((empty : LogStore FlatLog).handleAddIndexes lens).2 := by
  intro h
  have hmem : (⟨65537, 1024, some (1, 0)⟩ : IndexAdded) ∈
      ((empty : LogStore FlatLog).handleAddIndexes [65537]).2 := List.mem_singleton.mpr rfl
  exact absurd (((h [65537]).zero_iff _ hmem).mpr (by decide)) (by decide)

end LogStore

end Netplay
