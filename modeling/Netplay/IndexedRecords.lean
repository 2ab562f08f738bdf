import Mathlib.Data.List.Count
import Netplay.LogStore

/-!
# Insert, then filter

A store to which indexes were added and then records, one after the other. The
list of a key in an index is the ids of the records with that token, in the order
of their insertion, and a filter visits the lists of its range.
-/

namespace Netplay

/-! ## The families of indexes -/

theorem index_cases {k : Nat} (h : 1 ≤ k ∧ k ≤ 8) :
    k = 1 ∨ k = 2 ∨ k = 3 ∨ k = 4 ∨ k = 5 ∨ k = 6 ∨ k = 7 ∨ k = 8 := by omega

/-- An index of `k` bytes has the keys of `k` bytes. -/
theorem span_indexSizes {k : Nat} (h : 1 ≤ k ∧ k ≤ 8) : span (indexSizes k) = 256 ^ k := by
  rcases index_cases h with rfl | rfl | rfl | rfl | rfl | rfl | rfl | rfl <;> rfl

theorem selectable_indexSizes {k : Nat} (h : 1 ≤ k ∧ k ≤ 8) : Tier.Selectable (indexSizes k) := by
  rcases index_cases h with rfl | rfl | rfl | rfl | rfl | rfl | rfl | rfl <;>
    simp [Tier.Selectable, indexSizes]

theorem indexOffset_family {k : Nat} (h : 1 ≤ k ∧ k ≤ 8) :
    ∃ d, indexOffset k = offsetMin * d ∧ indexFamily d = some k := by
  rcases index_cases h with rfl | rfl | rfl | rfl | rfl | rfl | rfl | rfl
  · exact ⟨1, rfl, rfl⟩
  · exact ⟨2, rfl, rfl⟩
  · exact ⟨4, rfl, rfl⟩
  · exact ⟨8, rfl, rfl⟩
  · exact ⟨16, rfl, rfl⟩
  · exact ⟨32, rfl, rfl⟩
  · exact ⟨64, rfl, rfl⟩
  · exact ⟨128, rfl, rfl⟩

/-- The first 1024 ids of a family lead back to it. -/
theorem indexFamily_id {k i : Nat} (h : 1 ≤ k ∧ k ≤ 8) (hi : i < offsetMin) :
    indexFamily ((indexOffset k + i) / offsetMin) = some k ∧
      (indexOffset k + i) % offsetMin = i := by
  obtain ⟨d, hd, hf⟩ := indexOffset_family h
  rw [hd, Nat.mul_add_mod, Nat.mod_eq_of_lt hi, Nat.mul_add_div (by decide : offsetMin > 0),
    Nat.div_eq_of_lt hi, Nat.add_zero]
  exact ⟨hf, rfl⟩

theorem indexOffset_injective {k k' i i' : Nat} (h : 1 ≤ k ∧ k ≤ 8) (h' : 1 ≤ k' ∧ k' ≤ 8)
    (hi : i < offsetMin) (hi' : i' < offsetMin) (heq : indexOffset k + i = indexOffset k' + i') :
    k = k' ∧ i = i' := by
  obtain ⟨h1, h2⟩ := indexFamily_id h hi
  obtain ⟨h1', h2'⟩ := indexFamily_id h' hi'
  rw [heq, h1'] at h1
  rw [heq, h2'] at h2
  exact ⟨(Option.some.inj h1).symm, h2.symm⟩

/-- A list that is created with its first entry. -/
def listOf (entries : List Nat) : Option (List Nat) :=
  if entries = [] then none else some entries

@[simp] theorem listOf_getD (entries : List Nat) : (listOf entries).getD [] = entries := by
  by_cases h : entries = [] <;> simp [listOf, h]

theorem listOf_append_one (entries : List Nat) (v : Nat) :
    listOf (entries ++ [v]) = some (entries ++ [v]) := by simp [listOf]

theorem listOf_ne (entries : List Nat) : listOf entries ≠ some [] := by
  by_cases h : entries = [] <;> simp [listOf, h]

theorem mem_of_listOf {entries list : List Nat} (h : listOf entries = some list) :
    list = entries := by
  by_cases he : entries = []
  · simp [listOf, he] at h
  · simpa [listOf, he] using h.symm

namespace LogIndex

variable {k : Nat}

theorem inBounds_of_lt (hk : 1 ≤ k ∧ k ≤ 8) {key : Nat} (h : key < 256 ^ k) :
    Tier.inBounds (indexSizes k) key = true :=
  Tier.inBounds_of_lt (by rw [span_indexSizes hk]; exact h)

theorem list_fresh (hk : 1 ≤ k ∧ k ≤ 8) (key : Nat) : (fresh k).list key = none := by
  rcases index_cases hk with rfl | rfl | rfl | rfl | rfl | rfl | rfl | rfl <;> rfl

theorem list_added_self (index : LogIndex k) (key val : Nat) :
    (index.added key val).list key = some ((index.list key).getD [] ++ [val]) :=
  Tier.atKey_modify_self _ _ _ _

theorem list_added_other (hk : 1 ≤ k ∧ k ≤ 8) (index : LogIndex k) {key key' : Nat} (val : Nat)
    (h : key < 256 ^ k) (h' : key' < 256 ^ k) (hne : key' ≠ key) :
    (index.added key val).list key' = index.list key' :=
  Tier.atKey_modify_other _ (selectable_indexSizes hk) _ (by rw [span_indexSizes hk]; exact h)
    (by rw [span_indexSizes hk]; exact h') hne

end LogIndex

namespace LogStore

variable {D : Type} [Datalog D]

/-! ## Sequences of calls -/

/-- `add_index` for each of the lengths, with the ids returned. -/
def addIndexes (st : LogStore D) : List Nat → LogStore D × List Nat
  | [] => (st, [])
  | len :: lens =>
    (((st.addIndex len).1.addIndexes lens).1,
      (st.addIndex len).2 :: ((st.addIndex len).1.addIndexes lens).2)

/-- `insert` of each of the records, with the ids returned. -/
def inserts (st : LogStore D) : List Record → Except Halt (LogStore D × List Nat)
  | [] => .ok (st, [])
  | r :: rs => (st.insert r).bind fun p => (p.1.inserts rs).map fun q => (q.1, p.2 :: q.2)

/-- The ids that the tokens of a record add to the list of a key. -/
def tokenEntries (id : Nat) (tokens : List Token) (indexId key : Nat) : List Nat :=
  (tokens.filter fun t => t = ⟨indexId, key⟩).map fun _ => id

/-- The ids of the records in the list of a key: one for each such token, in order. -/
def keyEntries (inserted : List (Record × Nat)) (indexId key : Nat) : List Nat :=
  inserted.flatMap fun p => tokenEntries p.2 p.1.tokens indexId key

/-! ## What the indexes hold -/

/-- The index of family `k` at place `i` holds the entries given for its id. -/
def Contents (st : LogStore D) (entries : Nat → Nat → List Nat) : Prop :=
  ∀ k, 1 ≤ k ∧ k ≤ 8 → ∀ i index, (st.indexes k)[i]? = some index → ∀ key, key < 256 ^ k →
    index.list key = listOf (entries (indexOffset k + i) key)

/-- No family has more indexes than it has ids. -/
def Routed (st : LogStore D) : Prop := ∀ k, (st.indexes k).length ≤ offsetMin

/-- The id was returned for an index that the store has, and the key is one of its keys;
or it is the zero of a failed `add_index`. -/
def Accepts (st : LogStore D) (t : Token) : Prop :=
  t.indexId = 0 ∨ ∃ k i, (1 ≤ k ∧ k ≤ 8) ∧ i < (st.indexes k).length ∧
    t.indexId = indexOffset k + i ∧ t.data < 256 ^ k

/-- The operation adds the id to the lists of the tokens. -/
structure Adds (st st' : LogStore D) (id : Nat) (tokens : List Token) : Prop where
  olog : st'.olog = st.olog
  dlog : st'.dlog = st.dlog
  dtail : st'.dtail = st.dtail
  lengths : ∀ k, (st'.indexes k).length = (st.indexes k).length
  contents : ∀ entries, st.Contents entries →
    st'.Contents fun indexId key => entries indexId key ++ tokenEntries id tokens indexId key

theorem tokenEntries_cons (id : Nat) (t : Token) (tokens : List Token) (indexId key : Nat) :
    tokenEntries id (t :: tokens) indexId key =
      tokenEntries id [t] indexId key ++ tokenEntries id tokens indexId key := by
  by_cases h : t = ⟨indexId, key⟩ <;> simp [tokenEntries, h]

omit [Datalog D] in
theorem Contents.congr {st : LogStore D} {entries entries' : Nat → Nat → List Nat}
    (h : st.Contents entries) (heq : ∀ k, 1 ≤ k ∧ k ≤ 8 → ∀ i key, i < (st.indexes k).length →
      entries' (indexOffset k + i) key = entries (indexOffset k + i) key) :
    st.Contents entries' := by
  intro k hk i index hi key hkey
  obtain ⟨hlt, -⟩ := List.getElem?_eq_some_iff.mp hi
  rw [heq k hk i key hlt]
  exact h k hk i index hi key hkey

omit [Datalog D] in
/-- What `add_entry` of the token's index does to the store. -/
theorem addEntry_eq (st : LogStore D) (id : Nat) (t : Token) {k i : Nat} (hk : 1 ≤ k ∧ k ≤ 8)
    (hr : st.Routed) (hi : i < (st.indexes k).length) (hid : t.indexId = indexOffset k + i)
    (hkey : t.data < 256 ^ k) :
    st.addEntry id t = .ok { st with
      indexes := Function.update st.indexes k
        ((st.indexes k).set i ((st.indexes k)[i].added t.data id)) } := by
  obtain ⟨hf, hm⟩ := indexFamily_id hk (Nat.lt_of_lt_of_le hi (hr k))
  have hin := LogIndex.inBounds_of_lt hk hkey
  simp only [addEntry, hid, hf, hm, List.getElem?_eq_getElem hi, LogIndex.addEntry, hin, if_true]
  rfl

theorem tokenEntries_other {id : Nat} {t : Token} {indexId key : Nat} (h : t ≠ ⟨indexId, key⟩) :
    tokenEntries id [t] indexId key = [] := by simp [tokenEntries, h]

omit [Datalog D] in
/-- The list of the token's key gets the entry, and no other list. -/
theorem contents_added {st : LogStore D} (hr : st.Routed) (id : Nat) {t : Token} {k i : Nat}
    (hk : 1 ≤ k ∧ k ≤ 8) (hi : i < (st.indexes k).length) (hid : t.indexId = indexOffset k + i)
    (hkey : t.data < 256 ^ k) {entries : Nat → Nat → List Nat} (h : st.Contents entries) :
    Contents { st with
      indexes := Function.update st.indexes k
        ((st.indexes k).set i ((st.indexes k)[i].added t.data id)) }
      fun indexId key => entries indexId key ++ tokenEntries id [t] indexId key := by
  intro k' hk' i' index hi' key hkey'
  change index.list key =
    listOf (entries (indexOffset k' + i') key ++ tokenEntries id [t] (indexOffset k' + i') key)
  by_cases hkk : k' = k
  · subst hkk
    simp only [Function.update_self, List.getElem?_set] at hi'
    by_cases hii : i = i'
    · subst hii
      rw [if_pos rfl, if_pos hi] at hi'
      cases hi'
      have hold := h k' hk' i (st.indexes k')[i] (List.getElem?_eq_getElem hi) key hkey'
      by_cases hkeys : key = t.data
      · subst hkeys
        have ht : tokenEntries id [t] (indexOffset k' + i) t.data = [id] := by
          simp [tokenEntries, ← hid]
        rw [LogIndex.list_added_self, hold, listOf_getD, ht, listOf_append_one]
      · have hne : t ≠ ⟨indexOffset k' + i, key⟩ := fun heq => hkeys (by rw [heq])
        rw [LogIndex.list_added_other hk' _ id hkey hkey' hkeys, hold, tokenEntries_other hne,
          List.append_nil]
    · rw [if_neg hii] at hi'
      have hne : t ≠ ⟨indexOffset k' + i', key⟩ := by
        rintro rfl
        exact hii (Nat.add_left_cancel hid).symm
      rw [h k' hk' i' index hi' key hkey', tokenEntries_other hne, List.append_nil]
  · simp only [Function.update_of_ne hkk] at hi'
    have hne : t ≠ ⟨indexOffset k' + i', key⟩ := by
      rintro rfl
      obtain ⟨hlt, -⟩ := List.getElem?_eq_some_iff.mp hi'
      exact hkk (indexOffset_injective hk' hk (Nat.lt_of_lt_of_le hlt (hr k'))
        (Nat.lt_of_lt_of_le hi (hr k)) hid).1
    rw [h k' hk' i' index hi' key hkey', tokenEntries_other hne, List.append_nil]

omit [Datalog D] in
/-- A token for an accepted index is added to the list of its key. -/
theorem addEntry_adds {st : LogStore D} (hr : st.Routed) (id : Nat) {t : Token}
    (ht : st.Accepts t) : ∃ st', st.addEntry id t = .ok st' ∧ st.Adds st' id [t] := by
  rcases ht with h0 | ⟨k, i, hk, hi, hid, hkey⟩
  · refine ⟨st, by simp [addEntry, h0, indexFamily, offsetMin],
      rfl, rfl, rfl, fun _ => rfl, fun entries h => h.congr fun k hk i key hi => ?_⟩
    have hne : t ≠ ⟨indexOffset k + i, key⟩ := by
      rintro rfl
      obtain ⟨hf, -⟩ := indexFamily_id hk (Nat.lt_of_lt_of_le hi (hr k))
      have h0' : indexOffset k + i = 0 := h0
      rw [h0'] at hf
      cases hf
    rw [tokenEntries_other hne, List.append_nil]
  · refine ⟨_, addEntry_eq st id t hk hr hi hid hkey, rfl, rfl, rfl, fun k' => ?_,
      fun entries h => contents_added hr id hk hi hid hkey h⟩
    by_cases hkk : k' = k
    · subst hkk
      simp only [Function.update_self, List.length_set]
    · simp only [Function.update_of_ne hkk]

omit [Datalog D] in
theorem Routed.congr {st st' : LogStore D} (h : st.Routed)
    (hl : ∀ k, (st'.indexes k).length = (st.indexes k).length) : st'.Routed := fun k => by
  rw [hl k]
  exact h k

omit [Datalog D] in
theorem Accepts.congr {st st' : LogStore D} {t : Token} (h : st.Accepts t)
    (hl : ∀ k, (st'.indexes k).length = (st.indexes k).length) : st'.Accepts t := by
  rcases h with h0 | ⟨k, i, hk, hi, hid, hkey⟩
  · exact .inl h0
  · exact .inr ⟨k, i, hk, by rw [hl k]; exact hi, hid, hkey⟩

omit [Datalog D] in
/-- `update_indexes` adds the record's id to the list of each of its tokens. -/
theorem updateIndexes_adds (id : Nat) (tokens : List Token) : ∀ {st : LogStore D}, st.Routed →
    (∀ t ∈ tokens, st.Accepts t) →
    ∃ st', st.updateIndexes id tokens = .ok st' ∧ st.Adds st' id tokens := by
  induction tokens with
  | nil =>
    intro st _ _
    refine ⟨st, rfl, rfl, rfl, rfl, fun _ => rfl, fun entries h => h.congr fun k _ i key _ => ?_⟩
    simp [tokenEntries]
  | cons t tokens ih =>
    intro st hr ht
    obtain ⟨st₁, h₁, hadd₁⟩ := addEntry_adds hr id (ht t List.mem_cons_self)
    obtain ⟨st₂, h₂, hadd₂⟩ := ih (hr.congr hadd₁.lengths) fun t' ht' =>
      (ht t' (List.mem_cons_of_mem _ ht')).congr hadd₁.lengths
    refine ⟨st₂, ?_, hadd₂.olog.trans hadd₁.olog, hadd₂.dlog.trans hadd₁.dlog,
      hadd₂.dtail.trans hadd₁.dtail, fun k => (hadd₂.lengths k).trans (hadd₁.lengths k),
      fun entries h => ?_⟩
    · rw [updateIndexes, List.foldlM_cons, h₁]
      exact h₂
    · refine (hadd₂.contents _ (hadd₁.contents _ h)).congr fun k _ i key _ => ?_
      rw [tokenEntries_cons, List.append_assoc]

omit [Datalog D] in
theorem Adds.of_updateIndexes {st st' : LogStore D} {id : Nat} {tokens : List Token}
    (h : st.updateIndexes id tokens = .ok st') (hr : st.Routed) (ht : ∀ t ∈ tokens, st.Accepts t) :
    st.Adds st' id tokens := by
  obtain ⟨st₁, h₁, hadds⟩ := updateIndexes_adds id tokens hr ht
  rw [h₁] at h
  cases h
  exact hadds

/-! ## The indexes that were added -/

omit [Datalog D] in
theorem addIndex_indexes (st : LogStore D) (len k : Nat) :
    (st.addIndex len).1.indexes k =
      st.indexes k ++ if k = len ∧ 1 ≤ k ∧ k ≤ 8 then [.fresh k] else [] := by
  rw [addIndex]
  by_cases hlen : 1 ≤ len ∧ len ≤ 8
  · by_cases hk : k = len
    · subst hk
      simp [hlen]
    · simp [hlen, hk]
  · by_cases hk : k = len
    · subst hk
      simp [hlen]
    · simp [hlen, hk]

omit [Datalog D] in
/-- Each of the lengths from 1 to 8 has added its index. -/
theorem addIndexes_indexes (lens : List Nat) (k : Nat) : ∀ st : LogStore D,
    (st.addIndexes lens).1.indexes k =
      st.indexes k ++ List.replicate (if 1 ≤ k ∧ k ≤ 8 then lens.count k else 0) (.fresh k) := by
  induction lens with
  | nil => simp [addIndexes]
  | cons len lens ih =>
    intro st
    rw [addIndexes, ih, addIndex_indexes]
    by_cases hk : 1 ≤ k ∧ k ≤ 8
    · by_cases hkl : k = len
      · subst hkl
        simp [hk, List.replicate_succ]
      · simp [hk, hkl, List.count_cons_of_ne (Ne.symm hkl)]
    · simp [hk]

omit [Datalog D] in
/-- What `add_index` returned for a length leads to an index of that length, or is zero. -/
theorem addIndexes_ids (lens : List Nat) : ∀ (st : LogStore D) {len id : Nat},
    (len, id) ∈ lens.zip (st.addIndexes lens).2 →
    if 1 ≤ len ∧ len ≤ 8 then
      ∃ i, i < ((st.addIndexes lens).1.indexes len).length ∧ id = indexOffset len + i
    else id = 0 := by
  induction lens with
  | nil =>
    intro st len id h
    cases h
  | cons l lens ih =>
    intro st len id h
    rcases List.mem_cons.mp h with heq | h
    · cases heq
      by_cases hl : 1 ≤ l ∧ l ≤ 8
      · rw [if_pos hl]
        refine ⟨(st.indexes l).length, ?_, by simp [addIndex, hl]⟩
        rw [addIndexes, addIndexes_indexes, addIndex_indexes, if_pos ⟨rfl, hl⟩]
        simp only [List.length_append, List.length_cons, List.length_nil]
        omega
      · rw [if_neg hl]
        simp [addIndex, hl]
    · exact ih _ h

omit [Datalog D] in
theorem addIndexes_olog (lens : List Nat) : ∀ st : LogStore D,
    (st.addIndexes lens).1.olog = st.olog := by
  induction lens with
  | nil => exact fun _ => rfl
  | cons len lens ih =>
    intro st
    rw [addIndexes, ih, addIndex]
    split <;> rfl

theorem addIndexes_routed {lens : List Nat}
    (hlens : ∀ k, 1 ≤ k ∧ k ≤ 8 → lens.count k ≤ offsetMin) :
    ((empty : LogStore D).addIndexes lens).1.Routed := by
  intro k
  rw [addIndexes_indexes]
  split
  · next hk => simpa [empty] using hlens k hk
  · simp [empty]

theorem addIndexes_contents (lens : List Nat) :
    ((empty : LogStore D).addIndexes lens).1.Contents fun _ _ => [] := by
  intro k hk i index hi key _
  rw [addIndexes_indexes] at hi
  obtain rfl : index = LogIndex.fresh k := by
    have hmem := List.mem_of_getElem? hi
    simp only [empty, List.nil_append] at hmem
    exact List.eq_of_mem_replicate hmem
  exact LogIndex.list_fresh hk key

/-! ## The records that were inserted -/

/-- The lists behind an insertion. -/
theorem insert_contents {st st' : LogStore D} {r : Record} {id : Nat}
    (hins : st.insert r = .ok (st', id)) (hr : st.Routed) (ht : ∀ t ∈ r.tokens, st.Accepts t) :
    (∀ k, (st'.indexes k).length = (st.indexes k).length) ∧
      ∀ entries, st.Contents entries → st'.Contents fun indexId key =>
        entries indexId key ++ tokenEntries id r.tokens indexId key := by
  obtain ⟨rfl, body, hbody, -, rfl⟩ := insert_eq hins
  obtain ⟨-, -, -, hindex⟩ := insertBody_iff.mp hbody
  have hadds := Adds.of_updateIndexes hindex hr ht
  exact ⟨hadds.lengths, hadds.contents⟩

theorem inserts_contents (rs : List Record) : ∀ {st st' : LogStore D} {ids : List Nat}
    {entries : Nat → Nat → List Nat}, st.Routed → (∀ r ∈ rs, ∀ t ∈ r.tokens, st.Accepts t) →
    st.Contents entries → st.inserts rs = .ok (st', ids) →
    (∀ k, (st'.indexes k).length = (st.indexes k).length) ∧
      st'.Contents fun indexId key => entries indexId key ++ keyEntries (rs.zip ids) indexId key := by
  induction rs with
  | nil =>
    intro st st' ids entries _ _ h hins
    cases hins
    refine ⟨fun _ => rfl, h.congr fun k _ i key _ => ?_⟩
    simp [keyEntries]
  | cons r rs ih =>
    intro st st' ids entries hr ht h hins
    obtain ⟨⟨st₁, id⟩, h₁, hrest⟩ := ok_of_bind hins
    obtain ⟨hl₁, hc₁⟩ := insert_contents h₁ hr (ht r List.mem_cons_self)
    cases hq : st₁.inserts rs with
    | error e =>
      simp only [hq] at hrest
      cases hrest
    | ok q =>
      simp only [hq] at hrest
      cases hrest
      obtain ⟨hl₂, hc₂⟩ := ih (hr.congr hl₁)
        (fun r' hr' t ht' => (ht r' (List.mem_cons_of_mem _ hr') t ht').congr hl₁) (hc₁ _ h) hq
      refine ⟨fun k => (hl₂ k).trans (hl₁ k), hc₂.congr fun k _ i key _ => ?_⟩
      simp [keyEntries]

/-- Ids count the insertions. -/
theorem inserts_ids (rs : List Record) : ∀ {st st' : LogStore D} {ids : List Nat},
    st.olog.readId = st.olog.writeId → st.inserts rs = .ok (st', ids) →
    ids = List.range' st.olog.readId rs.length ∧
      st'.olog.readId = st.olog.readId + rs.length ∧ st'.olog.readId = st'.olog.writeId := by
  induction rs with
  | nil =>
    intro st st' ids hq hins
    cases hins
    exact ⟨rfl, rfl, hq⟩
  | cons r rs ih =>
    intro st st' ids hq hins
    obtain ⟨⟨st₁, id⟩, h₁, hrest⟩ := ok_of_bind hins
    obtain ⟨rfl, body, hbody, hread, rfl⟩ := insert_eq h₁
    obtain ⟨-, hw, -⟩ := insertBody_counters hbody
    cases hs : LogStore.inserts
        { body with olog := { body.olog with readId := st.olog.writeId + 1 } } rs with
    | error e =>
      simp only [hs] at hrest
      cases hrest
    | ok q =>
      simp only [hs] at hrest
      cases hrest
      obtain ⟨hids, hr', hw'⟩ := ih hw.symm hs
      refine ⟨?_, ?_, hw'⟩
      · rw [hids, List.length_cons, List.range'_succ, hq]
      · rw [hr', List.length_cons, hq]
        simp only
        omega

theorem mem_keyEntries {rs : List Record} {ids : List Nat} {indexId key v : Nat}
    (h : v ∈ keyEntries (rs.zip ids) indexId key) : v ∈ ids := by
  simp only [keyEntries, tokenEntries, List.mem_flatMap, List.mem_map] at h
  obtain ⟨p, hp, t, -, rfl⟩ := h
  exact (List.of_mem_zip hp).2

/-- A token of an added index with one of its keys is accepted. -/
theorem accepts_of_added (lens : List Nat) {t : Token} {len : Nat}
    (hadded : (len, t.indexId) ∈ lens.zip ((empty : LogStore D).addIndexes lens).2)
    (hkey : t.data < 256 ^ len) : ((empty : LogStore D).addIndexes lens).1.Accepts t := by
  have hid := addIndexes_ids lens empty hadded
  split at hid
  · next hlen =>
    obtain ⟨i, hi, hid⟩ := hid
    exact .inr ⟨len, i, hlen, hi, hid, hkey⟩
  · exact .inl hid

omit [Datalog D] in
/-- A filter over an index stands over the entries that the index holds. -/
theorem Contents.holds {st : LogStore D} {entries : Nat → Nat → List Nat} (h : st.Contents entries)
    {len i : Nat} (hlen : 1 ≤ len ∧ len ≤ 8) (hi : i < (st.indexes len).length)
    (hread : ∀ tok, ∀ v ∈ entries (indexOffset len + i) tok, v < st.olog.readId)
    {tokMin tokMax : Nat} (hrange : tokMin ≤ tokMax) (hmax : tokMax < 256 ^ len - 1) :
    FilterResult.Holds ⟨some (st.indexes len)[i].atKey, tokMin, tokMax, st.olog.readId⟩
      fun tok => listOf (entries (indexOffset len + i) tok) := by
  have hlist := h len hlen i _ (List.getElem?_eq_getElem hi)
  have hpow : 256 ^ len ≤ 256 ^ 8 := Nat.pow_le_pow_right (by decide) hlen.2
  refine ⟨fun tok _ hle => ?_, fun tok => listOf_ne _, fun tok list hl v hv => ?_, hrange, ?_⟩
  · have hlt : tok < 256 ^ len := by
      dsimp only at hle
      omega
    rw [← hlist tok hlt]
    exact if_pos (LogIndex.inBounds_of_lt hlen hlt)
  · rw [mem_of_listOf hl] at hv
    exact hread tok v hv
  · dsimp only
    omega

/-- Indexes are added, then records are inserted: a filter visits, token after
token and in the order of insertion, the id of each record once for each of its
tokens in the range. -/
theorem filter_inserted (lens : List Nat) (rs : List Record) {st : LogStore D} {ids : List Nat}
    (hlens : ∀ len, 1 ≤ len ∧ len ≤ 8 → lens.count len ≤ 1024)
    (htok : ∀ r ∈ rs, ∀ t ∈ r.tokens, ∃ len,
      (len, t.indexId) ∈ lens.zip ((empty : LogStore D).addIndexes lens).2 ∧ t.data < 256 ^ len)
    (hins : ((empty : LogStore D).addIndexes lens).1.inserts rs = .ok (st, ids))
    {len indexId : Nat} (hindex : (len, indexId) ∈ lens.zip ((empty : LogStore D).addIndexes lens).2)
    (hlen : 1 ≤ len ∧ len ≤ 8) {tokMin tokMax : Nat} (hrange : tokMin ≤ tokMax)
    (hmax : tokMax < 256 ^ len - 1) :
    ∃ res, st.filter indexId tokMin tokMax = some res ∧
      res.Yields ((List.range' tokMin (tokMax + 1 - tokMin)).flatMap
        (keyEntries (rs.zip ids) indexId)) := by
  have hr := addIndexes_routed (D := D) hlens
  have hacc : ∀ r ∈ rs, ∀ t ∈ r.tokens, ((empty : LogStore D).addIndexes lens).1.Accepts t := by
    intro r hmem t ht
    obtain ⟨l, hl, hkey⟩ := htok r hmem t ht
    exact accepts_of_added lens hl hkey
  obtain ⟨hlengths, hcontents⟩ := inserts_contents rs hr hacc (addIndexes_contents lens) hins
  have hids := addIndexes_ids lens (empty : LogStore D) hindex
  rw [if_pos hlen] at hids
  obtain ⟨i, hi, rfl⟩ := hids
  rw [← hlengths] at hi
  obtain ⟨hf, hm⟩ := indexFamily_id hlen (Nat.lt_of_lt_of_le hi ((hr.congr hlengths) len))
  refine ⟨⟨some (st.indexes len)[i].atKey, tokMin, tokMax, st.olog.readId⟩, ?_, ?_⟩
  · simp only [filter, hf, hm, List.getElem?_eq_getElem hi, Option.map_some]
    rfl
  · have hread : ∀ tok, ∀ v ∈ [] ++ keyEntries (rs.zip ids) (indexOffset len + i) tok,
        v < st.olog.readId := by
      intro tok v hv
      obtain ⟨hids, hread, -⟩ := inserts_ids rs (by rw [addIndexes_olog]; rfl) hins
      have hmem := mem_keyEntries hv
      rw [hids] at hmem
      obtain ⟨j, hj, rfl⟩ := List.mem_range'.mp hmem
      omega
    have hholds := Contents.holds hcontents hlen hi hread hrange hmax
    have hyields := FilterResult.yields_rest hholds
    simpa only [FilterResult.rest, listOf_getD, List.nil_append] using hyields

/-! ## Insertions return -/

/-- On the flat data log an insertion returns, if the offset log has a place for it. -/
theorem insert_returns {st : LogStore FlatLog} {r : Record} (hr : st.Routed)
    (ht : ∀ t ∈ r.tokens, st.Accepts t) (hq : st.olog.readId = st.olog.writeId)
    (hid : OffsetLog.inBuckets st.olog.writeId = true) :
    ∃ st', st.insert r = .ok (st', st.olog.writeId) := by
  obtain ⟨body, hindex, -⟩ := @updateIndexes_adds FlatLog st.olog.writeId r.tokens (st.logged r) hr ht
  have hbody : st.insertBody r = .ok body := insertBody_iff.mpr ⟨rfl, hid, rfl, hindex⟩
  have hread : body.olog.readId = st.olog.writeId := (insertBody_counters hbody).1.trans hq
  refine ⟨{ body with olog := { body.olog with readId := st.olog.writeId + 1 } }, ?_⟩
  rw [insert, hbody]
  simp only [Except.bind, endBlock, OffsetLog.endBlock, hread, if_true]
  rfl

theorem inserts_return (rs : List Record) : ∀ {st : LogStore FlatLog}, st.Routed →
    (∀ r ∈ rs, ∀ t ∈ r.tokens, st.Accepts t) → st.olog.readId = st.olog.writeId →
    st.olog.writeId + rs.length ≤ OffsetLog.numBuckets * OffsetLog.bucketSize →
    ∃ st' ids, st.inserts rs = .ok (st', ids) := by
  induction rs with
  | nil => exact fun _ _ _ _ => ⟨_, _, rfl⟩
  | cons r rs ih =>
    intro st hr ht hq hcap
    rw [List.length_cons] at hcap
    have hid : OffsetLog.inBuckets st.olog.writeId = true := by
      rw [OffsetLog.inBuckets, decide_eq_true_eq, Nat.div_lt_iff_lt_mul (by decide)]
      omega
    obtain ⟨st₁, h₁⟩ := insert_returns hr (ht r List.mem_cons_self) hq hid
    obtain ⟨hl₁, -⟩ := insert_contents h₁ hr (ht r List.mem_cons_self)
    obtain ⟨-, body, hbody, -, rfl⟩ := insert_eq h₁
    obtain ⟨-, hw, -⟩ := insertBody_counters hbody
    obtain ⟨st₂, ids, h₂⟩ := ih (hr.congr hl₁)
      (fun r' hr' t ht' => (ht r' (List.mem_cons_of_mem _ hr') t ht').congr hl₁) hw.symm
      (by dsimp only; omega)
    refine ⟨st₂, st.olog.writeId :: ids, ?_⟩
    rw [inserts, h₁]
    simp only [Except.bind, h₂]
    rfl

/-- One record with one token in the first one-byte index. -/
def sevenRecord : Record := ⟨[], [⟨1024, 7⟩], by decide⟩

/-- Three records with tokens of an index of one byte and of one of two bytes. -/
def threeRecords : List Record :=
  [⟨[], [⟨1024, 8⟩], by decide⟩, ⟨[5], [⟨1024, 7⟩, ⟨2048, 300⟩], by decide⟩,
    ⟨[6, 6], [⟨1024, 8⟩], by decide⟩]

/-- The record with the smaller token comes first, and the others in the order of insertion. -/
theorem filter_inserted_threeRecords : ∃ (st : LogStore FlatLog) (ids : List Nat)
    (res : FilterResult),
    ((empty : LogStore FlatLog).addIndexes [1, 2]).1.inserts threeRecords = .ok (st, ids) ∧
      st.filter 1024 5 9 = some res ∧ res.Yields [1, 0, 2] := by
  have hone : (1, 1024) ∈ [1, 2].zip ((empty : LogStore FlatLog).addIndexes [1, 2]).2 :=
    List.mem_cons_self
  have htwo : (2, 2048) ∈ [1, 2].zip ((empty : LogStore FlatLog).addIndexes [1, 2]).2 :=
    List.mem_cons_of_mem _ List.mem_cons_self
  have hlens : ∀ len, 1 ≤ len ∧ len ≤ 8 → [1, 2].count len ≤ 1024 := fun len _ =>
    Nat.le_trans List.count_le_length (by decide)
  have htok : ∀ r ∈ threeRecords, ∀ t ∈ r.tokens, ∃ len,
      (len, t.indexId) ∈ [1, 2].zip ((empty : LogStore FlatLog).addIndexes [1, 2]).2 ∧
        t.data < 256 ^ len := by
    simp only [threeRecords, List.forall_mem_cons, List.not_mem_nil, IsEmpty.forall_iff,
      implies_true, and_true]
    exact ⟨⟨1, hone, by decide⟩, ⟨⟨1, hone, by decide⟩, 2, htwo, by decide⟩, 1, hone, by decide⟩
  have hacc : ∀ r ∈ threeRecords, ∀ t ∈ r.tokens,
      ((empty : LogStore FlatLog).addIndexes [1, 2]).1.Accepts t := by
    intro r hr t ht
    obtain ⟨len, hlen, hdata⟩ := htok r hr t ht
    exact accepts_of_added [1, 2] hlen hdata
  obtain ⟨st, ids, hins⟩ := inserts_return threeRecords (addIndexes_routed (D := FlatLog) hlens)
    hacc rfl (by decide)
  obtain ⟨hids, -⟩ := inserts_ids threeRecords rfl hins
  obtain ⟨res, hres, hyields⟩ := filter_inserted [1, 2] threeRecords hlens htok hins hone
    (by decide) (by decide : 5 ≤ 9) (by decide)
  refine ⟨st, ids, res, hins, hres, ?_⟩
  rw [hids] at hyields
  exact hyields

end LogStore

end Netplay
