import Netplay.IndexTiers

/-!
# A tiered index is a map

After calls on a new index, a key that no `get` or `add_entry` has used leads to a null pointer,
and any other key to a list of the values added under it, in their order. The keys have to be
below `max_size` and their lists must have room.

A key from `max_size` on need not lead outside an array: its quotient is cut to a `uint32_t`,
and on depth 4 `max_size` leaves out a level.
-/

namespace Netplay

open IndexClass (Trap)
open KeyedLists

/-! ## Entry lists -/

namespace MonologRelaxed

/-- The entries that the buckets of an entry list have room for. -/
def capacity : Nat := 16 * (2 ^ 24 - 1)

/-- The list has the values as its elements, in their order. -/
structure Holds (list : EntryLog) (vals : List Nat) : Prop where
  size : list.size = vals.length
  get : ∀ j, j < vals.length → list.get j = vals[j]?

theorem holds_init : Holds default [] := ⟨rfl, fun j hj => absurd hj (Nat.not_lt_zero j)⟩

theorem get_eq_some {list : EntryLog} {idx v : Nat} :
    list.get idx = some v ↔ list.log.get idx = some (some v) := Option.join_eq_some_iff

theorem pushBack_room {list : EntryLog} {vals : List Nat} (h : list.Holds vals)
    (hroom : vals.length < capacity) (val : Nat) :
    ∃ list', list.pushBack val = .ok list' ∧ list'.Holds (vals ++ [val]) := by
  have htail : list.tail = vals.length := h.size
  have hcap : capacity + 16 = 2 ^ 28 := by decide
  have hlands : BucketedLog.Lands 24 list.tail := BucketedLog.lands_low (by omega) (by omega)
  obtain ⟨log', hset, hself, hother⟩ :=
    BucketedLog.set_spec hlands list.log (fun _ => none) (some val)
  refine ⟨⟨log', (list.tail + 1) % 2 ^ 64⟩, by rw [pushBack, hset], ?_, ?_⟩
  · rw [size, List.length_append, List.length_singleton, htail]
    exact Nat.mod_eq_of_lt (by omega)
  · intro j hj
    rw [List.length_append, List.length_singleton] at hj
    by_cases hlast : j = vals.length
    · subst hlast
      rw [List.getElem?_append_right (Nat.le_refl _), Nat.sub_self]
      rw [htail] at hself
      exact get_eq_some.mpr hself
    · have hlt : j < vals.length := by omega
      have hget := h.get j hlt
      rw [List.getElem?_append_left hlt]
      rw [List.getElem?_eq_getElem hlt] at hget ⊢
      exact get_eq_some.mpr (hother j _ (by omega) (by omega) (by omega) (get_eq_some.mp hget))

/-- The bucket behind the last one is outside the array. -/
theorem pushBack_full {list : EntryLog} {vals : List Nat} (h : list.Holds vals)
    (hfull : vals.length = capacity) (val : Nat) : list.pushBack val = .error .outside := by
  have htail : list.tail = capacity := h.size.trans hfull
  have hcap : capacity + 16 = 2 ^ 28 := by decide
  have hloc := @BucketedLog.locate_low capacity (by omega)
  have hset : list.log.set (fun _ => none) list.tail (some val) = none := by
    rw [BucketedLog.set, htail, hloc, Option.bind_some, hcap, Nat.log2_two_pow, if_neg (by decide)]
  rw [pushBack, hset]

end MonologRelaxed

open MonologRelaxed

/-! ## The key that a key is taken for -/

namespace Tier

/-- The key of the index with the same cells, if they are in their arrays. -/
def place : (ss : List Nat) → (key : Nat) → Nat
  | [], _ => 0
  | _ :: ss, key => cell ss key * span ss + key % span ss

theorem place_lt {ss : List Nat} (hpos : 0 < span ss) {key : Nat} (h : inBounds ss key = true) :
    place ss key < span ss := by
  cases ss with
  | nil => exact Nat.one_pos
  | cons s ss =>
    have hbelow : 0 < span ss := Nat.pos_of_mul_pos_left hpos
    rw [inBounds_cons hbelow, decide_eq_true_iff] at h
    have hrest : key % span ss < span ss := Nat.mod_lt _ hbelow
    calc cell ss key * span ss + key % span ss < cell ss key * span ss + span ss :=
          Nat.add_lt_add_left hrest _
      _ = (cell ss key + 1) * span ss := (Nat.succ_mul _ _).symm
      _ ≤ s * span ss := Nat.mul_le_mul_right _ h

theorem atKey_place {V : Type} {ss : List Nat} (hpos : 0 < span ss) (t : Tier V ss) (key : Nat) :
    atKey ss t (place ss key) = atKey ss t key := by
  cases ss with
  | nil => rfl
  | cons s ss =>
    have hbelow : 0 < span ss := Nat.pos_of_mul_pos_left hpos
    have hdiv : (cell ss key * span ss + key % span ss) / span ss = cell ss key := by
      rw [Nat.mul_comm, Nat.mul_add_div hbelow, Nat.mod_div_self, Nat.add_zero]
    have hmod : (cell ss key * span ss + key % span ss) % span ss = key % span ss := by
      rw [Nat.mul_comm, Nat.mul_add_mod, Nat.mod_mod]
    have hcell : cell ss (place (s :: ss) key) = cell ss key := by
      rw [cell, place, hdiv, cell, Nat.mod_mod]
    rw [atKey, hcell, place, hmod, atKey]

/-- A key of the index is taken for itself. -/
theorem place_eq {ss : List Nat} (h : HeadCounted ss) {key : Nat} (hk : key < span ss) :
    place ss key = key := by
  cases ss with
  | nil =>
    simp only [span] at hk
    exact (Nat.lt_one_iff.mp hk).symm
  | cons s ss =>
    have hlt : key / span ss < s := Nat.div_lt_of_lt_mul (by rwa [Nat.mul_comm])
    have hcell : cell ss key = key / span ss :=
      Nat.mod_eq_of_lt (Nat.lt_trans hlt (headCounted_cons.mp h))
    rw [place, hcell, Nat.div_add_mod']

end Tier

/-! ## The map after calls -/

namespace IndexType

/-- Calls on a new index whose values are entry lists. -/
def run (t : IndexType) (calls : List (Call Nat Nat)) :
    Except Trap (t.cls EntryLog).Index :=
  (t.cls EntryLog).run calls

/-- The index is a map on the keys below `max_size` after the calls. -/
structure IsMap (t : IndexType) (calls : List (Call Nat Nat)) : Prop where
  /-- Every access is in its array if and only if the keys are below `max_size`. -/
  inside_iff : t.run calls ≠ .error .outside ↔ ∀ c ∈ calls, c.key < t.maxSize
  /-- Then the calls return, and under every key are the values added. -/
  values : (∀ c ∈ calls, c.key < t.maxSize) → ∃ index, t.run calls = .ok index ∧
    ∀ key, key < t.maxSize →
      (¬ Entered calls key → (t.cls EntryLog).atKey index key = .ok none) ∧
      (Entered calls key → ∃ list, (t.cls EntryLog).atKey index key = .ok (some list) ∧
        list.Holds (valuesUnder calls key))

/-- Behind the calls before it, the call goes outside an array: its key is not in the first
level, or it is not below `max_size` and the list that it is taken to is full. -/
def Leaves (t : IndexType) (before : List (Call Nat Nat)) (c : Call Nat Nat) : Prop :=
  Tier.inBounds t.sizes c.key = false ∨ t.maxSize ≤ c.key ∧
    capacity < (valuesUnder before (Tier.place t.sizes c.key)).length + c.values.length

/-- Behind the calls before it, the call has a key below `max_size`, can create what it needs
and has room for its value. -/
def Fits (t : IndexType) (before : List (Call Nat Nat)) (c : Call Nat Nat) : Prop :=
  c.key < t.maxSize ∧ (c.enters = true → Tier.Counted t.sizes) ∧
    (valuesUnder before c.key).length + c.values.length ≤ capacity

instance (t : IndexType) (before : List (Call Nat Nat)) (c : Call Nat Nat) :
    Decidable (t.Leaves before c) :=
  inferInstanceAs (Decidable (_ ∨ _))

instance (t : IndexType) (before : List (Call Nat Nat)) (c : Call Nat Nat) :
    Decidable (t.Fits before c) :=
  inferInstanceAs (Decidable (_ ∧ _))

/-- Up to the first call that goes outside, if there is one, the calls fit. -/
def FitsFrom (t : IndexType) : (before calls : List (Call Nat Nat)) → Prop
  | _, [] => True
  | before, c :: calls => t.Leaves before c ∨ t.Fits before c ∧ t.FitsFrom (before ++ [c]) calls

def decFitsFrom (t : IndexType) : (before calls : List (Call Nat Nat)) →
    Decidable (t.FitsFrom before calls)
  | _, [] => .isTrue trivial
  | before, c :: calls =>
    have : Decidable (t.FitsFrom (before ++ [c]) calls) := decFitsFrom t (before ++ [c]) calls
    inferInstanceAs (Decidable (t.Leaves before c ∨ t.Fits before c ∧ _))

instance (t : IndexType) (before calls : List (Call Nat Nat)) :
    Decidable (t.FitsFrom before calls) := decFitsFrom t before calls

end IndexType

/-! ## One call -/

namespace IndexClass

variable {C : IndexClass EntryLog} {ss : List Nat} {tier : C.Index → Tier EntryLog ss}

/-- The index stands for the map: it has a list where the map has one, with the same values.
While a level cannot be made, the index is as new. -/
structure Stands (tier : C.Index → Tier EntryLog ss) (index : C.Index)
    (m : Nat → Option (List Nat)) : Prop where
  values : ∀ key, key < span ss → Option.Rel (fun list vals => list.Holds vals ∧
    vals.length ≤ capacity) (Tier.atKey ss (tier index) key) (m key)
  fresh : ¬ Tier.Counted ss.tail → tier index = Tier.fresh ss

theorem Stands.absent {index : C.Index} {m : Nat → Option (List Nat)} (h : Stands tier index m)
    {key : Nat} (hk : key < span ss) :
    m key = none ↔ Tier.atKey ss (tier index) key = none := by
  have hrel := h.values key hk
  constructor
  · intro hm
    rw [hm] at hrel
    generalize Tier.atKey ss (tier index) key = item at hrel
    cases hrel
    rfl
  · intro hat
    rw [hat] at hrel
    generalize m key = vals at hrel
    cases hrel
    rfl

theorem Stands.present {index : C.Index} {m : Nat → Option (List Nat)} (h : Stands tier index m)
    {key : Nat} (hk : key < span ss) {vals : List Nat} (hm : m key = some vals) :
    ∃ list, Tier.atKey ss (tier index) key = some list ∧ list.Holds vals ∧
      vals.length ≤ capacity := by
  have hrel := h.values key hk
  rw [hm] at hrel
  generalize Tier.atKey ss (tier index) key = item at hrel
  cases hrel with
  | some hholds => exact ⟨_, rfl, hholds⟩

/-- The list that a call with the key goes on with. -/
theorem Stands.current {index : C.Index} {m : Nat → Option (List Nat)}
    (h : Stands tier index m) {key : Nat} (hk : key < span ss) :
    ((Tier.atKey ss (tier index) key).getD default).Holds ((m key).getD []) ∧
      ((m key).getD []).length ≤ capacity := by
  cases hm : m key with
  | none =>
    rw [(h.absent hk).mp hm]
    exact ⟨holds_init, Nat.zero_le _⟩
  | some vals =>
    obtain ⟨list, hat, hholds⟩ := h.present hk hm
    rw [hat]
    exact hholds

/-- What a call does with the list that it gets. -/
def useOf : Call Nat Nat → EntryLog → Except Trap EntryLog
  | .addEntry _ val => fun list => list.pushBack val
  | _ => .ok

theorem useOf_room {c : Call Nat Nat} {list : EntryLog} {vals : List Nat} (h : list.Holds vals)
    (hroom : vals.length + c.values.length ≤ capacity) :
    ∃ list', useOf c list = .ok list' ∧ list'.Holds (vals ++ c.values) := by
  cases c with
  | get key => exact ⟨list, rfl, (List.append_nil vals).symm ▸ h⟩
  | addEntry key val => exact pushBack_room h hroom val
  | atKey key => exact ⟨list, rfl, (List.append_nil vals).symm ▸ h⟩

theorem useOf_full {c : Call Nat Nat} {list : EntryLog} {vals : List Nat} (h : list.Holds vals)
    (hle : vals.length ≤ capacity) (hfull : capacity < vals.length + c.values.length) :
    useOf c list = .error .outside := by
  cases c with
  | get key => exact absurd hfull (Nat.not_lt.mpr hle)
  | addEntry key val =>
    have hlen : vals.length = capacity := Nat.le_antisymm hle (Nat.lt_succ_iff.mp hfull)
    exact pushBack_full h hlen val
  | atKey key => exact absurd hfull (Nat.not_lt.mpr hle)

theorem call_enters (h : C.Refines ss tier) (index : C.Index) {c : Call Nat Nat}
    (hc : c.enters = true) : C.call index c = C.get index c.key (useOf c) := by
  cases c with
  | get key => rfl
  | addEntry key val => exact h.addEntry_eq index key val
  | atKey key => cases hc

/-- A look at the index leaves it as it is. -/
theorem call_look (h : C.Refines ss tier) (index : C.Index) {c : Call Nat Nat}
    (hc : c.enters = false) (hin : Tier.inBounds ss c.key = true) : C.call index c = .ok index := by
  cases c with
  | get key => cases hc
  | addEntry key val => cases hc
  | atKey key =>
    rw [Call.key] at hin
    rw [call, h.atKey_eq, if_pos hin]
    rfl

theorem call_outside (h : C.Refines ss tier) (index : C.Index) {c : Call Nat Nat}
    (hout : Tier.inBounds ss c.key = false) : C.call index c = .error .outside := by
  cases he : c.enters with
  | true => rw [call_enters h index he, h.get_outside index _ _ hout]
  | false =>
    cases c with
    | get key => cases he
    | addEntry key val => cases he
    | atKey key =>
      rw [Call.key] at hout
      rw [call, h.atKey_eq, hout]
      rfl

/-- A call that fits: the index stands for the map after it. -/
theorem Stands.call_room (h : C.Refines ss tier) {index : C.Index} {m : Nat → Option (List Nat)}
    (hi : Stands tier index m) {c : Call Nat Nat} (hs : c.enters = true → Tier.Counted ss)
    (hk : c.key < span ss) (hroom : ((m c.key).getD []).length + c.values.length ≤ capacity) :
    ∃ index', C.call index c = .ok index' ∧ Stands tier index' (step m c) := by
  have hin := Tier.inBounds_of_lt hk
  cases he : c.enters with
  | false => exact ⟨index, call_look h index he hin, (step_look he).symm ▸ hi⟩
  | true =>
    obtain ⟨list', huse, hholds⟩ := useOf_room (hi.current hk).1 hroom
    obtain ⟨index', hget, htier⟩ := h.get_ok (hs he) hin huse
    refine ⟨index', (call_enters h index he).trans hget, fun key hkey => ?_, fun hss => ?_⟩
    · rw [htier]
      by_cases heq : key = c.key
      · subst heq
        rw [Tier.atKey_modify_self, step_self he]
        exact .some ⟨hholds, by rw [List.length_append]; exact hroom⟩
      · rw [Tier.atKey_modify_other _ (hs he).selectable _ hk hkey heq, step_other heq]
        exact hi.values key hkey
    · exact absurd (fun s hmem => hs he s (List.mem_of_mem_tail hmem)) hss

/-- A level that is not made keeps a call from returning. -/
theorem Stands.call_endless (h : C.Refines ss tier) {index : C.Index}
    {m : Nat → Option (List Nat)} (hi : Stands tier index m) {c : Call Nat Nat}
    (hs : ¬ Tier.Counted ss.tail) (he : c.enters = true) (hin : Tier.inBounds ss c.key = true) :
    C.call index c = .error .endless :=
  (call_enters h index he).trans (h.get_endless hs index c.key _ (hi.fresh hs) hin)

/-- A call whose cells are in their arrays, with room in the list that it is taken to. -/
theorem Stands.call_inside (h : C.Refines ss tier) (hhead : Tier.HeadCounted ss)
    (hpos : 0 < span ss) {index : C.Index} {m : Nat → Option (List Nat)}
    (hi : Stands tier index m) {c : Call Nat Nat} (hin : Tier.inBounds ss c.key = true)
    (hroom : ((m (Tier.place ss c.key)).getD []).length + c.values.length ≤ capacity) :
    C.call index c ≠ .error .outside := by
  intro hout
  cases he : c.enters with
  | false =>
    rw [call_look h index he hin] at hout
    cases hout
  | true =>
    by_cases hs : Tier.Counted ss
    · have hcur := (hi.current (Tier.place_lt hpos hin)).1
      rw [Tier.atKey_place hpos] at hcur
      obtain ⟨list', huse, -⟩ := useOf_room hcur hroom
      obtain ⟨index', hget, -⟩ := h.get_ok hs hin huse
      rw [call_enters h index he, hget] at hout
      cases hout
    · have hss : ¬ Tier.Counted ss.tail := fun ht => hs (hhead.counted ht)
      rw [hi.call_endless h hss he hin] at hout
      cases hout

/-- A call whose list is full. -/
theorem Stands.call_full (h : C.Refines ss tier) (hhead : Tier.HeadCounted ss)
    (hpos : 0 < span ss) {index : C.Index} {m : Nat → Option (List Nat)}
    (hi : Stands tier index m) {c : Call Nat Nat} (hin : Tier.inBounds ss c.key = true)
    (hfull : capacity < ((m (Tier.place ss c.key)).getD []).length + c.values.length) :
    C.call index c = .error .outside := by
  obtain ⟨hcur, hle⟩ := hi.current (Tier.place_lt hpos hin)
  rw [Tier.atKey_place hpos] at hcur
  cases he : c.enters with
  | false =>
    rw [Call.values_eq_nil he] at hfull
    exact absurd hfull (Nat.not_lt.mpr hle)
  | true =>
    by_cases hs : Tier.Counted ss
    · exact (call_enters h index he).trans (h.get_error hs hin (useOf_full hcur hle hfull))
    · -- nothing is in the index, so the list is not full
      have hss : ¬ Tier.Counted ss.tail := fun ht => hs (hhead.counted ht)
      have hnull : Tier.atKey ss (tier index) (Tier.place ss c.key) = none := by
        rw [hi.fresh hss]
        cases ss with
        | nil => exact absurd (fun x hx => by cases hx) hs
        | cons s ss => rfl
      rw [(hi.absent (Tier.place_lt hpos hin)).mpr hnull] at hfull
      have hone := Call.values_length_le c
      have hcap : 1 ≤ capacity := by decide
      simp only [Option.getD_none, List.length_nil] at hfull
      omega

end IndexClass

/-! ## A run -/

namespace IndexType

open IndexClass (Stands Refines)

variable {t : IndexType} {tier : (t.cls EntryLog).Index → Tier EntryLog t.sizes}
  {before : List (Call Nat Nat)} {index : (t.cls EntryLog).Index}

theorem run_cons (hrun : t.run before = .ok index) (c : Call Nat Nat)
    (rest : List (Call Nat Nat)) : t.run (before ++ c :: rest) =
      ((t.cls EntryLog).call index c).bind fun index' =>
        rest.foldlM (t.cls EntryLog).call index' := by
  rw [run, IndexClass.run] at hrun ⊢
  cases hnew : (t.cls EntryLog).new with
  | error e =>
    rw [hnew] at hrun
    cases hrun
  | ok new =>
    rw [hnew] at hrun
    have hfold : before.foldlM (t.cls EntryLog).call new = .ok index := hrun
    have happ : (before ++ c :: rest).foldlM (t.cls EntryLog).call new =
        (before.foldlM (t.cls EntryLog).call new).bind fun index =>
          (c :: rest).foldlM (t.cls EntryLog).call index := List.foldlM_append
    exact happ.trans (by rw [hfold]; exact List.foldlM_cons)

theorem run_error (hrun : t.run before = .ok index) {c : Call Nat Nat} {e : Trap}
    (hc : (t.cls EntryLog).call index c = .error e) (rest : List (Call Nat Nat)) :
    t.run (before ++ c :: rest) = .error e := by
  rw [run_cons hrun, hc]
  rfl

theorem run_concat (hrun : t.run before = .ok index) (c : Call Nat Nat) :
    t.run (before ++ [c]) = (t.cls EntryLog).call index c := by
  rw [run_cons hrun]
  cases (t.cls EntryLog).call index c <;> rfl

/-- The calls so far had keys below `max_size`, and the index stands for the map. -/
structure Runs (tier : (t.cls EntryLog).Index → Tier EntryLog t.sizes)
    (before : List (Call Nat Nat)) (index : (t.cls EntryLog).Index) : Prop where
  run : t.run before = .ok index
  stands : Stands tier index (KeyedLists.run before)
  below : ∀ c ∈ before, c.key < t.maxSize

theorem runs_new (h : (t.cls EntryLog).Refines t.sizes tier) (hhead : Tier.HeadCounted t.sizes) :
    ∃ index, Runs tier [] index := by
  obtain ⟨index, hnew, hfresh⟩ := h.new_counted hhead
  refine ⟨index, ?_, ⟨fun key hk => ?_, fun _ => hfresh⟩, fun c hc => by cases hc⟩
  · rw [run, IndexClass.run, hnew]
    rfl
  · have hnull : Tier.atKey t.sizes (Tier.fresh t.sizes : Tier EntryLog t.sizes) key = none := by
      cases t <;> rfl
    rw [hfresh, hnull]
    exact .none

/-- What the index holds after calls with keys below `max_size`. -/
theorem Runs.isMap (hr : Runs tier before index) (ht : t.Sized)
    (h : (t.cls EntryLog).Refines t.sizes tier) : t.IsMap before := by
  constructor
  case inside_iff =>
    apply iff_of_true
    · rw [hr.run]
      intro hout
      cases hout
    · exact hr.below
  case values =>
    intro _
    refine ⟨index, hr.run, fun key hkey => ?_⟩
    have hk : key < span t.sizes := Nat.lt_of_lt_of_le hkey ht.maxSize_le
    rw [h.atKey_eq, if_pos (Tier.inBounds_of_lt hk)]
    constructor
    · intro hno
      rw [(hr.stands.absent hk).mp (run_not_entered hno)]
    · intro hyes
      obtain ⟨list, hat, hholds, -⟩ := hr.stands.present hk (run_entered hyes)
      exact ⟨list, congrArg Except.ok hat, hholds⟩

/-- A call that fits. -/
theorem Runs.fits (hr : Runs tier before index) (ht : t.Sized)
    (h : (t.cls EntryLog).Refines t.sizes tier) {c : Call Nat Nat} (hc : t.Fits before c) :
    ∃ index', Runs tier (before ++ [c]) index' := by
  obtain ⟨hkey, hs, hroom⟩ := hc
  rw [← run_getD] at hroom
  obtain ⟨index', hcall, hstands⟩ := hr.stands.call_room h hs
    (Nat.lt_of_lt_of_le hkey ht.maxSize_le) hroom
  refine ⟨index', (run_concat hr.run c).trans hcall, ?_, fun c' hc' => ?_⟩
  · rw [KeyedLists.run_concat]
    exact hstands
  · cases List.mem_append.mp hc' with
    | inl hc' => exact hr.below c' hc'
    | inr hc' => exact List.mem_singleton.mp hc' ▸ hkey

/-- A call that goes outside: the map is given up, and nothing is asked of the calls after it. -/
theorem Runs.leaves (hr : Runs tier before index) (ht : t.Sized)
    (h : (t.cls EntryLog).Refines t.sizes tier) (hhead : Tier.HeadCounted t.sizes)
    {c : Call Nat Nat} (hc : t.Leaves before c) (rest : List (Call Nat Nat)) :
    t.IsMap (before ++ c :: rest) := by
  have hmem : c ∈ before ++ c :: rest := List.mem_append_right _ List.mem_cons_self
  have hout : t.maxSize ≤ c.key ∧ (t.cls EntryLog).call index c = .error .outside := by
    by_cases hin : Tier.inBounds t.sizes c.key = true
    · cases hc with
      | inl hno =>
        rw [hin] at hno
        cases hno
      | inr hfull =>
        rw [← run_getD] at hfull
        exact ⟨hfull.1, hr.stands.call_full h hhead ht.span_pos hin hfull.2⟩
    · rw [Bool.not_eq_true] at hin
      refine ⟨Nat.le_of_not_lt fun hlt => ?_, IndexClass.call_outside h index hin⟩
      rw [Tier.inBounds_of_lt (Nat.lt_of_lt_of_le hlt ht.maxSize_le)] at hin
      cases hin
  constructor
  case inside_iff =>
    apply iff_of_false
    · exact fun hne => hne (run_error hr.run hout.2 rest)
    · exact fun hall => absurd (hall c hmem) (Nat.not_lt.mpr hout.1)
  case values => exact fun hall => absurd (hall c hmem) (Nat.not_lt.mpr hout.1)

/-- A call that neither fits nor goes outside. -/
theorem Runs.not_isMap (hr : Runs tier before index) (ht : t.Sized)
    (h : (t.cls EntryLog).Refines t.sizes tier) (hhead : Tier.HeadCounted t.sizes)
    {c : Call Nat Nat} (hl : ¬ t.Leaves before c) (hf : ¬ t.Fits before c) :
    ¬ t.IsMap (before ++ [c]) := by
  intro hmap
  rw [Leaves, not_or, Bool.not_eq_false, ← run_getD] at hl
  obtain ⟨hin, hplace⟩ := hl
  have hrun := run_concat hr.run c
  by_cases hkey : c.key < t.maxSize
  · have hk : c.key < span t.sizes := Nat.lt_of_lt_of_le hkey ht.maxSize_le
    have hall : ∀ c' ∈ before ++ [c], c'.key < t.maxSize := by
      intro c' hc'
      cases List.mem_append.mp hc' with
      | inl hc' => exact hr.below c' hc'
      | inr hc' => exact List.mem_singleton.mp hc' ▸ hkey
    obtain ⟨index', hok, -⟩ := hmap.values hall
    rw [hrun] at hok
    by_cases hs : c.enters = true → Tier.Counted t.sizes
    · -- the list of the key is full
      have hfull : capacity < ((KeyedLists.run before (Tier.place t.sizes c.key)).getD []).length +
          c.values.length := by
        rw [Tier.place_eq hhead hk, run_getD]
        exact Nat.lt_of_not_le fun hroom => hf ⟨hkey, hs, hroom⟩
      rw [hr.stands.call_full h hhead ht.span_pos hin hfull] at hok
      cases hok
    · rw [Classical.not_imp] at hs
      have hss : ¬ Tier.Counted t.sizes.tail := fun htail => hs.2 (hhead.counted htail)
      rw [hr.stands.call_endless h hss hs.1 hin] at hok
      cases hok
  · have hroom : ((KeyedLists.run before (Tier.place t.sizes c.key)).getD []).length +
        c.values.length ≤ capacity :=
      Nat.le_of_not_lt fun hfull => hplace ⟨Nat.le_of_not_lt hkey, hfull⟩
    have hinside := hr.stands.call_inside h hhead ht.span_pos hin hroom
    rw [← hrun] at hinside
    have hmem : c ∈ before ++ [c] := List.mem_append_right _ (List.mem_singleton_self c)
    exact hkey (hmap.inside_iff.mp hinside c hmem)

/-- From a state on in which the index is a map. -/
theorem isMap_from (ht : t.Sized) (h : (t.cls EntryLog).Refines t.sizes tier)
    (hhead : Tier.HeadCounted t.sizes) (calls : List (Call Nat Nat)) :
    ∀ (before : List (Call Nat Nat)) (index : (t.cls EntryLog).Index), Runs tier before index →
      ((∀ p, p <+: calls → t.IsMap (before ++ p)) ↔ t.FitsFrom before calls) := by
  induction calls with
  | nil =>
    intro before index hr
    apply iff_of_true
    · intro p hp
      rw [List.prefix_nil.mp hp, List.append_nil]
      exact hr.isMap ht h
    · trivial
  | cons c calls ih =>
    intro before index hr
    constructor
    · intro hall
      by_cases hl : t.Leaves before c
      · exact .inl hl
      · have hf : t.Fits before c := by
          by_contra hf
          exact hr.not_isMap ht h hhead hl hf (hall [c] ⟨calls, rfl⟩)
        obtain ⟨index', hr'⟩ := hr.fits ht h hf
        refine .inr ⟨hf, (ih _ index' hr').mp fun p hp => ?_⟩
        rw [List.append_assoc]
        exact hall (c :: p) (List.cons_prefix_cons.mpr ⟨rfl, hp⟩)
    · intro hfrom p hp
      cases p with
      | nil =>
        rw [List.append_nil]
        exact hr.isMap ht h
      | cons c' p =>
        obtain ⟨rfl, htail⟩ := List.cons_prefix_cons.mp hp
        cases hfrom with
        | inl hl => exact hr.leaves ht h hhead hl p
        | inr hf =>
          obtain ⟨index', hr'⟩ := hr.fits ht h hf.1
          have hmap := (ih _ index' hr').mpr hf.2 p htail
          rwa [List.append_assoc] at hmap

/-- Calls fit that keep below `max_size` and put no more under a key than its list can take. -/
theorem fitsFrom_of_below (hs : Tier.Counted t.sizes) (calls : List (Call Nat Nat)) :
    ∀ before : List (Call Nat Nat), (∀ c ∈ calls, c.key < t.maxSize) →
      (∀ key, (valuesUnder (before ++ calls) key).length ≤ capacity) → t.FitsFrom before calls := by
  induction calls with
  | nil => exact fun _ _ _ => trivial
  | cons c calls ih =>
    intro before hkeys hroom
    rw [List.append_cons] at hroom
    have hfits : t.Fits before c := by
      refine ⟨hkeys c List.mem_cons_self, fun _ => hs, ?_⟩
      have hc := hroom c.key
      rw [valuesUnder_append, valuesUnder_concat, if_pos rfl, List.length_append,
        List.length_append] at hc
      exact Nat.le_trans (Nat.le_add_right _ _) hc
    exact .inr ⟨hfits, ih _ (fun c' hc' => hkeys c' (List.mem_cons_of_mem _ hc')) hroom⟩

/-- For classes of every depth and level sizes, and any calls: the index is a map after each of
the calls exactly where its first level can be made and the calls fit. -/
theorem isMap_iff (ht : t.Sized) (calls : List (Call Nat Nat)) :
    (∀ p, p <+: calls → t.IsMap p) ↔ Tier.HeadCounted t.sizes ∧ t.FitsFrom [] calls := by
  obtain ⟨tier, h⟩ := ht.refines EntryLog
  by_cases hhead : Tier.HeadCounted t.sizes
  · obtain ⟨index, hr⟩ := runs_new h hhead
    rw [and_iff_right hhead]
    exact isMap_from ht h hhead calls [] index hr
  · apply iff_of_false
    · intro hall
      obtain ⟨index, hrun, -⟩ := (hall [] List.nil_prefix).values fun c hc => by cases hc
      rw [run, IndexClass.run, h.new_uncounted hhead] at hrun
      cases hrun
    · exact fun hfit => hhead hfit.1

/-- Two keys of the index of 3-byte tokens, and a look at a third one. -/
theorem isMap_index3 : (IndexType.depth2 65536 256).IsMap
    [.addEntry 70000 1, .get 5, .addEntry 70000 2, .atKey 9] :=
  (isMap_iff ⟨by decide, by decide⟩ [.addEntry 70000 1, .get 5, .addEntry 70000 2, .atKey 9]).mpr
    ⟨by decide, by decide⟩ _ List.prefix_rfl

/-- `max_size` of the index of 7-byte tokens leaves out the last level, so a key that it does not
count is in the arrays. -/
theorem not_isMap_index7 : (IndexType.depth4 65536 65536 65536 256).Sized ∧
    ¬ (IndexType.depth4 65536 65536 65536 256).IsMap [.get (2 ^ 48)] := by
  have ht : (IndexType.depth4 65536 65536 65536 256).Sized := ⟨by decide, by decide⟩
  obtain ⟨tier, h⟩ := ht.refines EntryLog
  obtain ⟨index, hr⟩ := runs_new h (by decide)
  exact ⟨ht, hr.not_isMap ht h (by decide) (by decide) (by decide)⟩

end IndexType

end Netplay
