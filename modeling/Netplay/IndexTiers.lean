import Netplay.IndexDepths

/-!
# Every depth is one level over the next

The four classes follow one scheme, an indexlet over the indexes of the class below, and by it
each of them is the index over the list of its level sizes: the cells that a key goes through
are the same in `get`, `at` and `add_entry`, and on all levels.
-/

namespace Netplay

open IndexClass (Trap)

namespace Tier

/-- A `uint32_t` counts the cells of every level to the end. -/
def Counted (ss : List Nat) : Prop := ∀ s ∈ ss, s < 2 ^ 32

theorem Counted.selectable {ss : List Nat} (h : Counted ss) : Selectable ss :=
  fun s hs => Nat.le_of_lt (h s hs)

theorem Counted.tail {s : Nat} {ss : List Nat} (h : Counted (s :: ss)) : Counted ss :=
  fun x hx => h x (List.mem_cons_of_mem _ hx)

instance (ss : List Nat) : Decidable (Counted ss) :=
  inferInstanceAs (Decidable (∀ s ∈ ss, s < 2 ^ 32))

/-- The first level is counted to the end; without a level there is nothing to count. -/
def HeadCounted (ss : List Nat) : Prop := ∀ s ∈ ss.head?, s < 2 ^ 32

instance (ss : List Nat) : Decidable (HeadCounted ss) :=
  inferInstanceAs (Decidable (∀ s ∈ ss.head?, s < 2 ^ 32))

theorem Counted.head {ss : List Nat} (h : Counted ss) : HeadCounted ss :=
  fun s hs => h s (List.mem_of_mem_head? hs)

theorem headCounted_cons {s : Nat} {ss : List Nat} : HeadCounted (s :: ss) ↔ s < 2 ^ 32 := by
  constructor
  · intro h
    exact h s rfl
  · intro h x hx
    cases hx
    exact h

theorem counted_cons {s : Nat} {ss : List Nat} : Counted (s :: ss) ↔ s < 2 ^ 32 ∧ Counted ss := by
  constructor
  · intro h
    exact ⟨h s List.mem_cons_self, h.tail⟩
  · intro h x hx
    cases List.mem_cons.mp hx with
    | inl heq => exact heq ▸ h.1
    | inr hx => exact h.2 x hx

theorem HeadCounted.counted {ss : List Nat} (h : HeadCounted ss) (ht : Counted ss.tail) :
    Counted ss := by
  cases ss with
  | nil => exact ht
  | cons s ss => exact counted_cons.mpr ⟨headCounted_cons.mp h, ht⟩

end Tier

/-! ## The constructor -/

namespace Indexlet

variable {T : Type} {size : Nat}

theorem clear_counted (h : size < 2 ^ 32) (fuel : Nat) : ∀ i : Nat, i ≤ size → size < i + fuel →
    clear fuel i (⟨fun _ => none⟩ : Indexlet T size) = some ⟨fun _ => none⟩ := by
  induction fuel with
  | zero =>
    intro i h1 h2
    omega
  | succ fuel ih =>
    intro i h1 h2
    rw [clear]
    by_cases hi : i < size
    · have hnull : Function.update (fun _ : Nat => (none : Option T)) i none = fun _ => none :=
        Function.update_eq_self i _
      have hnext : (i + 1) % 2 ^ 32 = i + 1 := Nat.mod_eq_of_lt (by omega)
      rw [if_pos hi, hnull, hnext]
      apply ih
      · omega
      · omega
    · rw [if_neg hi]

/-- A counter that starts again at zero does not come to the end. -/
theorem clear_uncounted (h : 2 ^ 32 ≤ size) (fuel : Nat) : ∀ (i : Nat) (ilet : Indexlet T size),
    i < 2 ^ 32 → clear fuel i ilet = none := by
  induction fuel with
  | zero => exact fun _ _ _ => rfl
  | succ fuel ih =>
    intro i ilet hi
    rw [clear, if_pos (Nat.lt_of_lt_of_le hi h)]
    exact ih _ _ (Nat.mod_lt _ (by decide))

theorem new_counted (h : size < 2 ^ 32) :
    (new : Except Trap (Indexlet T size)) = .ok ⟨fun _ => none⟩ := by
  rw [new, clear_counted h (2 ^ 32) 0 (Nat.zero_le _) (by omega)]

/-- Also not with more rounds. -/
theorem new_uncounted (h : 2 ^ 32 ≤ size) :
    (new : Except Trap (Indexlet T size)) = .error .endless ∧
      ∀ fuel, clear fuel 0 (⟨fun _ => none⟩ : Indexlet T size) = none := by
  constructor
  · rw [new, clear_uncounted h (2 ^ 32) 0 _ (by decide)]
  · intro fuel
    exact clear_uncounted h fuel 0 _ (by decide)

end Indexlet

/-! ## The scheme -/

namespace IndexClass

variable {V : Type} [ValueType V]

/-- Below the last level: the value itself. -/
def value (V : Type) [ValueType V] : IndexClass V where
  Index := V
  new := .ok default
  get v _ use := use v
  atKey v _ := .ok (some v)
  addEntry v _ val := ValueType.pushBack v val

/-- An indexlet of `size` cells over the class, with `below` keys to a cell. -/
def indexlet (C : IndexClass V) (size below : Nat) : IndexClass V where
  Index := Indexlet C.Index size
  new := Indexlet.new
  get index key use := Indexlet.get index C.new (key / below) fun ilet => C.get ilet (key % below) use
  atKey index key := do
    let ilet ← Indexlet.atKey index (key / below)
    ilet.elim (.ok none) fun ilet => C.atKey ilet (key % below)
  addEntry index key val := Indexlet.get index C.new (key / below) fun ilet =>
    C.get ilet (key % below) fun list => ValueType.pushBack list val

theorem depth1_eq (size : Nat) : (IndexType.depth1 size).cls V = (value V).indexlet size 1 := by
  have hget : (IndexDepth1.get : IndexDepth1 V size → _ → _ → _) =
      ((value V).indexlet size 1).get := by
    funext index key use
    exact congrArg (fun k => Indexlet.get index (.ok default) k use) (Nat.div_one key).symm
  have hadd : (IndexDepth1.addEntry : IndexDepth1 V size → _ → _ → _) =
      ((value V).indexlet size 1).addEntry := by
    funext index key val
    exact congrFun (congrFun (congrFun hget index) key) fun list => ValueType.pushBack list val
  have hat : (IndexDepth1.atKey : IndexDepth1 V size → _ → _) =
      ((value V).indexlet size 1).atKey := by
    funext index key
    simp only [indexlet, value, IndexDepth1.atKey, Nat.div_one]
    cases Indexlet.atKey index key with
    | error e => rfl
    | ok item => cases item <;> rfl
  rw [IndexType.cls, hget, hadd, hat]
  rfl

theorem depth2_eq (size1 size2 : Nat) : (IndexType.depth2 size1 size2).cls V =
    ((IndexType.depth1 size2).cls V).indexlet size1 size2 := rfl

theorem depth3_eq (size1 size2 size3 : Nat) : (IndexType.depth3 size1 size2 size3).cls V =
    ((IndexType.depth2 size2 size3).cls V).indexlet size1 (IndexDepth3.below size2 size3) := rfl

theorem depth4_eq (size1 size2 size3 size4 : Nat) :
    (IndexType.depth4 size1 size2 size3 size4).cls V =
      ((IndexType.depth3 size2 size3 size4).cls V).indexlet size1
        (IndexDepth4.below size2 size3 size4) := rfl

/-! ## What the classes compute -/

/-- The class is the index over the list of its level sizes, as `tier` sees it. -/
structure Refines (C : IndexClass V) (ss : List Nat) (tier : C.Index → Tier V ss) : Prop where
  new_counted : Tier.HeadCounted ss → ∃ index, C.new = .ok index ∧ tier index = Tier.fresh ss
  new_uncounted : ¬ Tier.HeadCounted ss → C.new = .error .endless
  atKey_eq : ∀ index key, C.atKey index key =
    if Tier.inBounds ss key then .ok (Tier.atKey ss (tier index) key) else .error .outside
  get_outside : ∀ index key use, Tier.inBounds ss key = false →
    C.get index key use = .error .outside
  /-- What is used is the value of the key, or a new one. -/
  get_map : Tier.Counted ss → ∀ index key use, Tier.inBounds ss key = true →
    (C.get index key use).map tier =
      (use ((Tier.atKey ss (tier index) key).getD default)).map fun v =>
        Tier.modify (fun _ => v) ss (tier index) key
  /-- An index to which no key was added cannot take one. -/
  get_endless : ¬ Tier.Counted ss.tail → ∀ index key use, tier index = Tier.fresh ss →
    Tier.inBounds ss key = true → C.get index key use = .error .endless
  addEntry_eq : ∀ index key val, C.addEntry index key val =
    C.get index key fun v => ValueType.pushBack v val

theorem refines_value : (value V).Refines [] id where
  new_counted _ := ⟨(default : V), rfl, rfl⟩
  new_uncounted h := absurd (fun s hs => by cases hs) h
  atKey_eq _ _ := rfl
  get_outside _ _ _ h := by cases h
  get_map _ _ _ _ _ := rfl
  get_endless h := absurd (fun s hs => by cases hs) h
  addEntry_eq _ _ _ := rfl

variable {C : IndexClass V} {ss : List Nat} {tier : C.Index → Tier V ss}

theorem Refines.get_ok {C : IndexClass V} {ss : List Nat} {tier : C.Index → Tier V ss}
    (h : C.Refines ss tier) (hs : Tier.Counted ss) {index : C.Index} {key : Nat}
    {use : V → Except Trap V} {v : V} (hin : Tier.inBounds ss key = true)
    (huse : use ((Tier.atKey ss (tier index) key).getD default) = .ok v) :
    ∃ index', C.get index key use = .ok index' ∧
      tier index' = Tier.modify (fun _ => v) ss (tier index) key := by
  have hget := h.get_map hs index key use hin
  rw [huse] at hget
  cases hres : C.get index key use with
  | error e =>
    rw [hres] at hget
    cases hget
  | ok index' =>
    rw [hres] at hget
    exact ⟨index', rfl, Except.ok.inj hget⟩

theorem Refines.get_error {C : IndexClass V} {ss : List Nat} {tier : C.Index → Tier V ss}
    (h : C.Refines ss tier) (hs : Tier.Counted ss) {index : C.Index} {key : Nat}
    {use : V → Except Trap V} {e : Trap} (hin : Tier.inBounds ss key = true)
    (huse : use ((Tier.atKey ss (tier index) key).getD default) = .error e) :
    C.get index key use = .error e := by
  have hget := h.get_map hs index key use hin
  rw [huse] at hget
  cases hres : C.get index key use with
  | error e' =>
    rw [hres] at hget
    exact congrArg Except.error (Except.error.inj hget)
  | ok index' =>
    rw [hres] at hget
    cases hget

/-- Two results that agree up to what they are mapped to. -/
theorem map_eq_map {ε α β γ δ : Type} {r : Except ε α} {u : Except ε β} {f : α → γ} {g : β → γ}
    {f' : α → δ} {g' : β → δ} (h : r.map f = u.map g) (hfg : ∀ a b, f a = g b → f' a = g' b) :
    r.map f' = u.map g' := by
  cases r with
  | error e =>
    cases u with
    | error e' =>
      cases h
      rfl
    | ok b => cases h
  | ok a =>
    cases u with
    | error e' => cases h
    | ok b => exact congrArg Except.ok (hfg a b (Except.ok.inj h))

/-- The cells of an indexlet, with what is below them. -/
def tierOver (tier : C.Index → Tier V ss) (s : Nat) (ilet : Indexlet C.Index s) :
    Nat → Option (Tier V ss) :=
  fun c => (ilet.idx c).map tier

omit [ValueType V] in
theorem tierOver_update (s : Nat) (ilet : Indexlet C.Index s) (c : Nat) (item : C.Index) :
    tierOver tier s ⟨Function.update ilet.idx c (some item)⟩ =
      Function.update (tierOver tier s ilet) c (some (tier item)) := by
  funext c'
  rw [tierOver]
  dsimp only
  by_cases hc : c' = c
  · subst hc
    rw [Function.update_self, Function.update_self, Option.map_some]
  · rw [Function.update_of_ne hc, Function.update_of_ne hc, tierOver]

omit [ValueType V] in
theorem atKey_tierOver (s : Nat) (ilet : Indexlet C.Index s) (key : Nat) :
    Tier.atKey (s :: ss) (tierOver tier s ilet) key =
      ((ilet.idx (Tier.cell ss key)).map tier).bind fun t => Tier.atKey ss t (key % span ss) := rfl

/-- One level over a class: `get`. -/
theorem get_over (h : C.Refines ss tier) (hpos : 0 < span ss) {s : Nat}
    (hs : Tier.Counted (s :: ss)) (ilet : Indexlet C.Index s) (key : Nat)
    (use : V → Except Trap V) (hin : Tier.cell ss key < s) :
    ((C.indexlet s (span ss)).get ilet key use).map (tierOver tier s) =
      (use ((Tier.atKey (s :: ss) (tierOver tier s ilet) key).getD default)).map fun v =>
        Tier.modify (fun _ => v) (s :: ss) (tierOver tier s ilet) key := by
  have hbelow : Tier.inBounds ss (key % span ss) = true :=
    Tier.inBounds_of_lt (Nat.mod_lt _ hpos)
  -- the index below, which is new when the cell is null
  obtain ⟨item, hitem, htier, hval⟩ : ∃ item,
      (ilet.idx (Tier.cell ss key)).elim C.new .ok = .ok item ∧
      tier item = (tierOver tier s ilet (Tier.cell ss key)).getD (Tier.fresh ss) ∧
      (Tier.atKey ss (tier item) (key % span ss)).getD default =
        (Tier.atKey (s :: ss) (tierOver tier s ilet) key).getD default := by
    rw [atKey_tierOver, tierOver]
    cases ilet.idx (Tier.cell ss key) with
    | none =>
      obtain ⟨item, hnew, hfresh⟩ := h.new_counted hs.tail.head
      refine ⟨item, hnew, hfresh, ?_⟩
      rw [hfresh, Tier.atKey_fresh_getD]
      rfl
    | some item => exact ⟨item, rfl, rfl, rfl⟩
  have hget := h.get_map hs.tail item (key % span ss) use hbelow
  rw [hval] at hget
  have hrun : ((C.indexlet s (span ss)).get ilet key use).map (tierOver tier s) =
      (C.get item (key % span ss) use).map fun item =>
        tierOver tier s ⟨Function.update ilet.idx (Tier.cell ss key) (some item)⟩ := by
    rw [Tier.cell] at hitem hin
    simp only [indexlet, Indexlet.get, if_pos hin, hitem, bind, Except.bind]
    cases C.get item (key % span ss) use <;> rfl
  rw [hrun]
  apply map_eq_map hget
  intro item' v heq
  rw [tierOver_update, heq, htier]
  rfl

/-- One level over a class: `at`. -/
theorem atKey_over (h : C.Refines ss tier) (hpos : 0 < span ss) {s : Nat}
    (ilet : Indexlet C.Index s) (key : Nat) : (C.indexlet s (span ss)).atKey ilet key =
      if Tier.inBounds (s :: ss) key then .ok (Tier.atKey (s :: ss) (tierOver tier s ilet) key)
      else .error .outside := by
  rw [Tier.inBounds_cons hpos, atKey_tierOver, Tier.cell]
  simp only [indexlet, Indexlet.atKey]
  by_cases hin : key / span ss % 2 ^ 32 < s
  · rw [if_pos hin, decide_eq_true hin]
    cases ilet.idx (key / span ss % 2 ^ 32) with
    | none => rfl
    | some item =>
      have hbelow : Tier.inBounds ss (key % span ss) = true :=
        Tier.inBounds_of_lt (Nat.mod_lt _ hpos)
      exact (h.atKey_eq item _).trans (if_pos hbelow)
  · rw [if_neg hin, decide_eq_false hin]
    rfl

/-- One level over a class. -/
theorem refines_over (h : C.Refines ss tier) (hpos : 0 < span ss) (s : Nat) :
    (C.indexlet s (span ss)).Refines (s :: ss) (tierOver tier s) := by
  have hbelow : ∀ key, Tier.inBounds ss (key % span ss) = true := fun key =>
    Tier.inBounds_of_lt (Nat.mod_lt _ hpos)
  constructor
  case new_counted =>
    intro hs
    exact ⟨_, Indexlet.new_counted (Tier.headCounted_cons.mp hs), rfl⟩
  case new_uncounted =>
    intro hs
    rw [Tier.headCounted_cons, Nat.not_lt] at hs
    exact (Indexlet.new_uncounted hs).1
  case atKey_eq => exact fun ilet key => atKey_over h hpos ilet key
  case get_outside =>
    intro ilet key use hin
    rw [Tier.inBounds_cons hpos, decide_eq_false_iff_not] at hin
    exact if_neg hin
  case get_map =>
    intro hs ilet key use hin
    rw [Tier.inBounds_cons hpos, decide_eq_true_iff] at hin
    exact get_over h hpos hs ilet key use hin
  case get_endless =>
    intro hss ilet key use hfresh hin
    rw [Tier.inBounds_cons hpos, decide_eq_true_iff] at hin
    have hnull : ilet.idx (Tier.cell ss key) = none :=
      Option.map_eq_none_iff.mp (congrFun hfresh (Tier.cell ss key))
    rw [Tier.cell] at hin hnull
    simp only [indexlet, Indexlet.get, if_pos hin, hnull, Option.elim_none, bind, Except.bind]
    by_cases hhead : Tier.HeadCounted ss
    · -- the index below is made, but a level further down is not
      obtain ⟨item, hnew, htier⟩ := h.new_counted hhead
      have htail : ¬ Tier.Counted ss.tail := fun htail => hss (hhead.counted htail)
      rw [hnew]
      dsimp only
      rw [h.get_endless htail item _ use htier (hbelow key)]
    · rw [h.new_uncounted hhead]
  case addEntry_eq => exact fun _ _ _ => rfl

theorem refines_step (h : C.Refines ss tier) {below : Nat} (hbelow : below = span ss)
    (hpos : 0 < span ss) (s : Nat) : ∃ tier', (C.indexlet s below).Refines (s :: ss) tier' := by
  subst hbelow
  exact ⟨_, refines_over h hpos s⟩

end IndexClass

/-! ## The sizes -/

theorem span_pos {ss : List Nat} (h : ∀ s ∈ ss, 1 ≤ s) : 0 < span ss := by
  induction ss with
  | nil => exact Nat.one_pos
  | cons s ss ih =>
    apply Nat.mul_pos
    · exact h s List.mem_cons_self
    · exact ih fun x hx => h x (List.mem_cons_of_mem _ hx)

theorem span_le_cons {s : Nat} (ss : List Nat) (h : 1 ≤ s) : span ss ≤ span (s :: ss) :=
  Nat.le_mul_of_pos_left _ h

namespace IndexType

variable (V : Type) [ValueType V]

/-- Every level has a cell, and the number of keys is at most `2 ^ 63`. -/
structure Sized (t : IndexType) : Prop where
  pos : ∀ s ∈ t.sizes, 1 ≤ s
  span_le : span t.sizes ≤ 2 ^ 63

theorem Sized.span_pos {t : IndexType} (h : t.Sized) : 0 < span t.sizes := Netplay.span_pos h.pos

/-- The classes of the levels below. -/
theorem Sized.below {t t' : IndexType} {s : Nat} (h : t.Sized) (ht : t.sizes = s :: t'.sizes) :
    t'.Sized := by
  have hpos := h.pos
  have hle := h.span_le
  rw [ht] at hpos hle
  exact ⟨fun x hx => hpos x (List.mem_cons_of_mem _ hx),
    Nat.le_trans (span_le_cons _ (hpos s List.mem_cons_self)) hle⟩

theorem span_mod {ss : List Nat} (h : span ss ≤ 2 ^ 63) : span ss % 2 ^ 64 = span ss :=
  Nat.mod_eq_of_lt (Nat.lt_of_le_of_lt h (by decide))

theorem refines_depth1 (size : Nat) :
    ∃ tier, ((IndexType.depth1 size).cls V).Refines [size] tier := by
  rw [IndexClass.depth1_eq]
  exact IndexClass.refines_step IndexClass.refines_value rfl Nat.one_pos size

theorem Sized.refines_depth2 {size1 size2 : Nat} (h : (IndexType.depth2 size1 size2).Sized) :
    ∃ tier, ((IndexType.depth2 size1 size2).cls V).Refines [size1, size2] tier := by
  have hbelow : (IndexType.depth1 size2).Sized := h.below rfl
  obtain ⟨tier, href⟩ := refines_depth1 V size2
  rw [IndexClass.depth2_eq]
  exact IndexClass.refines_step href (Nat.mul_one size2).symm hbelow.span_pos size1

theorem Sized.refines_depth3 {size1 size2 size3 : Nat}
    (h : (IndexType.depth3 size1 size2 size3).Sized) :
    ∃ tier, ((IndexType.depth3 size1 size2 size3).cls V).Refines [size1, size2, size3] tier := by
  have hbelow : (IndexType.depth2 size2 size3).Sized := h.below rfl
  obtain ⟨tier, href⟩ := hbelow.refines_depth2 V
  have hspan : IndexDepth3.below size2 size3 = span [size2, size3] := by
    have hmod : span [size2, size3] % 2 ^ 64 = span [size2, size3] := span_mod hbelow.span_le
    rw [← hmod]
    simp only [IndexDepth3.below, span, Nat.mul_one]
  rw [IndexClass.depth3_eq]
  exact IndexClass.refines_step href hspan hbelow.span_pos size1

theorem Sized.refines_depth4 {size1 size2 size3 size4 : Nat}
    (h : (IndexType.depth4 size1 size2 size3 size4).Sized) :
    ∃ tier, ((IndexType.depth4 size1 size2 size3 size4).cls V).Refines
      [size1, size2, size3, size4] tier := by
  have hbelow : (IndexType.depth3 size2 size3 size4).Sized := h.below rfl
  obtain ⟨tier, href⟩ := hbelow.refines_depth3 V
  have hspan : IndexDepth4.below size2 size3 size4 = span [size2, size3, size4] := by
    have hmod : span [size2, size3, size4] % 2 ^ 64 = span [size2, size3, size4] :=
      span_mod hbelow.span_le
    rw [← hmod]
    simp only [IndexDepth4.below, span, Nat.mul_one, Nat.mul_assoc]
  rw [IndexClass.depth4_eq]
  exact IndexClass.refines_step href hspan hbelow.span_pos size1

/-- Every class is the index over the list of its level sizes. -/
theorem Sized.refines {t : IndexType} (h : t.Sized) :
    ∃ tier, (t.cls V).Refines t.sizes tier := by
  cases t with
  | depth1 size => exact refines_depth1 V size
  | depth2 size1 size2 => exact h.refines_depth2 V
  | depth3 size1 size2 size3 => exact h.refines_depth3 V
  | depth4 size1 size2 size3 size4 => exact h.refines_depth4 V

/-- `max_size` does not go beyond the keys; on depth 4 it may stay below. -/
theorem Sized.maxSize_le {t : IndexType} (h : t.Sized) : t.maxSize ≤ span t.sizes := by
  cases t with
  | depth1 size => exact Nat.le_of_eq (Nat.mul_one size).symm
  | depth2 size1 size2 =>
    apply Nat.le_trans (Nat.mod_le _ _)
    simp only [IndexType.sizes, span, Nat.mul_one, Nat.le_refl]
  | depth3 size1 size2 size3 =>
    apply Nat.le_trans (Nat.mod_le _ _)
    simp only [IndexType.sizes, span, Nat.mul_one, Nat.mul_assoc, Nat.le_refl]
  | depth4 size1 size2 size3 size4 =>
    have h4 : 1 ≤ size4 := h.pos size4 (by simp [IndexType.sizes])
    apply Nat.le_trans (Nat.mod_le _ _)
    calc size1 * size2 * size3 ≤ size1 * size2 * size3 * size4 := Nat.le_mul_of_pos_right _ h4
      _ = span [size1, size2, size3, size4] := by
        simp only [span, Nat.mul_one, Nat.mul_assoc]

end IndexType

end Netplay
