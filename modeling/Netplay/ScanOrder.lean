import Netplay.ScanCoverage

/-!
# The order of a scan by itself

Where every list of the range holds its ids and is not empty, a scan without a
packet filter inserts them list after list, each list from its first entry on.
-/

namespace Netplay

/-- The list has these entries in this order, and a pointer if it has any. -/
structure EntryList.Holds (l : EntryList) (ids : List Nat) : Prop where
  created : l.created = true ↔ ids ≠ []
  tail : l.tail = ids.length
  slot : ∀ j v, ids[j]? = some v → l.slots j = .stored v

theorem EntryList.holds_empty : EntryList.empty.Holds [] :=
  ⟨by simp [empty], rfl, fun j v h => by simp at h⟩

namespace Scan

/-- From the state on, the scan inserts these ids in this order and finishes. -/
def Yields (q : Scan) (st : Store) (maxRid : Nat) (pc : Pc) (out : List Nat) : Prop :=
  ∃ n, ∀ m, n ≤ m → ∀ junk res, q.drain st maxRid m junk pc res = some (res ++ out)

/-- What the lists of the range hold. -/
structure Filled (q : Scan) (st : Store) (maxRid : Nat) (entries : Nat → List Nat) : Prop where
  unfiltered : q.pktFilter = none
  range : q.tokMin ≤ q.tokMax
  keys : q.tokMax + 1 < q.target.keys
  list : ∀ tok, q.tokMin ≤ tok → tok ≤ q.tokMax → (q.list st tok).Holds (entries tok)
  small : ∀ tok, ∀ v ∈ entries tok, v < maxRid

/-- The ids in the lists of the tokens behind one. -/
def behind (q : Scan) (entries : Nat → List Nat) (tok : Nat) : List Nat :=
  (List.range' (tok + 1) (q.tokMax - tok)).flatMap entries

variable {q : Scan} {st : Store} {maxRid : Nat} {entries : Nat → List Nat} {out : List Nat}

theorem behind_of_lt {tok : Nat} (h : tok < q.tokMax) :
    q.behind entries tok = entries (tok + 1) ++ q.behind entries (tok + 1) := by
  have hlen : q.tokMax - tok = q.tokMax - (tok + 1) + 1 := by omega
  rw [behind, hlen, List.range'_succ, List.flatMap_cons, behind]

theorem behind_end : q.behind entries q.tokMax = [] := by simp [behind]

theorem yields_finished : q.Yields st maxRid .finished [] := by
  refine ⟨0, fun m _ junk res => ?_⟩
  rw [List.append_nil]
  cases m <;> rfl

/-- One read, whatever memory holds where nothing is stored. -/
theorem Yields.step {pc pc' : Pc} {ids : List Nat} (h : q.Yields st maxRid pc' out)
    (hstep : ∀ junk, q.step st maxRid junk pc = some (pc', ids)) :
    q.Yields st maxRid pc (ids ++ out) := by
  obtain ⟨n, hn⟩ := h
  refine ⟨n + 1, fun m hm junk res => ?_⟩
  obtain ⟨m, rfl⟩ : ∃ k, m = k + 1 := ⟨m - 1, by omega⟩
  have hrest := hn m (by omega) (fun i => junk (i + 1)) (res ++ ids)
  rw [List.append_assoc] at hrest
  cases pc with
  | finished => cases hstep 0
  | _ => exact Option.bind_eq_some_iff.mpr ⟨_, hstep _, hrest⟩

theorem Yields.silent {pc pc' : Pc} (h : q.Yields st maxRid pc' out)
    (hstep : ∀ junk, q.step st maxRid junk pc = some (pc', [])) : q.Yields st maxRid pc out :=
  h.step hstep

theorem Yields.inserts {pc pc' : Pc} {v : Nat} (h : q.Yields st maxRid pc' out)
    (hstep : ∀ junk, q.step st maxRid junk pc = some (pc', [v])) :
    q.Yields st maxRid pc (v :: out) := h.step hstep

/-! ## The reads at an entry -/

section

variable {tok i v junk : Nat} (hq : q.Filled st maxRid entries) (hmin : q.tokMin ≤ tok)
  (hmax : tok ≤ q.tokMax)

include hq hmin hmax

theorem Filled.get (hv : (entries tok)[i]? = some v) : q.get st junk ⟨tok, i, true⟩ = some v :=
  get_stored ⟨hmin, hmax, rfl, Int.natCast_nonneg i⟩ ((hq.list tok hmin hmax).slot i v hv)

theorem Filled.step_check (hv : (entries tok)[i]? = some v) :
    q.step st maxRid junk (.check ⟨tok, i, true⟩) = some (.visit false ⟨tok, i, true⟩, []) := by
  have hlt : ¬ maxRid ≤ v := Nat.not_le.mpr (hq.small tok v (List.mem_of_getElem? hv))
  have harrive : q.arrive false ⟨tok, i, true⟩ = .visit false ⟨tok, i, true⟩ :=
    arrive_of_le false hmax
  simp only [step, hq.get hmin hmax hv, Option.map_some, if_neg hlt, hq.unfiltered, harrive]

theorem Filled.step_visit (hv : (entries tok)[i]? = some v) (first : Bool) :
    q.step st maxRid junk (.visit first ⟨tok, i, true⟩) =
      some (.advance false ⟨tok, i, true⟩, [v]) := by
  simp only [step, hq.get hmin hmax hv, Option.map_some]

theorem Filled.step_last (hi : i + 1 = (entries tok).length) (first : Bool) :
    q.step st maxRid junk (.advance first ⟨tok, i, true⟩) = some (.next first tok, []) := by
  have hne : ¬ tok = q.tokMax + 1 := by omega
  have hend : (i : Int) + 1 = (q.list st tok).tail := by
    rw [(hq.list tok hmin hmax).tail]
    omega
  simp only [step, if_neg hne, hend, or_true, if_true, exhausted_of_le first hmax]

theorem Filled.step_inside {k : Int} (hi : k + 1 = i) (hlt : i < (entries tok).length)
    (first : Bool) : q.step st maxRid junk (.advance first ⟨tok, k, true⟩) =
      some (q.advanced first ⟨tok, i, true⟩, []) := by
  have hne : ¬ tok = q.tokMax + 1 := by omega
  have hend : ¬ ((true = false) ∨ (i : Int) = (q.list st tok).tail) := by
    rw [(hq.list tok hmin hmax).tail]
    rintro (h | h)
    · cases h
    · omega
  simp only [step, if_neg hne, hi, if_neg hend]

/-- Behind `advance` the entry is visited, whether it is the first one or not. -/
theorem Filled.yields_advanced (hv : (entries tok)[i]? = some v) (first : Bool)
    (h : ∀ first, q.Yields st maxRid (.visit first ⟨tok, i, true⟩) out) :
    q.Yields st maxRid (q.advanced first ⟨tok, i, true⟩) out := by
  have hadv : q.advanced first ⟨tok, i, true⟩ =
      if first then .visit true ⟨tok, i, true⟩ else .check ⟨tok, i, true⟩ :=
    advanced_of_le first hmax
  rw [hadv]
  cases first with
  | true => exact h true
  | false => exact (h false).silent fun _ => hq.step_check hmin hmax hv

/-- From an entry on, the rest of its list is inserted, and then what follows behind it. -/
theorem Filled.yields_visit (h : q.Yields st maxRid (.next false tok) out) (n : Nat) :
    ∀ (i : Nat) (first : Bool), i + n + 1 = (entries tok).length →
      q.Yields st maxRid (.visit first ⟨tok, i, true⟩) ((entries tok).drop i ++ out) := by
  induction n with
  | zero =>
    intro i first hi
    have hv := List.getElem?_eq_getElem (l := entries tok) (i := i) (by omega)
    have hadv : q.Yields st maxRid (.advance false ⟨tok, i, true⟩) out :=
      h.silent fun _ => hq.step_last hmin hmax (by omega) false
    rw [List.drop_eq_getElem_cons (by omega), List.drop_eq_nil_of_le (by omega)]
    exact hadv.inserts fun _ => hq.step_visit hmin hmax hv first
  | succ n ih =>
    intro i first hi
    have hv := List.getElem?_eq_getElem (l := entries tok) (i := i) (by omega)
    have hv' := List.getElem?_eq_getElem (l := entries tok) (i := i + 1) (by omega)
    have hrest := hq.yields_advanced hmin hmax hv' false fun first => ih (i + 1) first (by omega)
    have hadv : q.Yields st maxRid (.advance false ⟨tok, i, true⟩)
        ((entries tok).drop (i + 1) ++ out) :=
      hrest.silent fun _ => hq.step_inside hmin hmax (by omega) (by omega) false
    rw [List.drop_eq_getElem_cons (by omega), List.cons_append]
    exact hadv.inserts fun _ => hq.step_visit hmin hmax hv first

/-- From its first entry on, the list is inserted. -/
theorem Filled.yields_first (hne : entries tok ≠ [])
    (h : q.Yields st maxRid (.next false tok) out) (first : Bool) :
    q.Yields st maxRid (q.advanced first ⟨tok, 0, true⟩) (entries tok ++ out) := by
  have hpos := List.length_pos_iff.mpr hne
  have hv := List.getElem?_eq_getElem (l := entries tok) (i := 0) hpos
  exact hq.yields_advanced hmin hmax hv first fun first =>
    hq.yields_visit hmin hmax h ((entries tok).length - 1) 0 first (by omega)

end

/-! ## The lists one after the other -/

theorem Filled.yields_next (hq : q.Filled st maxRid entries) (n : Nat) :
    ∀ (tok : Nat) (first : Bool), q.tokMin ≤ tok → tok + n = q.tokMax →
      q.Yields st maxRid (.next first tok) (q.behind entries tok) := by
  induction n with
  | zero =>
    intro tok first hmin hn
    obtain rfl : tok = q.tokMax := by omega
    rw [behind_end]
    refine yields_finished.silent fun junk => ?_
    have hle : ¬ ((q.list st (q.tokMax + 1)).created = false ∧ q.tokMax + 1 ≤ q.tokMax) :=
      fun h => absurd h.2 (Nat.not_succ_le_self _)
    simp only [step, if_pos hq.keys, if_neg hle, advanced_end]
  | succ n ih =>
    intro tok first hmin hn
    have hkeys : tok + 1 < q.target.keys := Nat.lt_of_le_of_lt (by omega) hq.keys
    have hlist := hq.list (tok + 1) (by omega) (by omega)
    rw [behind_of_lt (by omega)]
    cases hc : (q.list st (tok + 1)).created with
    | false =>
      have hnil : entries (tok + 1) = [] := by
        by_contra hne
        rw [hlist.created.mpr hne] at hc
        cases hc
      rw [hnil, List.nil_append]
      refine (ih (tok + 1) first (by omega) (by omega)).silent fun junk => ?_
      have hle : tok + 1 ≤ q.tokMax := by omega
      simp only [step, if_pos hkeys, hc, hle, and_self, if_true]
    | true =>
      refine (hq.yields_first (by omega) (by omega) (hlist.created.mp hc)
        (ih (tok + 1) false (by omega) (by omega)) first).silent fun junk => ?_
      simp only [step, if_pos hkeys, hc, reduceCtorEq, false_and, if_false]

/-- A scan by itself inserts the entries of the lists of its range in their order. -/
theorem Filled.yields (hq : q.Filled st maxRid entries) : q.Yields st maxRid .construct
    ((List.range' q.tokMin (q.tokMax + 1 - q.tokMin)).flatMap entries) := by
  have hrange := hq.range
  have hkeys : q.tokMin < q.target.keys := Nat.lt_of_le_of_lt (by omega) hq.keys
  have hlist := hq.list q.tokMin (Nat.le_refl _) hrange
  have hout : (List.range' q.tokMin (q.tokMax + 1 - q.tokMin)).flatMap entries =
      entries q.tokMin ++ q.behind entries q.tokMin := by
    have hlen : q.tokMax + 1 - q.tokMin = q.tokMax - q.tokMin + 1 := by omega
    rw [hlen, List.range'_succ, List.flatMap_cons, behind]
  have hnext := hq.yields_next (q.tokMax - q.tokMin) q.tokMin
  rw [hout]
  refine Yields.silent ?_ fun junk => by simp only [step, if_pos hkeys]; rfl
  cases hc : (q.list st q.tokMin).created with
  | false =>
    have hnil : entries q.tokMin = [] := by
      by_contra hne
      rw [hlist.created.mpr hne] at hc
      cases hc
    rw [hnil, List.nil_append]
    refine (hnext true (Nat.le_refl _) (by omega)).silent fun junk => ?_
    have hne : ¬ q.tokMin = q.tokMax + 1 := by omega
    simp only [step, if_neg hne, true_or, if_true, exhausted_of_le true hrange]
  | true =>
    have hne := hlist.created.mp hc
    refine (hq.yields_first (Nat.le_refl _) hrange hne (hnext false (Nat.le_refl _) (by omega))
      true).silent fun junk => ?_
    exact hq.step_inside (Nat.le_refl _) hrange rfl (List.length_pos_iff.mpr hne) true

end Scan

end Netplay
