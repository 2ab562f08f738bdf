import Netplay.FilterScan

/-!
# What a scan has covered

A scan keeps the ids that it has inserted right and complete up to its position,
as long as every slot that it takes for an id is stored.
-/

namespace Netplay

open Packet NetplayUtils

/-- The position in the list up to which a scan is complete. -/
def Pc.reachedIdx : Pc → Nat
  | .advance _ it => if it.list then (it.idx + 1).toNat else 0
  | .check it => it.idx.toNat
  | .apply it => it.idx.toNat
  | .visit _ it => it.idx.toNat
  | _ => 0

namespace Scan

variable (q : Scan)

/-- The id is stored in a list of the range. -/
def Listed (st : Store) (v : Nat) : Prop :=
  ∃ tok j, q.tokMin ≤ tok ∧ tok ≤ q.tokMax ∧ (q.list st tok).slots j = .stored v

/-- The ids below `maxRid` that pass and are stored before position `n` of list
`tok` are among the results. -/
def Covered (st : Store) (maxRid : Nat) (pass : Nat → Prop) (res : List Nat) (tok n : Nat) : Prop :=
  ∀ t j v, q.tokMin ≤ t → t ≤ q.tokMax → (t < tok ∨ t = tok ∧ j < n) →
    (q.list st t).slots j = .stored v → v < maxRid → pass v → v ∈ res

/-- The position before which everything is covered: the list. -/
def reachedTok : Pc → Nat
  | .construct => q.tokMin
  | .advance _ it => if it.list then it.tok else it.tok + 1
  | .next _ tok => tok + 1
  | .check it => it.tok
  | .apply it => it.tok
  | .visit _ it => it.tok
  | .finished => q.tokMax + 1

/-- A position of the range that can be read. -/
structure InRange (it : Iter) : Prop where
  tokMin_le : q.tokMin ≤ it.tok
  le_tokMax : it.tok ≤ q.tokMax
  list : it.list = true
  idx : 0 ≤ it.idx

/-- What is known of the position: it is in the range, and behind a test of
`operator++` it holds an id that has passed it. -/
def Stands (st : Store) (maxRid : Nat) (pass : Nat → Prop) : Pc → Prop
  | .construct => True
  | .advance _ it => q.tokMin ≤ it.tok ∧ it.tok ≤ q.tokMax ∧ -1 ≤ it.idx
  | .next _ tok => q.tokMin ≤ tok ∧ tok ≤ q.tokMax
  | .check it => q.InRange it
  | .apply it => q.pktFilter.isSome = true ∧ q.InRange it ∧
      ∃ v, q.slot st it = .stored v ∧ v < maxRid
  | .visit true it => q.InRange it
  | .visit false it => q.InRange it ∧ ∃ v, q.slot st it = .stored v ∧ v < maxRid ∧ pass v
  | .finished => True

/-- The results so far are right, and complete up to the position. -/
structure Correct (st : Store) (maxRid : Nat) (pass : Nat → Prop) (pc : Pc) (res : List Nat) :
    Prop where
  stands : q.Stands st maxRid pass pc
  covered : q.Covered st maxRid pass res (q.reachedTok pc) pc.reachedIdx
  sound : ∀ v ∈ res, v < maxRid ∧ q.Listed st v

/-- The reads on which the result depends: the first position holds a published id
below `maxRid`, any other slot is stored or reads as no such id, and no list in
which the scan stands is empty. -/
def Safe (st : Store) (maxRid junk : Nat) : Pc → Prop
  | .visit true it => ∃ v, q.slot st it = .stored v ∧ v < maxRid
  | .check it => (∃ v, q.slot st it = .stored v) ∨ maxRid ≤ junk
  | .advance _ it => it.list = true → it.idx + 1 ≤ (q.list st it.tok).tail
  | _ => True

/-- A store whose lists have entries only behind a pointer and below the tail, and
where the packet filter of the scan selects the ids that pass. -/
structure Sensible (st : Store) (maxRid : Nat) (pass : Nat → Prop) : Prop where
  null : ∀ tok j, (q.list st tok).created = false → (q.list st tok).slots j = .free
  free : ∀ tok j, (q.list st tok).tail ≤ j → (q.list st tok).slots j = .free
  unfiltered : q.pktFilter = none → ∀ v, pass v
  filtered : ∀ f, q.pktFilter = some f → ∀ v ok, q.Listed st v → v < maxRid →
    st.applyAt f v = some ok → (ok = true ↔ pass v)

variable {q} {st : Store} {maxRid junk : Nat} {pass : Nat → Prop} {res : List Nat}

/-! ## Single reads -/

theorem get_eq_some {it : Iter} {v : Nat} (h : q.get st junk it = some v) :
    it.list = true ∧ 0 ≤ it.idx ∧ (q.slot st it).read junk = v := by
  rw [get] at h
  split at h
  · next hc => exact ⟨hc.1, hc.2, Option.some.inj h⟩
  · cases h

theorem get_stored {it : Iter} (hr : q.InRange it) {v : Nat} (hs : q.slot st it = .stored v) :
    q.get st junk it = some v := by
  rw [get, if_pos ⟨hr.list, hr.idx⟩, hs]
  rfl

theorem more_eq_true {tok : Nat} (h : tok ≤ q.tokMax) : q.more tok = true := by
  rw [more]
  split
  · simp only [bne_iff_ne]
    omega
  · exact decide_eq_true h

theorem more_end : q.more (q.tokMax + 1) = false := by
  rw [more]
  split <;> simp

/-- A position of the range is not the end. -/
theorem arrive_of_le (first : Bool) {it : Iter} (h : it.tok ≤ q.tokMax) :
    q.arrive first it = .visit first it := if_neg (by omega)

theorem advanced_of_le (first : Bool) {it : Iter} (h : it.tok ≤ q.tokMax) :
    q.advanced first it = if first then .visit true it else .check it := by
  rw [advanced, more_eq_true h, arrive_of_le true h]
  rfl

theorem advanced_end (first list : Bool) :
    q.advanced first ⟨q.tokMax + 1, 0, list⟩ = .finished := by
  rw [advanced, more_end]
  cases first <;> simp [arrive]

theorem exhausted_of_le (first : Bool) {tok : Nat} (h : tok ≤ q.tokMax) :
    q.exhausted first tok = .next first tok := by
  rw [exhausted]
  split
  · rfl
  · exact if_pos h

/-! ## One step -/

theorem Covered.mono {tok n : Nat} (h : q.Covered st maxRid pass res tok n) (out : List Nat) :
    q.Covered st maxRid pass (res ++ out) tok n :=
  fun t j v h1 h2 h3 h4 h5 h6 => List.mem_append_left _ (h t j v h1 h2 h3 h4 h5 h6)

/-- A list without further ids is covered. -/
theorem Covered.next {tok n : Nat} (h : q.Covered st maxRid pass res tok n)
    (hempty : ∀ j, n ≤ j → (q.list st tok).slots j = .free) :
    q.Covered st maxRid pass res (tok + 1) 0 := by
  intro t j v h1 h2 h3 h4 h5 h6
  by_cases ht : t < tok
  · exact h t j v h1 h2 (.inl ht) h4 h5 h6
  · obtain rfl : t = tok := by omega
    by_cases hj : j < n
    · exact h t j v h1 h2 (.inr ⟨rfl, hj⟩) h4 h5 h6
    · rw [hempty j (Nat.le_of_not_lt hj)] at h4
      cases h4

/-- A slot that is no id to be inserted, or one that is among the results, is covered. -/
theorem Covered.slot {it : Iter} (h : q.Covered st maxRid pass res it.tok it.idx.toNat)
    (hidx : 0 ≤ it.idx)
    (hin : ∀ v, q.slot st it = .stored v → v < maxRid → pass v → v ∈ res) :
    q.Covered st maxRid pass res it.tok (it.idx + 1).toNat := by
  intro t j v h1 h2 h3 h4 h5 h6
  rcases h3 with ht | ⟨rfl, hj⟩
  · exact h t j v h1 h2 (.inl ht) h4 h5 h6
  · by_cases hlt : j < it.idx.toNat
    · exact h it.tok j v h1 h2 (.inr ⟨rfl, hlt⟩) h4 h5 h6
    · obtain rfl : j = it.idx.toNat := by omega
      exact hin v h4 h5 h6

theorem InRange.stands_advance {it : Iter} (h : q.InRange it) :
    q.Stands st maxRid pass (.advance false it) :=
  ⟨h.tokMin_le, h.le_tokMax, by have := h.idx; omega⟩

theorem InRange.listed {it : Iter} (h : q.InRange it) {v : Nat} (hs : q.slot st it = .stored v) :
    q.Listed st v := ⟨it.tok, it.idx.toNat, h.tokMin_le, h.le_tokMax, hs⟩

/-- A position of the range that `advance` has reached. -/
theorem correct_advanced {first : Bool} {it : Iter} (hr : q.InRange it)
    (hc : q.Covered st maxRid pass res it.tok it.idx.toNat)
    (hs : ∀ v ∈ res, v < maxRid ∧ q.Listed st v) :
    q.Correct st maxRid pass (q.advanced first it) res := by
  rw [advanced_of_le first hr.le_tokMax]
  cases first with
  | true => exact ⟨hr, hc, hs⟩
  | false => exact ⟨hr, hc, hs⟩

theorem correct_advance {it : Iter} (hr : q.InRange it)
    (hc : q.Covered st maxRid pass res it.tok (it.idx + 1).toNat)
    (hs : ∀ v ∈ res, v < maxRid ∧ q.Listed st v) :
    q.Correct st maxRid pass (.advance false it) res := by
  refine ⟨hr.stands_advance, ?_, hs⟩
  simpa [reachedTok, Pc.reachedIdx, hr.list] using hc

theorem correct_construct (hq : q.tokMin ≤ q.tokMax) (hst : q.Sensible st maxRid pass)
    (h : q.Correct st maxRid pass .construct res) :
    q.Correct st maxRid pass (.advance true ⟨q.tokMin, -1, (q.list st q.tokMin).created⟩) res := by
  refine ⟨⟨Nat.le_refl _, hq, Int.le_refl _⟩, ?_, h.sound⟩
  have h0 : q.Covered st maxRid pass res q.tokMin 0 := h.covered
  cases hc : (q.list st q.tokMin).created with
  | true => exact h0
  | false => exact h0.next fun j _ => hst.null _ j hc

theorem correct_next (hst : q.Sensible st maxRid pass) {first : Bool} {tok : Nat}
    (hr : q.tokMin ≤ tok ∧ tok ≤ q.tokMax) (hc : q.Covered st maxRid pass res (tok + 1) 0)
    (hs : ∀ v ∈ res, v < maxRid ∧ q.Listed st v) {pc : Pc} {out : List Nat}
    (hstep : q.step st maxRid junk (.next first tok) = some (pc, out)) :
    q.Correct st maxRid pass pc (res ++ out) := by
  simp only [step] at hstep
  split at hstep
  · split at hstep
    · next hnull =>
      cases hstep
      rw [List.append_nil]
      exact ⟨⟨by omega, hnull.2⟩, hc.next fun j _ => hst.null _ j hnull.1, hs⟩
    · next hnull =>
      cases hstep
      rw [List.append_nil]
      by_cases hle : tok + 1 ≤ q.tokMax
      · have hlist : (q.list st (tok + 1)).created = true := by
          by_contra hne
          exact hnull ⟨by simpa using hne, hle⟩
        refine correct_advanced ⟨?_, hle, hlist, Int.le_refl 0⟩ hc hs
        exact Nat.le_succ_of_le hr.1
      · obtain rfl : tok = q.tokMax := by omega
        rw [advanced_end]
        exact ⟨trivial, hc, hs⟩
  · cases hstep

theorem correct_of_advance (hst : q.Sensible st maxRid pass) {first : Bool} {it : Iter}
    (h : q.Correct st maxRid pass (.advance first it) res) {pc : Pc} {out : List Nat}
    (hstep : q.step st maxRid junk (.advance first it) = some (pc, out)) :
    q.Correct st maxRid pass pc (res ++ out) := by
  obtain ⟨hmin, hmax, hidx⟩ := h.stands
  have hc := h.covered
  simp only [step] at hstep
  rw [if_neg (by omega : ¬ it.tok = q.tokMax + 1)] at hstep
  split at hstep
  · next hend =>
    cases hstep
    rw [exhausted_of_le first hmax, List.append_nil]
    refine ⟨⟨hmin, hmax⟩, ?_, h.sound⟩
    cases hl : it.list with
    | false => simpa [reachedTok, Pc.reachedIdx, hl] using hc
    | true =>
      simp only [reachedTok, Pc.reachedIdx, hl, if_true] at hc
      refine hc.next fun j hj => hst.free _ j ?_
      rcases hend with hend | hend
      · rw [hl] at hend
        cases hend
      · omega
  · next hend =>
    cases hstep
    rw [List.append_nil]
    have hl : it.list = true := by
      by_contra hne
      exact hend (.inl (by simpa using hne))
    simp only [reachedTok, Pc.reachedIdx, hl, if_true] at hc
    exact correct_advanced ⟨hmin, hmax, hl, by dsimp only; omega⟩ hc h.sound

theorem correct_check (hst : q.Sensible st maxRid pass) {it : Iter}
    (h : q.Correct st maxRid pass (.check it) res) (hsafe : q.Safe st maxRid junk (.check it))
    {pc : Pc} {out : List Nat} (hstep : q.step st maxRid junk (.check it) = some (pc, out)) :
    q.Correct st maxRid pass pc (res ++ out) := by
  have hr : q.InRange it := h.stands
  obtain ⟨v, hv, heq⟩ := Option.map_eq_some_iff.mp hstep
  obtain ⟨-, -, hread⟩ := get_eq_some hv
  split at heq
  · next hle =>
    cases heq
    rw [List.append_nil]
    refine correct_advance hr (h.covered.slot hr.idx fun v' hv' hlt _ => ?_) h.sound
    rw [hv'] at hread
    obtain rfl : v' = v := hread
    omega
  · next hle =>
    have hslot : q.slot st it = .stored v := by
      rcases hsafe with ⟨v', hv'⟩ | hjunk
      · rw [hv'] at hread ⊢
        rw [show v' = v from hread]
      · cases hs : q.slot st it with
        | stored v' =>
          rw [hs] at hread
          rw [show v' = v from hread]
        | free =>
          rw [hs] at hread
          exact absurd (hread ▸ hjunk) hle
        | reserved v' =>
          rw [hs] at hread
          exact absurd (hread ▸ hjunk) hle
    have hlt : v < maxRid := Nat.lt_of_not_le hle
    cases hpf : q.pktFilter with
    | none =>
      rw [hpf] at heq
      cases heq
      rw [arrive_of_le false hr.le_tokMax, List.append_nil]
      exact ⟨⟨hr, v, hslot, hlt, hst.unfiltered hpf v⟩, h.covered, h.sound⟩
    | some f =>
      rw [hpf] at heq
      cases heq
      rw [List.append_nil]
      exact ⟨⟨by rw [hpf]; rfl, hr, v, hslot, hlt⟩, h.covered, h.sound⟩

theorem correct_apply (hst : q.Sensible st maxRid pass) {it : Iter}
    (h : q.Correct st maxRid pass (.apply it) res) {pc : Pc} {out : List Nat}
    (hstep : q.step st maxRid junk (.apply it) = some (pc, out)) :
    q.Correct st maxRid pass pc (res ++ out) := by
  obtain ⟨-, hr, v, hslot, hlt⟩ := h.stands
  obtain ⟨f, hpf, hstep⟩ := Option.bind_eq_some_iff.mp hstep
  rw [get_stored hr hslot] at hstep
  obtain ⟨ok, happ, heq⟩ := Option.map_eq_some_iff.mp hstep
  have hiff := hst.filtered f hpf v ok (hr.listed hslot) hlt happ
  cases ok with
  | true =>
    cases heq
    rw [if_pos rfl, arrive_of_le false hr.le_tokMax, List.append_nil]
    exact ⟨⟨hr, v, hslot, hlt, hiff.mp rfl⟩, h.covered, h.sound⟩
  | false =>
    cases heq
    rw [List.append_nil]
    refine correct_advance hr (h.covered.slot hr.idx fun v' hv' _ hpass => ?_) h.sound
    rw [hslot] at hv'
    cases hv'
    cases hiff.mpr hpass

theorem correct_visit {first : Bool} {it : Iter}
    (h : q.Correct st maxRid pass (.visit first it) res)
    (hsafe : q.Safe st maxRid junk (.visit first it)) {pc : Pc} {out : List Nat}
    (hstep : q.step st maxRid junk (.visit first it) = some (pc, out)) :
    q.Correct st maxRid pass pc (res ++ out) := by
  obtain ⟨hr, v, hslot, hlt⟩ : q.InRange it ∧ ∃ v, q.slot st it = .stored v ∧ v < maxRid := by
    cases first with
    | true => exact ⟨h.stands, hsafe⟩
    | false =>
      obtain ⟨hr, v, hslot, hlt, -⟩ := h.stands
      exact ⟨hr, v, hslot, hlt⟩
  simp only [step, get_stored hr hslot, Option.map_some, Option.some.injEq, Prod.mk.injEq] at hstep
  obtain ⟨rfl, rfl⟩ := hstep
  have hcov : q.Covered st maxRid pass res it.tok it.idx.toNat := h.covered
  refine correct_advance hr ((hcov.mono [v]).slot hr.idx fun v' hv' _ _ => ?_) fun v' hv' => ?_
  · rw [hslot] at hv'
    cases hv'
    exact List.mem_append_right _ List.mem_cons_self
  · rcases List.mem_append.mp hv' with hv' | hv'
    · exact h.sound v' hv'
    · obtain rfl := List.mem_singleton.mp hv'
      exact ⟨hlt, hr.listed hslot⟩

/-- A safe read keeps the results right and complete. -/
theorem correct_step (hq : q.tokMin ≤ q.tokMax) (hst : q.Sensible st maxRid pass) {pc pc' : Pc}
    {out : List Nat} (h : q.Correct st maxRid pass pc res) (hsafe : q.Safe st maxRid junk pc)
    (hstep : q.step st maxRid junk pc = some (pc', out)) :
    q.Correct st maxRid pass pc' (res ++ out) := by
  cases pc with
  | construct =>
    simp only [step] at hstep
    split at hstep
    · cases hstep
      rw [List.append_nil]
      exact correct_construct hq hst h
    · cases hstep
  | advance first it => exact correct_of_advance hst h hstep
  | next first tok => exact correct_next hst h.stands h.covered h.sound hstep
  | check it => exact correct_check hst h hsafe hstep
  | apply it => exact correct_apply hst h hstep
  | visit first it => exact correct_visit h hsafe hstep
  | finished => cases hstep

theorem correct_start (st : Store) (maxRid : Nat) (pass : Nat → Prop) :
    q.Correct st maxRid pass .construct [] :=
  ⟨trivial, fun t j v h1 h2 h3 => by simp [reachedTok, Pc.reachedIdx] at h3; omega,
    fun v hv => by cases hv⟩

/-- At the end every listed id below `maxRid` that passes is among the results. -/
theorem Correct.finished (h : q.Correct st maxRid pass .finished res) {v : Nat} (hlt : v < maxRid)
    (hl : q.Listed st v) (hp : pass v) : v ∈ res := by
  obtain ⟨tok, j, hmin, hmax, hslot⟩ := hl
  exact h.covered tok j v hmin hmax (.inl (Nat.lt_succ_of_le hmax)) hslot hlt hp

/-- What is stored stays, and no id below `maxRid` is stored any more. -/
theorem Correct.stable {st' : Store} {pc : Pc} (h : q.Correct st maxRid pass pc res)
    (hkeep : ∀ tok j v, (q.list st tok).slots j = .stored v → (q.list st' tok).slots j = .stored v)
    (hnew : ∀ tok j v, (q.list st' tok).slots j = .stored v → v < maxRid →
      (q.list st tok).slots j = .stored v) : q.Correct st' maxRid pass pc res := by
  refine ⟨?_, fun t j v h1 h2 h3 h4 h5 h6 => h.covered t j v h1 h2 h3 (hnew t j v h4 h5) h5 h6,
    fun v hv => ?_⟩
  · have hs := h.stands
    cases pc with
    | apply it =>
      obtain ⟨hpf, hr, v, hslot, hlt⟩ := hs
      exact ⟨hpf, hr, v, hkeep _ _ v hslot, hlt⟩
    | visit first it =>
      cases first with
      | true => exact hs
      | false =>
        obtain ⟨hr, v, hslot, hlt⟩ := hs
        exact ⟨hr, v, hkeep _ _ v hslot, hlt⟩
    | _ => exact hs
  · obtain ⟨hlt, tok, j, hmin, hmax, hslot⟩ := h.sound v hv
    exact ⟨hlt, tok, j, hmin, hmax, hkeep tok j v hslot⟩

/-! ## No list is left behind -/

/-- The list at the position was created, and the position is the first one or
below the tail. -/
def NearAt (q : Scan) (st : Store) (it : Iter) : Prop :=
  (q.list st it.tok).created = true ∧ (it.idx < (q.list st it.tok).tail ∨ it.idx ≤ 0)

def Near (q : Scan) (st : Store) : Pc → Prop
  | .advance _ it => it.list = true → q.NearAt st it
  | .check it => q.NearAt st it
  | .apply it => q.NearAt st it
  | .visit _ it => q.NearAt st it
  | _ => True

theorem near_advanced {first : Bool} {it : Iter} (hle : it.tok ≤ q.tokMax) (h : q.NearAt st it) :
    q.Near st (q.advanced first it) := by
  rw [advanced_of_le first hle]
  cases first with
  | true => exact h
  | false => exact h

theorem near_advance {first : Bool} {it : Iter} {pc : Pc} {out : List Nat}
    (hs : q.Stands st maxRid pass (.advance first it)) (h : q.Near st (.advance first it))
    (hsafe : q.Safe st maxRid junk (.advance first it))
    (hstep : q.step st maxRid junk (.advance first it) = some (pc, out)) : q.Near st pc := by
  obtain ⟨hmin, hmax, hidx⟩ := hs
  simp only [step] at hstep
  rw [if_neg (by omega : ¬ it.tok = q.tokMax + 1)] at hstep
  split at hstep
  · cases hstep
    rw [exhausted_of_le first hmax]
    trivial
  · next hend =>
    cases hstep
    have hl : it.list = true := by
      by_contra hne
      exact hend (.inl (by simpa using hne))
    have hle : it.idx + 1 ≤ (q.list st it.tok).tail := hsafe hl
    refine near_advanced hmax ⟨(h hl).1, .inl ?_⟩
    dsimp only
    exact Int.lt_iff_le_and_ne.mpr ⟨hle, fun heq => hend (.inr heq)⟩

theorem near_next {first : Bool} {tok : Nat} {pc : Pc} {out : List Nat}
    (hs : q.Stands st maxRid pass (.next first tok))
    (hstep : q.step st maxRid junk (.next first tok) = some (pc, out)) : q.Near st pc := by
  simp only [step] at hstep
  split at hstep
  · split at hstep
    · cases hstep
      trivial
    · next hnull =>
      cases hstep
      by_cases hle : tok + 1 ≤ q.tokMax
      · refine near_advanced hle ⟨?_, .inr (Int.le_refl 0)⟩
        by_contra hne
        exact hnull ⟨by simpa using hne, hle⟩
      · obtain rfl : tok = q.tokMax := by
          have := hs.2
          omega
        rw [advanced_end]
        trivial
  · cases hstep

theorem near_check {it : Iter} {pc : Pc} {out : List Nat} (hr : q.InRange it)
    (h : q.NearAt st it) (hstep : q.step st maxRid junk (.check it) = some (pc, out)) :
    q.Near st pc := by
  obtain ⟨v, -, heq⟩ := Option.map_eq_some_iff.mp hstep
  split at heq
  · cases heq
    exact fun _ => h
  · cases hpf : q.pktFilter with
    | none =>
      rw [hpf] at heq
      cases heq
      rw [arrive_of_le false hr.le_tokMax]
      exact h
    | some f =>
      rw [hpf] at heq
      cases heq
      exact h

theorem near_step {pc pc' : Pc} {out : List Nat} (hs : q.Stands st maxRid pass pc)
    (h : q.Near st pc) (hsafe : q.Safe st maxRid junk pc)
    (hstep : q.step st maxRid junk pc = some (pc', out)) : q.Near st pc' := by
  cases pc with
  | construct =>
    simp only [step] at hstep
    split at hstep
    · cases hstep
      exact fun hl => ⟨hl, .inr (by dsimp only; omega)⟩
    · cases hstep
  | advance first it => exact near_advance hs h hsafe hstep
  | next first tok => exact near_next hs hstep
  | check it => exact near_check hs h hstep
  | apply it =>
    obtain ⟨-, hr, -⟩ := hs
    obtain ⟨f, -, hstep⟩ := Option.bind_eq_some_iff.mp hstep
    obtain ⟨v, -, hstep⟩ := Option.bind_eq_some_iff.mp hstep
    obtain ⟨ok, -, heq⟩ := Option.map_eq_some_iff.mp hstep
    cases ok with
    | true =>
      cases heq
      rw [if_pos rfl, arrive_of_le false hr.le_tokMax]
      exact h
    | false =>
      cases heq
      exact fun _ => h
  | visit first it =>
    obtain ⟨v, -, heq⟩ := Option.map_eq_some_iff.mp hstep
    cases heq
    exact fun _ => h
  | finished => cases hstep

theorem Near.stable {st' : Store} {pc : Pc} (h : q.Near st pc)
    (hgrow : ∀ tok, ((q.list st tok).created = true → (q.list st' tok).created = true) ∧
      (q.list st tok).tail ≤ (q.list st' tok).tail) : q.Near st' pc := by
  have hat : ∀ it, q.NearAt st it → q.NearAt st' it := by
    rintro it ⟨hc, hidx⟩
    have := (hgrow it.tok).2
    exact ⟨(hgrow it.tok).1 hc, by omega⟩
  cases pc with
  | advance first it => exact fun hl => hat it (h hl)
  | check it => exact hat it h
  | apply it => exact hat it h
  | visit first it => exact hat it h
  | _ => trivial

/-! ## The end of a scan -/

/-- A position that the scan can go on from. -/
def Fits (q : Scan) (st : Store) : Pc → Prop
  | .construct => True
  | .advance _ it => q.tokMin ≤ it.tok ∧ it.tok ≤ q.tokMax ∧ -1 ≤ it.idx ∧
      (it.list = true → it.idx < (q.list st it.tok).tail)
  | .next _ tok => q.tokMin ≤ tok ∧ tok ≤ q.tokMax
  | .check it => q.InRange it ∧ it.idx < (q.list st it.tok).tail
  | .apply it => (q.InRange it ∧ it.idx < (q.list st it.tok).tail) ∧
      ∃ f v, q.pktFilter = some f ∧ q.slot st it = .stored v ∧ (st.applyAt f v).isSome
  | .visit _ it => q.InRange it ∧ it.idx < (q.list st it.tok).tail
  | .finished => True

/-- A store on which the scan comes to its end: its keys are in the index, no
list of the range is empty, and the packet filter can look up what it reads. -/
structure Finite (q : Scan) (st : Store) : Prop where
  range : q.tokMin ≤ q.tokMax
  keys : q.tokMax + 1 < q.target.keys
  nonempty : ∀ tok, q.tokMin ≤ tok → tok ≤ q.tokMax → (q.list st tok).created = true →
    0 < (q.list st tok).tail
  lookup : ∀ f, q.pktFilter = some f → ∀ tok j, q.tokMin ≤ tok → tok ≤ q.tokMax →
    j < (q.list st tok).tail → ∃ v, (q.list st tok).slots j = .stored v ∧ (st.applyAt f v).isSome

/-- Without a packet filter, where no list is left behind and none is empty, the
scan can go on. -/
theorem Near.fits {pc : Pc} (h : q.Near st pc) (hs : q.Stands st maxRid pass pc)
    (hq : q.Finite st) (hpf : q.pktFilter = none) : q.Fits st pc := by
  have hat : ∀ it, q.tokMin ≤ it.tok → it.tok ≤ q.tokMax → q.NearAt st it →
      it.idx < (q.list st it.tok).tail := by
    rintro it hmin hmax ⟨hc, hidx⟩
    have := hq.nonempty it.tok hmin hmax hc
    omega
  cases pc with
  | advance first it =>
    exact ⟨hs.1, hs.2.1, hs.2.2, fun hl => hat it hs.1 hs.2.1 (h hl)⟩
  | next first tok => exact hs
  | check it =>
    have hr : q.InRange it := hs
    exact ⟨hr, hat it hr.tokMin_le hr.le_tokMax h⟩
  | apply it =>
    have hsome := hs.1
    rw [hpf] at hsome
    cases hsome
  | visit first it =>
    have hr : q.InRange it := by
      cases first with
      | true => exact hs
      | false => exact hs.1
    exact ⟨hr, hat it hr.tokMin_le hr.le_tokMax h⟩
  | _ => trivial

/-- The tokens still to come. -/
def tokensLeft (q : Scan) : Pc → Nat
  | .construct => q.tokMax + 2 - q.tokMin
  | .advance _ it => q.tokMax + 1 - it.tok
  | .next _ tok => q.tokMax + 1 - tok
  | .check it => q.tokMax + 1 - it.tok
  | .apply it => q.tokMax + 1 - it.tok
  | .visit _ it => q.tokMax + 1 - it.tok
  | .finished => 0

/-- The positions of the list still to come. -/
def roomLeft (q : Scan) (st : Store) : Pc → Nat
  | .advance _ it => ((q.list st it.tok).tail - it.idx).toNat + 1
  | .check it => ((q.list st it.tok).tail - it.idx).toNat + 1
  | .apply it => ((q.list st it.tok).tail - it.idx).toNat + 1
  | .visit _ it => ((q.list st it.tok).tail - it.idx).toNat + 1
  | _ => 0

/-- The tests of a position still to come. -/
def testsLeft : Pc → Nat
  | .check _ => 3
  | .apply _ => 2
  | .visit _ _ => 1
  | _ => 0

def Less (q : Scan) (st : Store) (pc' pc : Pc) : Prop :=
  q.tokensLeft pc' < q.tokensLeft pc ∨ q.tokensLeft pc' = q.tokensLeft pc ∧
    (q.roomLeft st pc' < q.roomLeft st pc ∨ q.roomLeft st pc' = q.roomLeft st pc ∧
      testsLeft pc' < testsLeft pc)

theorem fits_advanced {first : Bool} {it : Iter} (hr : q.InRange it)
    (hlt : it.idx < (q.list st it.tok).tail) : q.Fits st (q.advanced first it) := by
  rw [advanced_of_le first hr.le_tokMax]
  cases first with
  | true => exact ⟨hr, hlt⟩
  | false => exact ⟨hr, hlt⟩

theorem less_advanced {first : Bool} {it : Iter} {pc : Pc} (hr : q.InRange it)
    (h : q.tokMax + 1 - it.tok < q.tokensLeft pc ∨ q.tokMax + 1 - it.tok = q.tokensLeft pc ∧
      ((q.list st it.tok).tail - it.idx).toNat + 1 < q.roomLeft st pc) :
    q.Less st (q.advanced first it) pc := by
  rw [advanced_of_le first hr.le_tokMax]
  cases first with
  | true => exact h.imp_right fun ⟨h1, h2⟩ => ⟨h1, .inl h2⟩
  | false => exact h.imp_right fun ⟨h1, h2⟩ => ⟨h1, .inl h2⟩

theorem fits_of_next (hq : q.Finite st) (maxRid junk : Nat) {first : Bool} {tok : Nat}
    (hr : q.tokMin ≤ tok ∧ tok ≤ q.tokMax) :
    ∃ pc out, q.step st maxRid junk (.next first tok) = some (pc, out) ∧ q.Fits st pc ∧
      q.Less st pc (.next first tok) := by
  have hkeys := hq.keys
  simp only [step]
  rw [if_pos (by omega)]
  split
  · next hnull =>
    refine ⟨_, _, rfl, ⟨by omega, hnull.2⟩, .inl ?_⟩
    simp only [tokensLeft]
    omega
  · next hnull =>
    by_cases hle : tok + 1 ≤ q.tokMax
    · have hlist : (q.list st (tok + 1)).created = true := by
        by_contra hne
        exact hnull ⟨by simpa using hne, hle⟩
      have hin : q.InRange ⟨tok + 1, 0, (q.list st (tok + 1)).created⟩ :=
        ⟨Nat.le_succ_of_le hr.1, hle, hlist, Int.le_refl 0⟩
      refine ⟨_, _, rfl, fits_advanced hin ?_, less_advanced hin (.inl ?_)⟩
      · have := hq.nonempty (tok + 1) (Nat.le_succ_of_le hr.1) hle hlist
        dsimp only
        omega
      · simp only [tokensLeft]
        omega
    · obtain rfl : tok = q.tokMax := by omega
      refine ⟨_, _, rfl, ?_, ?_⟩
      · rw [advanced_end]
        trivial
      · rw [advanced_end]
        left
        simp only [tokensLeft]
        omega

theorem fits_of_advance (maxRid junk : Nat) {first : Bool} {it : Iter}
    (h : q.Fits st (.advance first it)) :
    ∃ pc out, q.step st maxRid junk (.advance first it) = some (pc, out) ∧ q.Fits st pc ∧
      q.Less st pc (.advance first it) := by
  obtain ⟨hmin, hmax, hidx, hlt⟩ := h
  simp only [step]
  rw [if_neg (by omega : ¬ it.tok = q.tokMax + 1)]
  split
  · rw [exhausted_of_le first hmax]
    refine ⟨_, _, rfl, ⟨hmin, hmax⟩, .inr ⟨rfl, .inl ?_⟩⟩
    simp only [roomLeft]
    omega
  · next hend =>
    have hl : it.list = true := by
      by_contra hne
      exact hend (.inl (by simpa using hne))
    have hlt := hlt hl
    have hne : it.idx + 1 ≠ (q.list st it.tok).tail := fun heq => hend (.inr heq)
    have hin : q.InRange { it with idx := it.idx + 1 } := ⟨hmin, hmax, hl, by dsimp only; omega⟩
    refine ⟨_, _, rfl, fits_advanced hin ?_, less_advanced hin (.inr ⟨rfl, ?_⟩)⟩
    · dsimp only [list] at hlt hne ⊢
      omega
    · dsimp only [roomLeft, list] at hlt hne ⊢
      omega

theorem get_of_inRange {it : Iter} (hr : q.InRange it) :
    q.get st junk it = some ((q.slot st it).read junk) := if_pos ⟨hr.list, hr.idx⟩

theorem fits_back {it : Iter} (h : q.InRange it ∧ it.idx < (q.list st it.tok).tail) :
    q.Fits st (.advance false it) :=
  ⟨h.1.tokMin_le, h.1.le_tokMax, by have := h.1.idx; omega, fun _ => h.2⟩

/-- A scan that is not at its end has a next step, and comes closer to its end by it. -/
theorem fits_step (hq : q.Finite st) (maxRid junk : Nat) {pc : Pc} (h : q.Fits st pc)
    (hpc : pc ≠ .finished) : ∃ pc' out, q.step st maxRid junk pc = some (pc', out) ∧
      q.Fits st pc' ∧ q.Less st pc' pc := by
  cases pc with
  | construct =>
    have hrange := hq.range
    have hkeys := hq.keys
    simp only [step]
    rw [if_pos (by omega)]
    refine ⟨_, _, rfl, ⟨Nat.le_refl _, hrange, Int.le_refl _, fun _ => by dsimp only; omega⟩,
      .inl ?_⟩
    simp only [tokensLeft]
    omega
  | advance first it => exact fits_of_advance maxRid junk h
  | next first tok => exact fits_of_next hq maxRid junk h
  | check it =>
    simp only [step, get_of_inRange h.1, Option.map_some]
    split
    · exact ⟨_, _, rfl, fits_back h, .inr ⟨rfl, .inr ⟨rfl, by simp [testsLeft]⟩⟩⟩
    · cases hpf : q.pktFilter with
      | none =>
        refine ⟨_, _, rfl, ?_, ?_⟩
        · rw [arrive_of_le false h.1.le_tokMax]
          exact h
        · rw [arrive_of_le false h.1.le_tokMax]
          exact .inr ⟨rfl, .inr ⟨rfl, by simp [testsLeft]⟩⟩
      | some f =>
        obtain ⟨v, hv, hsome⟩ := hq.lookup f hpf it.tok it.idx.toNat h.1.tokMin_le h.1.le_tokMax
          (by have := h.1.idx; have := h.2; omega)
        exact ⟨_, _, rfl, ⟨h, f, v, hpf, hv, hsome⟩, .inr ⟨rfl, .inr ⟨rfl, by simp [testsLeft]⟩⟩⟩
  | apply it =>
    obtain ⟨hin, f, v, hpf, hv, hsome⟩ := h
    obtain ⟨ok, hok⟩ := Option.isSome_iff_exists.mp hsome
    simp only [step, hpf, Option.bind_some, get_stored hin.1 hv, hok, Option.map_some]
    cases ok with
    | true =>
      refine ⟨_, _, rfl, ?_, ?_⟩
      · rw [if_pos rfl, arrive_of_le false hin.1.le_tokMax]
        exact hin
      · rw [if_pos rfl, arrive_of_le false hin.1.le_tokMax]
        exact .inr ⟨rfl, .inr ⟨rfl, by simp [testsLeft]⟩⟩
    | false => exact ⟨_, _, rfl, fits_back hin, .inr ⟨rfl, .inr ⟨rfl, by simp [testsLeft]⟩⟩⟩
  | visit first it =>
    simp only [step, get_of_inRange h.1, Option.map_some]
    exact ⟨_, _, rfl, fits_back h, .inr ⟨rfl, .inr ⟨rfl, by simp [testsLeft]⟩⟩⟩
  | finished => exact absurd rfl hpc

/-- By itself the scan comes to its end, whatever it reads where nothing is stored. -/
theorem drain_finishes (hq : q.Finite st) (maxRid : Nat) (junk : Nat → Nat) (pc : Pc)
    (h : q.Fits st pc) (res : List Nat) : ∃ n out, q.drain st maxRid n junk pc res = some out := by
  by_cases hpc : pc = .finished
  · subst hpc
    exact ⟨0, res, rfl⟩
  · obtain ⟨pc', out, hstep, hfits, hless⟩ := fits_step hq maxRid (junk 0) h hpc
    obtain ⟨n, out', hn⟩ :=
      drain_finishes hq maxRid (fun i => junk (i + 1)) pc' hfits (res ++ out)
    refine ⟨n + 1, out', ?_⟩
    cases pc with
    | finished => exact absurd rfl hpc
    | _ => simpa [drain, hstep] using hn
termination_by (q.tokensLeft pc, q.roomLeft st pc, testsLeft pc)
decreasing_by
  simp only [Prod.lex_def]
  exact hless

end Scan

end Netplay
