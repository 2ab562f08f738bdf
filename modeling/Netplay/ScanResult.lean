import Netplay.ScanCoverage

/-!
# The result of a scan by itself

On a store in which every slot below a tail is stored and published, a scan
inserts the listed ids that pass, and the id it meets first, passing or not.
-/

namespace Netplay

open Packet NetplayUtils

namespace Scan

/-- The id is in the first slot of the first list of the range with entries. -/
def IsFirst (q : Scan) (st : Store) (v : Nat) : Prop :=
  ∃ tok, q.tokMin ≤ tok ∧ tok ≤ q.tokMax ∧ (q.list st tok).slots 0 = .stored v ∧
    ∀ t, q.tokMin ≤ t → t < tok → (q.list st t).tail = 0

/-- No writer runs: every slot below a tail holds a published id. -/
structure Settled (q : Scan) (st : Store) (maxRid : Nat) : Prop where
  stored : ∀ tok j, j < (q.list st tok).tail →
    ∃ v, (q.list st tok).slots j = .stored v ∧ v < maxRid
  null : ∀ tok, (q.list st tok).created = false → (q.list st tok).tail = 0

variable {q : Scan} {st : Store} {maxRid junk : Nat} {pass : Nat → Prop} {res : List Nat}

/-- Until the first insertion every list behind the scan is without entries; from
then on the id in the first slot is among the results. -/
def Met (q : Scan) (st : Store) (res : List Nat) : Pc → Prop
  | .construct => res = []
  | .advance true it => res = [] ∧ it.tok = q.tokMin ∧ it.idx = -1 ∧
      (it.list = false → (q.list st q.tokMin).tail = 0)
  | .next true tok => res = [] ∧ ∀ t, q.tokMin ≤ t → t ≤ tok → (q.list st t).tail = 0
  | .visit true it => res = [] ∧ it.idx = 0 ∧
      ∀ t, q.tokMin ≤ t → t < it.tok → (q.list st t).tail = 0
  | _ => ∀ v, q.IsFirst st v → v ∈ res

/-- What holds of a scan by itself. -/
structure Proceeds (q : Scan) (st : Store) (maxRid : Nat) (pass : Nat → Prop) (pc : Pc)
    (res : List Nat) : Prop where
  correct : q.Correct st maxRid pass pc res
  fits : q.Fits st pc
  met : q.Met st res pc
  passed : ∀ v ∈ res, pass v ∨ q.IsFirst st v

/-- Every read is safe. -/
theorem Settled.safe (h : q.Settled st maxRid) {pc : Pc} (hf : q.Fits st pc) (junk : Nat) :
    q.Safe st maxRid junk pc := by
  have hat : ∀ it, q.InRange it → it.idx < (q.list st it.tok).tail →
      ∃ v, q.slot st it = .stored v ∧ v < maxRid := fun it hr hlt =>
    h.stored it.tok it.idx.toNat (by have := hr.idx; omega)
  cases pc with
  | check it =>
    obtain ⟨v, hv, -⟩ := hat it hf.1 hf.2
    exact .inl ⟨v, hv⟩
  | visit first it =>
    cases first with
    | true => exact hat it hf.1 hf.2
    | false => trivial
  | advance first it =>
    intro hl
    have := hf.2.2.2 hl
    omega
  | _ => trivial

/-- The id met first is the only one in a first slot with empty lists before it. -/
theorem IsFirst.unique (hst : q.Sensible st maxRid pass) {v v' : Nat} (h : q.IsFirst st v)
    (h' : q.IsFirst st v') : v = v' := by
  obtain ⟨tok, h1, -, hslot, hbefore⟩ := h
  obtain ⟨tok', h1', -, hslot', hbefore'⟩ := h'
  have hpos : ∀ {t x}, (q.list st t).slots 0 = .stored x → (q.list st t).tail ≠ 0 := by
    intro t x hx h0
    rw [hst.free t 0 (Nat.le_of_eq h0)] at hx
    cases hx
  have heq : tok = tok' := by
    by_contra hne
    rcases Nat.lt_or_gt_of_ne hne with hlt | hlt
    · exact hpos hslot (hbefore' tok h1 hlt)
    · exact hpos hslot' (hbefore tok' h1' hlt)
  subst heq
  rw [hslot] at hslot'
  cases hslot'
  rfl

theorem met_finished (hst : q.Sensible st maxRid pass)
    (hempty : ∀ t, q.tokMin ≤ t → t ≤ q.tokMax → (q.list st t).tail = 0) :
    q.Met st res .finished := by
  rintro v ⟨tok, h1, h2, hslot, -⟩
  rw [hst.free tok 0 (Nat.le_of_eq (hempty tok h1 h2))] at hslot
  cases hslot

theorem met_advanced {first : Bool} {it : Iter} (hle : it.tok ≤ q.tokMax)
    (ht : first = true → q.Met st res (.visit true it))
    (hf : first = false → ∀ v, q.IsFirst st v → v ∈ res) : q.Met st res (q.advanced first it) := by
  rw [advanced_of_le first hle]
  cases first with
  | true => exact ht rfl
  | false => exact hf rfl

theorem met_next (hq : q.Settled st maxRid) (hst : q.Sensible st maxRid pass) {first : Bool}
    {tok : Nat} (hr : q.tokMin ≤ tok ∧ tok ≤ q.tokMax) (h : q.Met st res (.next first tok))
    {pc : Pc} {out : List Nat} (hstep : q.step st maxRid junk (.next first tok) = some (pc, out)) :
    out = [] ∧ q.Met st res pc := by
  have hnext : ∀ {t}, first = true → q.tokMin ≤ t → t < tok + 1 → (q.list st t).tail = 0 := by
    rintro t rfl h1 h2
    exact h.2 t h1 (Nat.le_of_lt_succ h2)
  have hrest : first = false → ∀ v, q.IsFirst st v → v ∈ res := by
    rintro rfl
    exact h
  simp only [step] at hstep
  split at hstep
  · split at hstep
    · next hnull =>
      cases hstep
      refine ⟨rfl, ?_⟩
      cases first with
      | true =>
        refine ⟨h.1, fun t h1 h2 => ?_⟩
        rcases Nat.lt_or_eq_of_le h2 with hlt | rfl
        · exact hnext rfl h1 hlt
        · exact hq.null _ hnull.1
      | false => exact h
    · next hnull =>
      cases hstep
      refine ⟨rfl, ?_⟩
      by_cases hle : tok + 1 ≤ q.tokMax
      · refine met_advanced hle (fun hf => ?_) hrest
        subst hf
        exact ⟨h.1, rfl, fun t h1 h2 => hnext rfl h1 h2⟩
      · obtain rfl : tok = q.tokMax := by omega
        rw [advanced_end]
        cases first with
        | true => exact met_finished hst fun t h1 h2 => hnext rfl h1 (Nat.lt_succ_of_le h2)
        | false => exact h
  · cases hstep

theorem met_of_advance {first : Bool} {it : Iter} (hr : q.Fits st (.advance first it))
    (h : q.Met st res (.advance first it)) {pc : Pc} {out : List Nat}
    (hstep : q.step st maxRid junk (.advance first it) = some (pc, out)) :
    out = [] ∧ q.Met st res pc := by
  obtain ⟨hmin, hmax, hidx, -⟩ := hr
  simp only [step] at hstep
  rw [if_neg (by omega : ¬ it.tok = q.tokMax + 1)] at hstep
  split at hstep
  · next hend =>
    cases hstep
    rw [exhausted_of_le first hmax]
    refine ⟨rfl, ?_⟩
    cases first with
    | true =>
      obtain ⟨hres, htok, hi, hl⟩ := h
      refine ⟨hres, fun t h1 h2 => ?_⟩
      obtain rfl : t = q.tokMin := by omega
      rcases hend with hend | hend
      · exact hl hend
      · rw [hi, htok] at hend
        omega
    | false => exact h
  · cases hstep
    refine ⟨rfl, met_advanced hmax (fun hf => ?_) fun hf => ?_⟩
    · subst hf
      obtain ⟨hres, htok, hi, -⟩ := h
      refine ⟨hres, by dsimp only; omega, fun t h1 h2 => ?_⟩
      dsimp only at h2
      omega
    · subst hf
      exact h

/-- What an insertion adds: the id met first, or one that has passed. -/
theorem met_visit (hst : q.Sensible st maxRid pass) {first : Bool} {it : Iter}
    (h : q.Proceeds st maxRid pass (.visit first it) res) {v : Nat} (hv : q.slot st it = .stored v) :
    (∀ v', q.IsFirst st v' → v' ∈ res ++ [v]) ∧ (pass v ∨ q.IsFirst st v) := by
  cases first with
  | true =>
    obtain ⟨-, hidx, hbefore⟩ := h.met
    have hr : q.InRange it := h.fits.1
    rw [slot, hidx] at hv
    have hfirst : q.IsFirst st v := ⟨it.tok, hr.tokMin_le, hr.le_tokMax, hv, hbefore⟩
    refine ⟨fun v' hv' => ?_, .inr hfirst⟩
    obtain rfl := hv'.unique hst hfirst
    exact List.mem_append_right _ List.mem_cons_self
  | false =>
    obtain ⟨-, v', hv', -, hpass⟩ := h.correct.stands
    rw [hv] at hv'
    cases hv'
    exact ⟨fun v' hv' => List.mem_append_left _ (h.met v' hv'), .inl hpass⟩

/-- Every read of a scan by itself keeps what is known of it. -/
theorem proceeds_step (hfin : q.Finite st) (hq : q.Settled st maxRid)
    (hst : q.Sensible st maxRid pass) {pc pc' : Pc} {out : List Nat}
    (h : q.Proceeds st maxRid pass pc res) (hstep : q.step st maxRid junk pc = some (pc', out)) :
    q.Proceeds st maxRid pass pc' (res ++ out) := by
  have hcorrect := correct_step hfin.range hst h.correct (hq.safe h.fits junk) hstep
  have hfits : q.Fits st pc' := by
    by_cases hpc : pc = .finished
    · subst hpc
      cases hstep
    · obtain ⟨pc'', out', hstep', hf, -⟩ := fits_step hfin maxRid junk h.fits hpc
      rw [hstep] at hstep'
      cases hstep'
      exact hf
  have quiet : out = [] ∧ q.Met st res pc' → q.Proceeds st maxRid pass pc' (res ++ out) := by
    rintro ⟨rfl, hmet⟩
    rw [List.append_nil] at hcorrect ⊢
    exact ⟨hcorrect, hfits, hmet, h.passed⟩
  cases pc with
  | construct =>
    simp only [step] at hstep
    split at hstep
    · cases hstep
      exact quiet ⟨rfl, h.met, rfl, rfl, fun hl => hq.null _ hl⟩
    · cases hstep
  | advance first it => exact quiet (met_of_advance h.fits h.met hstep)
  | next first tok => exact quiet (met_next hq hst h.fits h.met hstep)
  | check it =>
    have hr : q.InRange it := h.fits.1
    obtain ⟨v, -, heq⟩ := Option.map_eq_some_iff.mp hstep
    split at heq
    · cases heq
      exact quiet ⟨rfl, h.met⟩
    · cases hpf : q.pktFilter with
      | none =>
        rw [hpf] at heq
        cases heq
        rw [arrive_of_le false hr.le_tokMax] at quiet ⊢
        exact quiet ⟨rfl, h.met⟩
      | some f =>
        rw [hpf] at heq
        cases heq
        exact quiet ⟨rfl, h.met⟩
  | apply it =>
    have hr : q.InRange it := h.fits.1.1
    obtain ⟨f, -, hstep⟩ := Option.bind_eq_some_iff.mp hstep
    obtain ⟨v, -, hstep⟩ := Option.bind_eq_some_iff.mp hstep
    obtain ⟨ok, -, heq⟩ := Option.map_eq_some_iff.mp hstep
    cases ok with
    | true =>
      cases heq
      rw [if_pos rfl, arrive_of_le false hr.le_tokMax] at quiet ⊢
      exact quiet ⟨rfl, h.met⟩
    | false =>
      cases heq
      exact quiet ⟨rfl, h.met⟩
  | visit first it =>
    obtain ⟨v, hv, -⟩ := hq.stored it.tok it.idx.toNat
      (by have := h.fits.1.idx; have := h.fits.2; omega)
    have hget : q.get st junk it = some v := get_stored h.fits.1 hv
    simp only [step, hget, Option.map_some, Option.some.injEq, Prod.mk.injEq] at hstep
    obtain ⟨rfl, rfl⟩ := hstep
    obtain ⟨hmet, hpass⟩ := met_visit hst h hv
    refine ⟨hcorrect, hfits, hmet, fun v' hv' => ?_⟩
    rcases List.mem_append.mp hv' with hv' | hv'
    · exact h.passed v' hv'
    · obtain rfl := List.mem_singleton.mp hv'
      exact hpass
  | finished => cases hstep

theorem proceeds_drain (hfin : q.Finite st) (hq : q.Settled st maxRid)
    (hst : q.Sensible st maxRid pass) (n : Nat) : ∀ (junk : Nat → Nat) (pc : Pc) (res out : List Nat),
    q.Proceeds st maxRid pass pc res → q.drain st maxRid n junk pc res = some out →
    q.Proceeds st maxRid pass .finished out := by
  induction n with
  | zero =>
    intro junk pc res out h hd
    cases pc with
    | finished =>
      cases hd
      exact h
    | _ => cases hd
  | succ n ih =>
    intro junk pc res out h hd
    by_cases hpc : pc = .finished
    · subst hpc
      cases hd
      exact h
    · have hd' : ((q.step st maxRid (junk 0) pc).bind fun p =>
          q.drain st maxRid n (fun i => junk (i + 1)) p.1 (res ++ p.2)) = some out := by
        cases pc with
        | finished => exact absurd rfl hpc
        | _ => exact hd
      obtain ⟨p, hstep, hrest⟩ := Option.bind_eq_some_iff.mp hd'
      exact ih _ _ _ _ (proceeds_step hfin hq hst h hstep) hrest

/-- The result of a scan by itself. -/
theorem mem_drain_iff (hfin : q.Finite st) (hq : q.Settled st maxRid)
    (hst : q.Sensible st maxRid pass) {n : Nat} {junk : Nat → Nat} {out : List Nat}
    (h : q.drain st maxRid n junk .construct [] = some out) (v : Nat) :
    v ∈ out ↔ q.Listed st v ∧ (pass v ∨ q.IsFirst st v) := by
  have hstart : q.Proceeds st maxRid pass .construct [] :=
    ⟨correct_start st maxRid pass, trivial, rfl, fun v hv => by cases hv⟩
  have hend := proceeds_drain hfin hq hst n junk .construct [] out hstart h
  constructor
  · intro hv
    exact ⟨(hend.correct.sound v hv).2, hend.passed v hv⟩
  · rintro ⟨hl, hp | hf⟩
    · have hlt : v < maxRid := by
        obtain ⟨tok, j, -, -, hslot⟩ := hl
        have hj : j < (q.list st tok).tail := by
          by_contra hge
          rw [hst.free tok j (Nat.le_of_not_lt hge)] at hslot
          cases hslot
        obtain ⟨v', hv', hlt⟩ := hq.stored tok j hj
        rw [hslot] at hv'
        cases hv'
        exact hlt
      exact hend.correct.finished hlt hl hp
    · exact hend.met v hf

/-- More steps do not change the result. -/
theorem drain_mono {n m : Nat} (hnm : n ≤ m) : ∀ {junk : Nat → Nat} {pc : Pc} {res out : List Nat},
    q.drain st maxRid n junk pc res = some out → q.drain st maxRid m junk pc res = some out := by
  induction n generalizing m with
  | zero =>
    intro junk pc res out h
    cases pc with
    | finished => cases m <;> exact h
    | _ => cases h
  | succ n ih =>
    intro junk pc res out h
    obtain ⟨m, rfl⟩ : ∃ k, m = k + 1 := ⟨m - 1, by omega⟩
    cases pc with
    | finished => exact h
    | _ =>
      obtain ⟨p, hstep, hrest⟩ := Option.bind_eq_some_iff.mp h
      exact Option.bind_eq_some_iff.mpr ⟨p, hstep, ih (Nat.le_of_succ_le_succ hnm) hrest⟩

end Scan

end Netplay
