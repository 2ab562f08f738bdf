import Netplay.PlanIndexes

/-!
# The meaning of a planned clause

A clause accepts the tokens that lie in the range of each of its filters. The
reduction keeps what it accepts and leaves one filter for each index, so that
neither the choice of the driving filter nor the packet filter loses a range.
-/

namespace Netplay.QueryPlanner

open Text NetplayUtils

/-- A token for every attribute. -/
abbrev Tokens := Attribute → UInt64

namespace Tokens

/-- The token of the filter's attribute lies in its range. -/
def Meets (τ : Tokens) (f : IndexFilter) : Prop :=
  ∃ a : Attribute, f.indexId = a.index ∧ f.tokRange.Contains (τ a).toNat

theorem meets_index (τ : Tokens) (a : Attribute) (r : TokRange) :
    τ.Meets ⟨a.index, r⟩ ↔ r.Contains (τ a).toNat := by
  constructor
  · rintro ⟨b, hb, hr⟩
    obtain rfl := Attribute.index_injective hb
    exact hr
  · exact fun h => ⟨a, rfl, h⟩

theorem meets_of_eq {τ : Tokens} {f : IndexFilter} {a : Attribute} (ha : f.indexId = a.index) :
    τ.Meets f ↔ f.tokRange.Contains (τ a).toNat := by
  obtain ⟨id, r⟩ := f
  obtain rfl : id = a.index := ha
  exact meets_index τ a r

end Tokens

/-! ## The reduction -/

/-- The intersection of two ranges. -/
theorem contains_meet {r s : TokRange} {tok : Nat} :
    TokRange.Contains ⟨max r.first s.first, min r.second s.second⟩ tok ↔
      r.Contains tok ∧ s.Contains tok := by
  simp only [TokRange.Contains]
  omega

theorem mergeRange_rest (id : Nat) (r : TokRange) (fs : List IndexFilter) :
    (mergeRange id r fs).2 = fs.filter (fun f => id ≠ f.indexId) := by
  induction fs generalizing r with
  | nil => rfl
  | cons f fs ih =>
    rw [mergeRange]
    by_cases h : id = f.indexId
    · rw [if_pos h, ih, List.filter_cons_of_neg (by simpa using h)]
    · rw [if_neg h, List.filter_cons_of_pos (by simpa using h)]
      exact congrArg (f :: ·) (ih r)

/-- The merged range is the intersection of the ranges on the index. -/
theorem mergeRange_contains (id : Nat) (r : TokRange) (fs : List IndexFilter) (tok : Nat) :
    (mergeRange id r fs).1.Contains tok ↔
      r.Contains tok ∧ ∀ f ∈ fs, f.indexId = id → f.tokRange.Contains tok := by
  induction fs generalizing r with
  | nil => simp [mergeRange]
  | cons f fs ih =>
    rw [mergeRange]
    by_cases h : id = f.indexId
    · rw [if_pos h, ih, contains_meet]
      simp [h, and_assoc]
    · rw [if_neg h]
      simp [ih, Ne.symm h]

/-- The merged range begins where one of the ranges does. -/
theorem mergeRange_first (id : Nat) (r : TokRange) (fs : List IndexFilter) {n : Nat}
    (hr : r.first < n) (hfs : ∀ f ∈ fs, f.tokRange.first < n) :
    (mergeRange id r fs).1.first < n := by
  induction fs generalizing r with
  | nil => exact hr
  | cons f fs ih =>
    have hrest : ∀ g ∈ fs, g.tokRange.first < n := fun g hg => hfs g (List.mem_cons_of_mem _ hg)
    rw [mergeRange]
    split
    · exact ih _ (Nat.max_lt.mpr ⟨hr, hfs f List.mem_cons_self⟩) hrest
    · exact ih r hr hrest

/-- What merging the filters on the first index does to the meaning. -/
theorem meets_merge {f : IndexFilter} {fs : List IndexFilter} {τ : Tokens}
    (hk : Known (f :: fs)) :
    (∀ g ∈ f :: fs, τ.Meets g) ↔
      τ.Meets ⟨f.indexId, (mergeRange f.indexId f.tokRange fs).1⟩ ∧
        ∀ g ∈ (mergeRange f.indexId f.tokRange fs).2, τ.Meets g := by
  obtain ⟨a, ha⟩ := hk f List.mem_cons_self
  have hid : ∀ r : TokRange, τ.Meets ⟨f.indexId, r⟩ ↔ r.Contains (τ a).toNat := by
    intro r
    rw [ha]
    exact Tokens.meets_index τ a r
  rw [hid, mergeRange_contains, mergeRange_rest]
  constructor
  · intro h
    refine ⟨⟨(hid _).mp (h f List.mem_cons_self), fun g hg hgid => ?_⟩, fun g hg => ?_⟩
    · exact (Tokens.meets_of_eq (hgid.trans ha)).mp (h g (List.mem_cons_of_mem _ hg))
    · exact h g (List.mem_cons_of_mem _ (List.mem_of_mem_filter hg))
  · rintro ⟨⟨hf, hsame⟩, hother⟩ g hg
    rcases List.mem_cons.mp hg with rfl | hg
    · exact (hid _).mpr hf
    · by_cases hgid : g.indexId = f.indexId
      · exact (Tokens.meets_of_eq (hgid.trans ha)).mpr (hsame g hg hgid)
      · exact hother g (List.mem_filter.mpr ⟨hg, by simp [Ne.symm hgid]⟩)

theorem known_merge {f : IndexFilter} {fs : List IndexFilter} (hk : Known (f :: fs)) :
    Known (mergeRange f.indexId f.tokRange fs).2 := fun g hg =>
  hk g (List.mem_cons_of_mem _ (mergeRange_subset _ _ _ g hg))

/-- `reduce_clause` keeps what the clause accepts. -/
theorem reduceClause_meets {fs gs : List IndexFilter} (hk : Known fs)
    (h : reduceClause fs = some gs) (τ : Tokens) :
    (∀ f ∈ fs, τ.Meets f) ↔ ∀ g ∈ gs, τ.Meets g := by
  fun_induction reduceClause fs generalizing gs with
  | case1 =>
    cases h
    rfl
  | case2 f fs merged hle =>
    rename_i ih
    obtain ⟨hs, hhs, rfl⟩ := Option.map_eq_some_iff.mp h
    rw [meets_merge hk, ih (known_merge hk) hhs, List.forall_mem_cons]
  | case3 => cases h

/-- A reduced clause has one filter for each index. -/
theorem reduceClause_nodup {fs gs : List IndexFilter} (h : reduceClause fs = some gs) :
    (gs.map (·.indexId)).Nodup ∧ ∀ g ∈ gs, ∃ f ∈ fs, g.indexId = f.indexId := by
  fun_induction reduceClause fs generalizing gs with
  | case1 =>
    cases h
    simp
  | case2 f fs merged hle =>
    rename_i ih
    obtain ⟨hs, hhs, rfl⟩ := Option.map_eq_some_iff.mp h
    obtain ⟨hnd, hids⟩ := ih hhs
    have hrest : ∀ g ∈ hs, ∃ e ∈ fs, g.indexId = e.indexId ∧ f.indexId ≠ e.indexId := by
      intro g hg
      obtain ⟨e, he, hge⟩ := hids g hg
      rw [mergeRange_rest] at he
      obtain ⟨he, hne⟩ := List.mem_filter.mp he
      exact ⟨e, he, hge, of_decide_eq_true hne⟩
    refine ⟨List.nodup_cons.mpr ⟨fun hmem => ?_, hnd⟩, fun g hg => ?_⟩
    · obtain ⟨g, hg, hgf⟩ := List.mem_map.mp hmem
      obtain ⟨e, -, hge, hne⟩ := hrest g hg
      exact hne (hgf.symm.trans hge)
    · rcases List.mem_cons.mp hg with rfl | hg
      · exact ⟨f, List.mem_cons_self, rfl⟩
      · obtain ⟨e, he, hge, -⟩ := hrest g hg
        exact ⟨e, List.mem_cons_of_mem _ he, hge⟩
  | case3 => cases h

/-- Every range of a reduced clause has a first token. -/
theorem reduceClause_first {fs gs : List IndexFilter} {n : Nat}
    (hn : ∀ f ∈ fs, f.tokRange.first < n) (h : reduceClause fs = some gs) :
    ∀ g ∈ gs, g.tokRange.first < n ∧ g.tokRange.first ≤ g.tokRange.second := by
  fun_induction reduceClause fs generalizing gs with
  | case1 =>
    cases h
    simp
  | case2 f fs merged hle =>
    rename_i ih
    obtain ⟨hs, hhs, rfl⟩ := Option.map_eq_some_iff.mp h
    have hrest : ∀ g ∈ fs, g.tokRange.first < n := fun g hg => hn g (List.mem_cons_of_mem _ hg)
    intro g hg
    rcases List.mem_cons.mp hg with rfl | hg
    · exact ⟨mergeRange_first _ _ _ (hn f List.mem_cons_self) hrest, hle⟩
    · exact ih (fun e he => hrest e (mergeRange_subset _ _ _ e he)) hhs g hg
  | case3 => cases h

/-- The clause that `reduce_clause` refuses accepts nothing. -/
theorem reduceClause_none {fs : List IndexFilter} (hk : Known fs) (h : reduceClause fs = none)
    (τ : Tokens) : ¬ ∀ f ∈ fs, τ.Meets f := by
  fun_induction reduceClause fs with
  | case1 => cases h
  | case2 f fs merged hle =>
    rename_i ih
    rw [meets_merge hk]
    exact fun hm => ih (known_merge hk) (Option.map_eq_none_iff.mp h) hm.2
  | case3 f fs merged hle =>
    rw [meets_merge hk]
    rintro ⟨⟨a, -, hr⟩, -⟩
    exact hle (Nat.le_trans hr.1 hr.2)

/-- The first token of the range that the clause gives for each attribute. -/
def firstTokens (clause : List IndexFilter) : Tokens :=
  fun a => UInt64.ofNat (((latest a clause).map (·.first)).getD 0)

theorem firstTokens_meets {clause : List IndexFilter} (hk : Known clause)
    (hnd : (clause.map (·.indexId)).Nodup)
    (hr : ∀ f ∈ clause, f.tokRange.first < 2 ^ 64 ∧ f.tokRange.first ≤ f.tokRange.second) :
    ∀ f ∈ clause, (firstTokens clause).Meets f := by
  intro f hf
  obtain ⟨a, ha⟩ := hk f hf
  obtain ⟨hlt, hle⟩ := hr f hf
  have htok : (firstTokens clause a).toNat = f.tokRange.first := by
    simp only [firstTokens, FilterMeaning.latest_of_nodup hnd hf ha, Option.map_some,
      Option.getD_some]
    exact UInt64.toNat_ofNat_of_lt' hlt
  rw [Tokens.meets_of_eq ha, htok]
  exact ⟨Nat.le_refl _, hle⟩

/-- `reduce_clause` refuses exactly the clauses that accept nothing. -/
theorem reduceClause_eq_none {fs : List IndexFilter} (hk : Known fs)
    (hfirst : ∀ f ∈ fs, f.tokRange.first < 2 ^ 64) :
    reduceClause fs = none ↔ ¬ ∃ τ : Tokens, ∀ f ∈ fs, τ.Meets f := by
  constructor
  · rintro h ⟨τ, hτ⟩
    exact reduceClause_none hk h τ hτ
  · intro h
    cases hred : reduceClause fs with
    | none => rfl
    | some gs =>
      refine absurd ⟨firstTokens gs, (reduceClause_meets hk hred _).mpr ?_⟩ h
      exact firstTokens_meets (reduceClause_known hk hred) (reduceClause_nodup hred).1
        (reduceClause_first hfirst hred)

theorem reduceClause_ne_nil {fs gs : List IndexFilter} (hne : fs ≠ [])
    (h : reduceClause fs = some gs) : gs ≠ [] := by
  rintro rfl
  cases fs with
  | nil => exact hne rfl
  | cons f fs =>
    rw [reduceClause] at h
    split at h <;> simp at h

/-! ## The driving filter -/

theorem minPosition_lt {counts : Counts} {fs : List IndexFilter} {i j : Nat} {m : UInt64}
    {best : Option Nat} (hbest : ∀ b, best = some b → b < i)
    (h : minPosition counts fs i m best = .ok (some j)) : j < i + fs.length := by
  induction fs generalizing i m best with
  | nil =>
    cases h
    exact hbest j rfl
  | cons f fs ih =>
    obtain ⟨cnt, -, hrest⟩ := bind_eq_ok.mp h
    rw [List.length_cons]
    split at hrest
    · have := ih (by simp) hrest
      omega
    · have := ih (fun b hb => Nat.lt_succ_of_lt (hbest b hb)) hrest
      omega

theorem minPosition_some {counts : Counts} {fs : List IndexFilter}
    (hc : ∀ f ∈ fs, ∃ n, Counts.of counts f = .ok n) (i b : Nat) (m : UInt64) :
    ∃ j, minPosition counts fs i m (some b) = .ok (some j) := by
  induction fs generalizing i b m with
  | nil => exact ⟨b, rfl⟩
  | cons f fs ih =>
    obtain ⟨⟨cnt, hcnt⟩, hc⟩ := List.forall_mem_cons.mp hc
    rw [minPosition, hcnt]
    by_cases hlt : cnt < m
    · obtain ⟨j, hj⟩ := ih hc (i + 1) i cnt
      exact ⟨j, (if_pos hlt).trans hj⟩
    · obtain ⟨j, hj⟩ := ih hc (i + 1) b m
      exact ⟨j, (if_neg hlt).trans hj⟩

/-- With every count below the initial minimum one filter is taken out. -/
theorem extractMinFilter_perm {counts : Counts} {clause : List IndexFilter}
    (hc : ∀ f ∈ clause, ∃ n, Counts.of counts f = .ok n ∧ n < 0xFFFFFFFFFFFFFFFF)
    (hne : clause ≠ []) :
    ∃ f rest, extractMinFilter counts clause = .ok (f, rest) ∧ (f :: rest).Perm clause := by
  obtain ⟨i, hi⟩ : ∃ i, minPosition counts clause 0 0xFFFFFFFFFFFFFFFF none = .ok (some i) := by
    cases clause with
    | nil => exact absurd rfl hne
    | cons f fs =>
      obtain ⟨⟨cnt, hcnt, hlt⟩, hrest⟩ := List.forall_mem_cons.mp hc
      obtain ⟨i, hi⟩ := @minPosition_some counts fs
        (fun f hf => (hrest f hf).imp fun n hn => hn.1) 1 0 cnt
      refine ⟨i, ?_⟩
      rw [minPosition, hcnt]
      exact (if_pos hlt).trans hi
  have hlt : i < clause.length := by simpa using minPosition_lt (by simp) hi
  refine ⟨clause[i], clause.eraseIdx i, ?_, List.getElem_cons_eraseIdx_perm hlt⟩
  have hget : clause[i]? = some clause[i] := List.getElem?_eq_getElem hlt
  simp only [extractMinFilter, hi, hget, bind, Except.bind]

/-! ## The plan -/

/-- The filters that are left become the packet filter, range by range. -/
theorem buildPacketFilter_meets {rest : List IndexFilter} (hk : Known rest)
    (hnd : (rest.map (·.indexId)).Nodup) :
    ∃ pf, buildPacketFilter rest = .ok pf ∧ ∀ τ : Tokens,
      (∀ f ∈ rest, τ.Meets f) ↔ ∀ a, (pf.range a).Contains (τ a).toNat := by
  obtain ⟨pf, hpf⟩ := exists_packetFilter hk
  refine ⟨pf, hpf, fun τ => ?_⟩
  have hr := (buildPacketFilter_eq_ok.mp hpf).2
  constructor
  · intro h a
    rw [hr a]
    cases hl : latest a rest with
    | none => exact TokRange.contains_all (τ a).toNat_lt
    | some r => exact (Tokens.meets_index τ a r).mp (h _ (latest_mem hl))
  · intro h f hf
    obtain ⟨a, ha⟩ := hk f hf
    have := h a
    rw [hr a, FilterMeaning.latest_of_nodup hnd hf ha] at this
    exact (Tokens.meets_of_eq ha).mpr this

/-- `build_clause_plan` refuses exactly the clauses that accept nothing, and the
index filter and the packet filter of a plan accept what the clause does. -/
theorem buildClausePlan_meaning {counts : Counts} {clause : List IndexFilter}
    (hc : ∀ gs, reduceClause clause = some gs →
      ∀ f ∈ gs, ∃ n, Counts.of counts f = .ok n ∧ n < 0xFFFFFFFFFFFFFFFF)
    (hne : clause ≠ []) (hk : Known clause)
    (hw : ∀ f ∈ clause, f.tokRange.first < 2 ^ 64 ∧ f.tokRange.second < 2 ^ 64) :
    ∃ cplan, buildClausePlan counts clause = .ok cplan ∧
      (cplan = none ↔ ¬ ∃ τ : Tokens, ∀ f ∈ clause, τ.Meets f) ∧
      ∀ c, cplan = some c → ∀ τ : Tokens,
        (∀ f ∈ clause, τ.Meets f) ↔
          τ.Meets c.idxFilter ∧ ∀ a, (c.pktFilter.range a).Contains (τ a).toNat := by
  have hrefused := reduceClause_eq_none hk fun f hf => (hw f hf).1
  cases hred : reduceClause clause with
  | none =>
    refine ⟨none, by simp [buildClausePlan, hred, pure, Except.pure], ?_, by simp⟩
    exact iff_of_true rfl (hrefused.mp hred)
  | some gs =>
    have hgk : Known gs := reduceClause_known hk hred
    obtain ⟨hnd, -⟩ := reduceClause_nodup hred
    obtain ⟨f, rest, hmin, hperm⟩ :=
      extractMinFilter_perm (hc gs hred) (reduceClause_ne_nil hne hred)
    have hndf : ((f :: rest).map (·.indexId)).Nodup := (hperm.map _).nodup_iff.mpr hnd
    have hrk : Known rest := fun g hg => hgk g (hperm.subset (List.mem_cons_of_mem _ hg))
    obtain ⟨pf, hpf, hmeets⟩ := buildPacketFilter_meets hrk (List.nodup_cons.mp hndf).2
    refine ⟨some ⟨f, pf, !rest.isEmpty⟩, ?_, ?_, ?_⟩
    · simp [buildClausePlan, hred, hmin, hpf, bind, Except.bind, pure, Except.pure]
    · rw [← hrefused, hred]
      simp
    · rintro c ⟨⟩ τ
      rw [reduceClause_meets hk hred τ, ← hmeets τ, ← List.forall_mem_cons]
      exact ⟨fun h g hg => h g (hperm.subset hg), fun h g hg => h g (hperm.symm.subset hg)⟩

theorem buildClausePlan_meaning_ports :
    ∃ cplan, buildClausePlan (fun _ first second => .ok (if first = second then 1 else 2))
        [⟨srcportIdx, ⟨80, 90⟩⟩, ⟨srcipIdx, ⟨5, 5⟩⟩, ⟨srcportIdx, ⟨85, 100⟩⟩] = .ok cplan ∧
      (cplan = none ↔ ¬ ∃ τ : Tokens, ∀ f ∈
        [⟨srcportIdx, ⟨80, 90⟩⟩, ⟨srcipIdx, ⟨5, 5⟩⟩, ⟨srcportIdx, ⟨85, 100⟩⟩], τ.Meets f) ∧
      ∀ c, cplan = some c → ∀ τ : Tokens,
        (∀ f ∈ [⟨srcportIdx, ⟨80, 90⟩⟩, ⟨srcipIdx, ⟨5, 5⟩⟩, ⟨srcportIdx, ⟨85, 100⟩⟩], τ.Meets f) ↔
          τ.Meets c.idxFilter ∧ ∀ a, (c.pktFilter.range a).Contains (τ a).toNat := by
  refine buildClausePlan_meaning (fun _ _ _ _ => ⟨_, rfl, ?_⟩) (by simp) (fun f hf => ?_) (by simp)
  · split <;> decide
  · simp only [List.mem_cons, List.not_mem_nil, or_false] at hf
    rcases hf with rfl | rfl | rfl
    · exact ⟨.srcPort, rfl⟩
    · exact ⟨.srcIp, rfl⟩
    · exact ⟨.srcPort, rfl⟩

end Netplay.QueryPlanner
