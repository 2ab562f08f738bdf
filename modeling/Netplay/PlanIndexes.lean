import Mathlib.Data.List.Perm.Basic
import Netplay.FilterMeaning
import Netplay.QueryPlanner

/-!
# The indexes of a plan

Filters made from predicates are on indexes of the store, and so are those that
the reduction of a clause and the choice of the driving filter leave.
-/

namespace Netplay.QueryPlanner

open Text NetplayUtils

/-- Every filter is on an index of the store. -/
def Known (fs : List IndexFilter) : Prop := ∀ f ∈ fs, ∃ a : Attribute, f.indexId = a.index

theorem builds_known {now : UInt32} {ps : List Predicate} {fs : List IndexFilter}
    (h : FilterMeaning.Builds now ps fs) : Known fs := by
  induction h with
  | nil => exact fun f hf => by cases hf
  | cons hpf _ ih =>
    intro f hf
    rcases List.mem_cons.mp hf with rfl | hf
    · obtain ⟨a, -, ha⟩ := FilterMeaning.buildIndexFilter_index hpf
      exact ⟨a, ha⟩
    · exact ih f hf

theorem mergeRange_subset (id : Nat) (r : TokRange) (fs : List IndexFilter) :
    ∀ f ∈ (mergeRange id r fs).2, f ∈ fs := by
  induction fs generalizing r with
  | nil => exact fun f hf => hf
  | cons g gs ih =>
    intro f hf
    rw [mergeRange] at hf
    split at hf
    · exact List.mem_cons_of_mem _ (ih _ f hf)
    · rcases List.mem_cons.mp hf with rfl | hf
      · exact List.mem_cons_self
      · exact List.mem_cons_of_mem _ (ih r f hf)

theorem reduceClause_known {fs gs : List IndexFilter} (h : Known fs)
    (hr : reduceClause fs = some gs) : Known gs := by
  fun_induction reduceClause fs generalizing gs with
  | case1 =>
    cases hr
    exact h
  | case2 f fs merged hle =>
    rename_i ih
    obtain ⟨hs, hhs, rfl⟩ := Option.map_eq_some_iff.mp hr
    have hrest : Known merged.2 := fun g hg =>
      h g (List.mem_cons_of_mem _ (mergeRange_subset _ _ _ g hg))
    intro g hg
    rcases List.mem_cons.mp hg with rfl | hg
    · exact h f List.mem_cons_self
    · exact ih hrest hhs g hg
  | case3 => cases hr

/-- What `extract_min_filter` returns is a filter of the clause and the others. -/
theorem extractMinFilter_picks {counts : Counts} {clause rest : List IndexFilter} {f : IndexFilter}
    (h : extractMinFilter counts clause = .ok (f, rest)) : (f :: rest).Perm clause := by
  obtain ⟨best, -, hbest⟩ := bind_eq_ok.mp h
  split at hbest
  · split at hbest
    · next hget =>
      obtain ⟨hlt, rfl⟩ := List.getElem?_eq_some_iff.mp hget
      cases hbest
      exact List.getElem_cons_eraseIdx_perm hlt
    · cases hbest
  · cases hbest

theorem buildClausePlan_known {counts : Counts} {clause : List IndexFilter} {c : ClausePlan}
    (hk : Known clause) (h : buildClausePlan counts clause = .ok (some c)) :
    ∃ a : Attribute, c.idxFilter.indexId = a.index := by
  rw [buildClausePlan] at h
  split at h
  · cases h
  · next clause' hred =>
    obtain ⟨⟨f, rest⟩, hmin, h1⟩ := bind_eq_ok.mp h
    obtain ⟨pf, -, h2⟩ := bind_eq_ok.mp h1
    cases h2
    exact reduceClause_known hk hred f ((extractMinFilter_picks hmin).subset List.mem_cons_self)

theorem planClauses_known {counts : Counts} {now : UInt32} {ds : List Expression} {q : QueryPlan}
    (h : planClauses counts now ds = .ok q) :
    ∀ c ∈ q, ∃ a : Attribute, c.idxFilter.indexId = a.index := by
  induction ds generalizing q with
  | nil =>
    cases h
    exact fun c hc => by cases hc
  | cons d ds ih =>
    cases d with
    | conjunction cs =>
      obtain ⟨clause, hclause, h1⟩ := bind_eq_ok.mp h
      obtain ⟨cplan, hcplan, h2⟩ := bind_eq_ok.mp h1
      obtain ⟨rest, hrest, h3⟩ := bind_eq_ok.mp h2
      cases h3
      intro c hc
      rcases List.mem_append.mp hc with hc | hc
      · obtain rfl := Option.mem_toList.mp hc
        exact buildClausePlan_known (builds_known (FilterMeaning.buildClause_builds hclause)) hcplan
      · exact ih hrest c hc
    | _ => simp [planClauses] at h

/-- Every clause of a plan scans an index of the store. -/
theorem plan_known {counts : Counts} {e : Expression} {now : UInt32} {q : QueryPlan}
    (h : plan counts e now = .ok q) :
    ∀ c ∈ q, ∃ a : Attribute, c.idxFilter.indexId = a.index := by
  cases e with
  | predicate p =>
    obtain ⟨f, hf, h1⟩ := bind_eq_ok.mp h
    cases h1
    intro c hc
    obtain rfl := List.mem_singleton.mp hc
    obtain ⟨a, -, ha⟩ := FilterMeaning.buildIndexFilter_index hf
    exact ⟨a, ha⟩
  | conjunction cs =>
    obtain ⟨clause, hclause, h1⟩ := bind_eq_ok.mp h
    obtain ⟨cplan, hcplan, h2⟩ := bind_eq_ok.mp h1
    cases h2
    intro c hc
    obtain rfl := Option.mem_toList.mp hc
    exact buildClausePlan_known (builds_known (FilterMeaning.buildClause_builds hclause)) hcplan
  | disjunction ds => exact planClauses_known h
  | negation e =>
    cases h
    exact fun c hc => by cases hc

end Netplay.QueryPlanner
