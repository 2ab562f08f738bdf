import Netplay.NetplayUtils

/-!
# The query planner

`query_planner` of `query_planner.h`. Each clause is scanned through the index
with the smallest estimated count, and the other filters of the clause become
its packet filter.
-/

namespace Netplay

open Text NetplayUtils

structure ClausePlan where
  idxFilter : IndexFilter
  pktFilter : PacketFilter
  performPktFilter : Bool
  deriving DecidableEq, Repr

/-- `query_plan`. -/
abbrev QueryPlan := List ClausePlan

namespace QueryPlanner

/-- `h->approx_pkt_count(index_id, tok_beg, tok_end)`, which can run out of its index. -/
abbrev Counts := Nat → Nat → Nat → Except Fault UInt64

def Counts.of (counts : Counts) (f : IndexFilter) : Except Fault UInt64 :=
  counts f.indexId f.tokRange.first f.tokRange.second

/-- The loop of `extract_min_filter`: the position of the first smallest count
below `minCount`, `i` being the position of the next filter. -/
def minPosition (counts : Counts) :
    List IndexFilter → Nat → UInt64 → Option Nat → Except Fault (Option Nat)
  | [], _, _, best => pure best
  | f :: fs, i, minCount, best => do
    let cnt ← Counts.of counts f
    if cnt < minCount then minPosition counts fs (i + 1) cnt (some i)
    else minPosition counts fs (i + 1) minCount best

/-- `extract_min_filter`: the filter and the clause without it. Without a count
below `UINT64_MAX` the iterator it dereferences is unset. -/
def extractMinFilter (counts : Counts) (clause : List IndexFilter) :
    Except Fault (IndexFilter × List IndexFilter) := do
  match ← minPosition counts clause 0 0xFFFFFFFFFFFFFFFF none with
  | some i => match clause[i]? with
    | some f => .ok (f, clause.eraseIdx i)
    | none => .error .undefined
  | none => .error .undefined

/-- `build_clause_plan`; `none` is a plan that is not `valid`. -/
def buildClausePlan (counts : Counts) (clause : List IndexFilter) :
    Except Fault (Option ClausePlan) :=
  match reduceClause clause with
  | none => pure none
  | some clause => do
    let (f, rest) ← extractMinFilter counts clause
    let pf ← buildPacketFilter rest
    pure (some ⟨f, pf, !rest.isEmpty⟩)

/-- `pkt_filter` of a plan that never sets it: pairs are created as `(0, 0)`. -/
def unsetFilter : PacketFilter := ⟨⟨0, 0⟩, ⟨0, 0⟩, ⟨0, 0⟩, ⟨0, 0⟩, ⟨0, 0⟩⟩

/-- The loop over the children of a disjunction in `plan`. -/
def planClauses (counts : Counts) (now : UInt32) : List Expression → Except Fault QueryPlan
  | [] => pure []
  | .conjunction cs :: ds => do
    let clause ← buildClause now cs
    let cplan ← buildClausePlan counts clause
    let plan ← planClauses counts now ds
    pure (cplan.toList ++ plan)
  | _ :: _ => throwParse notInDNF

/-- `query_planner::plan` at the second `now`. -/
def plan (counts : Counts) (e : Expression) (now : UInt32) : Except Fault QueryPlan :=
  match e with
  | .predicate p => do
    let f ← buildIndexFilter p now
    pure [⟨f, unsetFilter, false⟩]
  | .conjunction cs => do
    let clause ← buildClause now cs
    let cplan ← buildClausePlan counts clause
    pure cplan.toList
  | .disjunction ds => planClauses counts now ds
  | .negation _ => pure []

end QueryPlanner

end Netplay
