import ChainPlan.Cost
import ChainPlan.Equivalence.Indexed
import ChainPlan.Orders

/-! # Search of all orders

Every order of a chain is compared with it and, if it may stand for it, costed. A candidate takes
the lead only if it is strictly cheaper than all before it and than the chain itself, so the chain
wins ties, and then the first order in lexicographic order.
-/

namespace ChainPlan

/-- What a search of all orders has done. -/
structure SearchStats (K : Type) where
  /-- The orders looked at. -/
  permutations : Nat
  /-- The orders that may stand for the chain. -/
  equivalent : Nat
  /-- The cost of the chain that is searched. -/
  startCost : K
  /-- The cost of the cheapest chain found. -/
  bestCost : K
  deriving Repr

/-- The state of the search: what has been counted, and the cheapest chain so far with its cost. -/
structure Lead (K : Type) where
  permutations : Nat
  equivalent : Nat
  chain : Chain
  cost : K

section

variable {K : Type} [Add K] [Sub K] [Mul K] [OfNat K 0] [OfNat K 1]

/-- The numbers before the search. -/
def SearchStats.zero : SearchStats K := ⟨0, 0, 0, 0⟩

variable [LT K] [DecidableLT K]

/-- The state of the search after one more order. -/
def Lead.consider (accepts : Chain → Except PlanError Bool) (weights : Weights K) (t : Traffic)
    (lead : Lead K) (candidate : Chain) : Except PlanError (Lead K) := do
  let lead := { lead with permutations := lead.permutations + 1 }
  if ← accepts candidate then
    let lead := { lead with equivalent := lead.equivalent + 1 }
    let price ← candidate.cost weights t
    return if price < lead.cost then { lead with chain := candidate, cost := price } else lead
  else
    return lead

namespace Chain

/-- The search of all orders of a chain of a limited length, with what it has done. -/
def cheapestCounted (weights : Weights K) (t : Traffic) (level : Level) (limit : Nat)
    (chain : Chain) : SearchStats K × Except PlanError Chain :=
  if limit < chain.length then (.zero, .error (.chainTooLong chain.length limit))
  else
    match chain.cost weights t with
    | .error error => (.zero, .error error)
    | .ok start =>
      let stats : SearchStats K := { SearchStats.zero with startCost := start }
      let traced := chain.withTraces t
      let search := do
        let accepts ← Criterion.indexed t level traced
        foldOrders (Lead.consider accepts weights t) traced ⟨0, 0, traced, start⟩
      match search with
      | .error error => (stats, .error error)
      | .ok lead => (⟨lead.permutations, lead.equivalent, start, lead.cost⟩, .ok lead.chain)

/-- The cheapest order of a chain that may stand for it. -/
def cheapest (weights : Weights K) (t : Traffic) (level : Level) (limit : Nat) (chain : Chain) :
    Except PlanError Chain :=
  (chain.cheapestCounted weights t level limit).2

end Chain

end

end ChainPlan
