import ChainPlan.Exhaustive
import ChainPlan.Placement
import ChainPlan.Reorder

/-! # Plans

A plan deploys at most one element on each side of the network. It is made from a chain by cutting
it at its first network and fusing each side in order. Planning a chain is: bring it into the order
that the strategy finds, and make the plan of the result.
-/

namespace ChainPlan

/-- At most one element for each side of the network. -/
structure Plan where
  client : Option Element
  server : Option Element
  deriving DecidableEq, Repr

/-- The element that does what the elements of a side do one after the other. -/
def Chain.consolidate : Chain → Option Element
  | [] => none
  | e :: rest => some (rest.foldl Element.fuse e)

namespace Plan

/-- The plan of a chain. -/
def ofChain (chain : Chain) : Plan where
  client := chain.clientSide.consolidate
  server := chain.serverSide.consolidate

/-- The client side as a chain of at most one element. -/
def clientChain (p : Plan) : Chain := p.client.toList

/-- The server side as a chain of at most one element. -/
def serverChain (p : Plan) : Chain := p.server.toList

/-- Whether there is nothing to deploy. -/
def isEmpty (p : Plan) : Bool := p.client.isNone && p.server.isNone

end Plan

section

variable {K : Type} [Add K] [Sub K] [Mul K] [OfNat K 0] [OfNat K 1] [LT K] [DecidableLT K]

/-- The plan of the cheapest order of a chain. -/
def Chain.cheapestPlan (weights : Weights K) (t : Traffic) (level : Level) (limit : Nat)
    (chain : Chain) : Except PlanError Plan := do
  let best ← chain.cheapest weights t level limit
  return Plan.ofChain best

/-- The plan of a chain under given options. -/
def Chain.plan (options : PlanOptions K) (t : Traffic) (chain : Chain) : Except PlanError Plan :=
  match options.strategy with
  | .heuristic => do
    let ordered ← chain.reorder t options.level options.maxMoves
    let placed ← ordered.gather
    return Plan.ofChain placed
  | .exhaustive =>
    chain.cheapestPlan options.weights t options.level options.maxExhaustiveLength

end

end ChainPlan
