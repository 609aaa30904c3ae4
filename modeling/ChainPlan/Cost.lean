import ChainPlan.PlanError

/-! # Cost of a chain

Each element costs its weight times the part of the workload that still reaches it, and each
element that may stop messages takes a fixed part of the workload away. Strongly consistent state
without a replica on its side costs extra, and so does deploying anything on a side. The sum is
taken in chain order, so that it has one value in floating point too.
-/

namespace ChainPlan

namespace Chain

/-- The elements in front of the first network, all of them if there is none. -/
def clientSide (chain : Chain) : Chain := chain.takeWhile fun e ↦ !e.isNetwork

/-- The elements behind the first network. -/
def serverSide (chain : Chain) : Chain := (chain.dropWhile fun e ↦ !e.isNetwork).drop 1

/-- Whether a side holds strongly consistent state that has no replica there. -/
def lacksReplica (side : Chain) (here : Replica) : Bool :=
  side.any fun e ↦ e.isStrong && e.state.replica != here

end Chain

section

variable {K : Type} [Add K] [Sub K] [Mul K] [OfNat K 0] [OfNat K 1]

/-- A sum of costs, and the part of the workload that still flows. -/
structure Flow (K : Type) where
  total : K
  workload : K

namespace Flow

/-- The flow in front of a chain. -/
def full : Flow K := ⟨0, 1⟩

/-- The flow behind an element. -/
def pass (weights : Weights K) (t : Traffic) (flow : Flow K) (e : Element) : Flow K where
  total := flow.total + flow.workload * if e.isNetwork then weights.network else weights.element
  workload := if (e.on t).stops then flow.workload * (1 - weights.drop) else flow.workload

end Flow

namespace Chain

/-- The cost of running the elements of a chain. -/
def trafficCost (weights : Weights K) (t : Traffic) (chain : Chain) : K :=
  (chain.foldl (Flow.pass weights t) Flow.full).total

/-- A sum with the extra cost of strong state, client side first. -/
def addStrongCost (weights : Weights K) (chain : Chain) (total : K) : K :=
  let total := if chain.clientSide.lacksReplica .client then total + weights.strong else total
  if chain.serverSide.lacksReplica .server then total + weights.strong else total

/-- A sum with the cost of deployment, client side first. -/
def addDeployCost (weights : Weights K) (chain : Chain) (total : K) : K :=
  let total := if chain.clientSide.isEmpty then total else total + weights.deploy
  if chain.serverSide.isEmpty then total else total + weights.deploy

/-- The cost of a chain with a network. -/
def costOf (weights : Weights K) (t : Traffic) (chain : Chain) : K :=
  chain.addDeployCost weights (chain.addStrongCost weights (chain.trafficCost weights t))

/-- The cost of a chain, which needs a network to have sides. -/
def cost (weights : Weights K) (t : Traffic) (chain : Chain) : Except PlanError K :=
  if chain.any Element.isNetwork then .ok (chain.costOf weights t) else .error .missingNetwork

end Chain

end

end ChainPlan
