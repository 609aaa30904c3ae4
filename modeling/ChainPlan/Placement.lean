import ChainPlan.PlanError

/-! # Placement

Elements that may run anywhere are placed by moving the marker of the network; the other elements
keep their order. They join the server if only the server side is pinned, or if strongly
consistent state pulls them there, and the client otherwise.
-/

namespace ChainPlan

namespace Chain

/-- The position of the marker of the network, if there is exactly one. -/
def networkIndex (chain : Chain) : Except PlanError Nat :=
  match (chain.filter Element.isNetwork).length with
  | 0 => .error .missingNetwork
  | 1 => .ok (chain.findIdx Element.isNetwork)
  | count => .error (.multipleNetwork count)

/-- Whether an element of the chain is pinned to a site. -/
def hasSite (chain : Chain) (s : Site) : Bool := chain.any fun e ↦ e.site = s

/-- Whether an element of a site needs strongly consistent state. -/
def hasStrong (chain : Chain) (s : Site) : Bool := chain.any fun e ↦ e.site = s && e.isStrong

end Chain

/-- Where the marker of the network goes. -/
inductive Placement where
  /-- To the end: nothing is pinned to the server. -/
  | allClient
  /-- To the front: nothing is pinned to the client. -/
  | allServer
  /-- Right behind the last client element. -/
  | server
  /-- Right in front of the first server element. -/
  | client
  deriving DecidableEq, Repr

namespace Placement

/-- The placement for a chain without its marker. -/
def ofChain (chain : Chain) : Placement :=
  if !chain.hasSite .server then .allClient
  else if !chain.hasSite .client then .allServer
  else if chain.hasStrong .server && !chain.hasStrong .client && chain.hasStrong .dontCare then
    .server
  else .client

/-- The number of elements that a placement leaves on the client side. -/
def clientLength (p : Placement) (chain : Chain) : Nat :=
  match p with
  | .allClient => chain.length
  | .allServer => 0
  | .server => chain.length - (chain.reverse.takeWhile fun e ↦ e.site ≠ .client).length
  | .client => (chain.takeWhile fun e ↦ e.site ≠ .server).length

end Placement

/-- The chain with its marker where the placement wants it. -/
def Chain.gather (chain : Chain) : Except PlanError Chain :=
  match chain.filter Element.isNetwork with
  | [] => .error .missingNetwork
  | [marker] =>
    let rest := chain.filter fun e ↦ !e.isNetwork
    let index := (Placement.ofChain rest).clientLength rest
    let placed := rest.take index ++ marker :: rest.drop index
    if Chain.isPlaced placed then .ok placed else .error (.invalidPlacement placed)
  | markers => .error (.multipleNetwork markers.length)

end ChainPlan
