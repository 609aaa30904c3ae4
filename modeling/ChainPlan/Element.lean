import ChainPlan.Effects

/-! # Elements and chains

An element is one configured stage of a chain, or the marker of the network between the two sides.
A chain is a list of elements in the order in which a message meets them.
-/

namespace ChainPlan

/-- One stage of a chain. -/
structure Element where
  /-- The names of the library elements it is made of, more than one after fusion. -/
  names : List String
  /-- The element whose writes this one takes back. -/
  partner : Option String
  site : Site
  state : ElementState
  effects : Effects
  deriving DecidableEq, Repr

/-- Elements in the order in which a message meets them. -/
abbrev Chain := List Element

namespace Element

/-- The element of a name that may run anywhere and does nothing. -/
def ofName (name : String) : Element := ⟨[name], none, .dontCare, .stateless, .none⟩

/-- The marker of the network. -/
def networkMarker : Element := { ofName "network" with site := .network }

/-- The element of a name with a known profile. -/
def ofProfile (name : String) (profile : Profile) : Element :=
  { ofName name with state := profile.state, effects := profile.effects }

/-- The identity of the element in lineage tables: its names joined by plus signs. -/
def identity (e : Element) : String := "+".intercalate e.names

/-- Whether the element is the marker of the network. -/
def isNetwork (e : Element) : Bool := e.site = .network

/-- Whether the element needs strongly consistent state. -/
def isStrong (e : Element) : Bool := e.state.isStrong

/-- The effects of the element on one kind of traffic. -/
def on (e : Element) (t : Traffic) : PathEffects := e.effects.on t

/-- The element with the trace fields of its effects on one kind of traffic. -/
def withTraces (t : Traffic) (e : Element) : Element :=
  { e with effects := e.effects.mapOn t PathEffects.withTraces }

/-- The element that does what two elements do that run one after the other on one side. -/
def fuse (a b : Element) : Element where
  names := a.names ++ b.names
  partner := a.partner.or b.partner
  site := if a.site = .dontCare then b.site else a.site
  state := a.state.merge b.state
  effects := a.effects.merge b.effects

/-- The element as messages show it: its identity and its site. -/
def render (e : Element) : String := e.identity ++ "@" ++ Spelled.name e.site

/-- Fusion lists the names of both elements in order. -/
@[simp] theorem names_fuse (a b : Element) : (a.fuse b).names = a.names ++ b.names := rfl

/-- The marker of the network is one. -/
@[simp] theorem isNetwork_networkMarker : networkMarker.isNetwork = true := rfl

/-- The marker of the network does nothing. -/
@[simp] theorem on_networkMarker (t : Traffic) : networkMarker.on t = .none := by
  cases t <;> rfl

end Element

namespace Chain

/-- The chain as messages show it: its elements with arrows between them. -/
def render (chain : Chain) : String := " -> ".intercalate (chain.map Element.render)

/-- The chain with the trace fields of every element on one kind of traffic. -/
def withTraces (t : Traffic) (chain : Chain) : Chain := chain.map (Element.withTraces t)

/-- Whether every client element stands before the network and every server element behind it.
The flag tells whether the network has been passed. -/
def placedFrom (passed : Bool) : Chain → Bool
  | [] => true
  | e :: rest =>
    match e.site with
    | .network => placedFrom true rest
    | .server => passed && placedFrom passed rest
    | .client => !passed && placedFrom passed rest
    | .dontCare => placedFrom passed rest

/-- Whether the placement of the chain is valid; without a network, all of it is client side. -/
def isPlaced (chain : Chain) : Bool := placedFrom false chain

end Chain

end ChainPlan
