import ChainPlan.Spelling

/-! # Settings

The words of the configuration language, and the settings that every pass is given explicitly:
the weights of the cost model, the options of a planning run, and the options of the analysis of
handlers.
-/

namespace ChainPlan

/-- How strictly a changed chain must keep what can be observed of the first one. -/
inductive Level where
  /-- Every change with a valid placement is accepted. -/
  | ignore
  /-- What every read observes is kept. -/
  | weak
  /-- What every read and every record observes is kept. -/
  | strong
  deriving DecidableEq, Repr

instance : Inhabited Level := ⟨.weak⟩

instance : Spelled Level where
  all := [.ignore, .weak, .strong]
  name
    | .ignore => "ignore"
    | .weak => "weak"
    | .strong => "strong"
  aliases _ := []

/-- The two kinds of traffic of a chain, each planned on its own. -/
inductive Traffic where
  | request
  | response
  deriving DecidableEq, Repr

instance : Inhabited Traffic := ⟨.request⟩

instance : Spelled Traffic where
  all := [.request, .response]
  name
    | .request => "request"
    | .response => "response"
  aliases _ := []

/-- How a plan is searched for. -/
inductive Strategy where
  /-- Local search, then placement of the elements that may run anywhere. -/
  | heuristic
  /-- The cheapest of all orders of the chain. -/
  | exhaustive
  deriving DecidableEq, Repr

instance : Inhabited Strategy := ⟨.heuristic⟩

instance : Spelled Strategy where
  all := [.heuristic, .exhaustive]
  name
    | .heuristic => "heuristic"
    | .exhaustive => "exhaustive"
  aliases _ := []

/-- The two formats of chain files and property files. -/
inductive FileFormat where
  | json
  | yaml
  deriving DecidableEq, Repr

instance : Spelled FileFormat where
  all := [.json, .yaml]
  name
    | .json => "json"
    | .yaml => "yaml"
  aliases
    | .json => []
    | .yaml => ["yml"]

/-- Where an element runs. -/
inductive Site where
  /-- On the client side of the network. -/
  | client
  /-- On the server side of the network. -/
  | server
  /-- Between the sides: the marker of the network itself. -/
  | network
  /-- On either side. -/
  | dontCare
  deriving DecidableEq, Repr

instance : Inhabited Site := ⟨.dontCare⟩

instance : Spelled Site where
  all := [.client, .server, .network, .dontCare]
  name
    | .client => "client"
    | .server => "server"
    | .network => "network"
    | .dontCare => "dontcare"
  aliases
    | .client => ["C"]
    | .server => ["S"]
    | .network => ["N"]
    | .dontCare => ["C/S", "none"]

/-- How consistent the state of an element has to be. -/
inductive Consistency where
  | eventual
  | strong
  deriving DecidableEq, Repr

instance : Inhabited Consistency := ⟨.eventual⟩

instance : Spelled Consistency where
  all := [.eventual, .strong]
  name
    | .eventual => "eventual"
    | .strong => "strong"
  aliases
    | .eventual => ["weak", "none"]
    | .strong => []

/-- On which side strongly consistent state has a replica. -/
inductive Replica where
  | client
  | server
  | none
  deriving DecidableEq, Repr

instance : Inhabited Replica := ⟨.none⟩

instance : Spelled Replica where
  all := [.client, .server, .none]
  name
    | .client => "client_replica"
    | .server => "server_replica"
    | .none => "none"
  aliases _ := []

/-- The weights of the cost model, over any kind of number. -/
structure Weights (K : Type) where
  /-- Running one element at full workload. -/
  element : K
  /-- The network hop at full workload. -/
  network : K
  /-- The part of the workload that each dropping or blocking element takes away. -/
  drop : K
  /-- Strongly consistent state on a side without its replica. -/
  strong : K
  /-- Deploying anything on a side. -/
  deploy : K
  deriving Repr

/-- The weights of a run that gives none. -/
def Weights.standard : Weights Float := ⟨1, 1, 0.1, 5, 5⟩

instance : Inhabited (Weights Float) := ⟨.standard⟩

/-- The options of a planning run, with weights over any kind of number. -/
structure PlanOptions (K : Type) where
  level : Level
  strategy : Strategy
  weights : Weights K
  /-- The moves that the local search may accept before it gives up. -/
  maxMoves : Nat
  /-- The longest chain whose orders are all searched, the network marker included. -/
  maxExhaustiveLength : Nat
  deriving Repr

namespace PlanOptions

/-- The moves allowed where no number is given. -/
def standardMaxMoves : Nat := 10000

/-- The longest chain searched where no number is given. -/
def standardMaxExhaustiveLength : Nat := 8

/-- The standard options at a level. -/
def atLevel (level : Level) : PlanOptions Float :=
  ⟨level, default, .standard, standardMaxMoves, standardMaxExhaustiveLength⟩

/-- The options of a run that gives none. -/
def standard : PlanOptions Float := atLevel default

instance : Inhabited (PlanOptions Float) := ⟨standard⟩

end PlanOptions

/-- The options of the analysis of handlers. -/
structure AnalysisOptions where
  /-- The variable that holds the message in flight. -/
  message : String
  /-- The elements whose reads are observations only. -/
  recorders : List String
  /-- The functions that return a random value. -/
  randomSources : List String
  deriving DecidableEq, Repr

namespace AnalysisOptions

/-- The options of an analysis that gives none. -/
def standard : AnalysisOptions :=
  ⟨"rpc", ["logging", "metrics"], ["randomf", "randomi"]⟩

instance : Inhabited AnalysisOptions := ⟨standard⟩

/-- Whether the element of this name only records what it reads. -/
def isRecorder (options : AnalysisOptions) (name : String) : Bool := options.recorders.contains name

/-- Whether a call of the function of this name gives a random value. -/
def isRandomSource (options : AnalysisOptions) (name : String) : Bool :=
  options.randomSources.contains name

end AnalysisOptions

end ChainPlan
