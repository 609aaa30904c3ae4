import ChainPlan.Document
import ChainPlan.Settings

/-! # Settings in documents

How weights and options are read from documents. What a document leaves out has its standard value.
-/

namespace ChainPlan

variable {α : Type} [Document α]

open Decode

/-- Weights, each a number. -/
def Weights.decode : α → Except DecodeError (Weights Float) :=
  readRecord .ignored 0
    [("element", into real fun w x ↦ { w with element := x }),
     ("network", into real fun w x ↦ { w with network := x }),
     ("drop", into real fun w x ↦ { w with drop := x }),
     ("strong", into real fun w x ↦ { w with strong := x }),
     ("deploy", into real fun w x ↦ { w with deploy := x })]
    .standard

/-- The options of a planning run. -/
def PlanOptions.decode : α → Except DecodeError (PlanOptions Float) :=
  readRecord .ignored 0
    [("level", into word fun o x ↦ { o with level := x }),
     ("strategy", into word fun o x ↦ { o with strategy := x }),
     ("weights", into Weights.decode fun o x ↦ { o with weights := x }),
     ("max_moves", into natural fun o x ↦ { o with maxMoves := x }),
     ("max_exhaustive_len", into natural fun o x ↦ { o with maxExhaustiveLength := x })]
    .standard

/-- The options of the analysis of handlers. -/
def AnalysisOptions.decode : α → Except DecodeError AnalysisOptions :=
  readRecord .ignored 0
    [("rpc_target", into text fun o x ↦ { o with message := x }),
     ("recording_elements", into (list text) fun o x ↦ { o with recorders := x }),
     ("random_sources", into (list text) fun o x ↦ { o with randomSources := x })]
    .standard

/-- Weights as a JSON value. -/
def Weights.toJson (w : Weights Float) : Json :=
  .obj
    [("element", .num (.real w.element)), ("network", .num (.real w.network)),
     ("drop", .num (.real w.drop)), ("strong", .num (.real w.strong)),
     ("deploy", .num (.real w.deploy))]

/-- The options of a planning run as a JSON value. -/
def PlanOptions.toJson (o : PlanOptions Float) : Json :=
  .obj
    [("level", .str (Spelled.name o.level)), ("strategy", .str (Spelled.name o.strategy)),
     ("weights", o.weights.toJson), ("max_moves", .ofNat o.maxMoves),
     ("max_exhaustive_len", .ofNat o.maxExhaustiveLength)]

/-- The options of the analysis of handlers as a JSON value. -/
def AnalysisOptions.toJson (o : AnalysisOptions) : Json :=
  .obj
    [("rpc_target", .str o.message), ("recording_elements", .ofStrings o.recorders),
     ("random_sources", .ofStrings o.randomSources)]

end ChainPlan
