import ChainPlan.Document
import ChainPlan.Plan

/-! # Elements and plans in documents

How field sets, effects, states, elements and plans are written as JSON values and read from
documents. A partner that is not there and a flag that hangs on nothing random are not written.
-/

namespace ChainPlan

/-- The text that stands for the wildcard. -/
def FieldSet.wildcard : String := "*"

section

variable {α : Type} [Document α]

open Decode

/-- A set of fields: the wildcard, or a list of names. -/
def FieldSet.decode (d : α) : Except DecodeError FieldSet :=
  match Document.view d with
  | .str s => if s = wildcard then .ok .all else .error (.noFieldSet s)
  | .list items => (items.mapM plainText).map .only
  | _ => .error .wrongKind

/-- The effects on one kind of traffic. -/
def PathEffects.decode : α → Except DecodeError PathEffects :=
  readRecord .ignored 0
    [("read", into FieldSet.decode fun e x ↦ { e with read := x }),
     ("write", into FieldSet.decode fun e x ↦ { e with write := x }),
     ("record", into FieldSet.decode fun e x ↦ { e with record := x }),
     ("drop", into bool fun e x ↦ { e with drop := x }),
     ("block", into bool fun e x ↦ { e with block := x }),
     ("copy", into bool fun e x ↦ { e with copy := x }),
     ("probabilistic", into bool fun e x ↦ { e with probabilistic := x })]
    .none

/-- The steps that read the effects on both kinds of traffic. -/
def Effects.steps : List (String × FieldStep α Effects) :=
  [("request", into PathEffects.decode fun e x ↦ { e with request := x }),
   ("response", into PathEffects.decode fun e x ↦ { e with response := x })]

/-- The effects on both kinds of traffic. -/
def Effects.decode : α → Except DecodeError Effects := readRecord .ignored 0 Effects.steps .none

/-- What an element needs of its state. -/
def ElementState.decode : α → Except DecodeError ElementState :=
  readRecord .ignored 0
    [("stateful", into bool fun s x ↦ { s with stateful := x }),
     ("consistency", into word fun s x ↦ { s with consistency := x }),
     ("combiner", into text fun s x ↦ { s with combiner := x }),
     ("state_dependence", into word fun s x ↦ { s with replica := x }),
     ("persistence", into text fun s x ↦ { s with persistence := x })]
    .stateless

/-- A profile: the state in a field of its own, read first, and the effects beside it. A profile is
never written as a list. -/
def Profile.decode (d : α) : Except DecodeError Profile :=
  match Document.view d with
  | .record fields => do
    let state ←
      foldFields .ignored [("state", into ElementState.decode fun _ x ↦ x)] [] .stateless fields
    let effects ← foldFields .ignored Effects.steps [] .none fields
    return ⟨state, effects⟩
  | _ => .error .wrongKind

/-- An element, whose names have to be there. -/
def Element.decode : α → Except DecodeError Element :=
  readRecord .ignored 1
    [("name", into (list text) fun e x ↦ { e with names := x }),
     ("partner", into textOrNull fun e x ↦ { e with partner := x }),
     ("site", into word fun e x ↦ { e with site := x }),
     ("state", into ElementState.decode fun e x ↦ { e with state := x }),
     ("properties", into Effects.decode fun e x ↦ { e with effects := x })]
    ⟨[], none, .dontCare, .stateless, .none⟩

/-- A side of a plan: a list of at most one element. -/
def Plan.decodeSide (d : α) : Except DecodeError (Option Element) := do
  match ← list Element.decode d with
  | [] => return none
  | [e] => return some e
  | many => throw (.crowdedSide many.length)

/-- A plan, with both of its sides. -/
def Plan.decode : α → Except DecodeError Plan :=
  readRecord .ignored 2
    [("client_chain", into Plan.decodeSide fun p x ↦ { p with client := x }),
     ("server_chain", into Plan.decodeSide fun p x ↦ { p with server := x })]
    ⟨none, none⟩

end

/-- A set of fields as a JSON value. -/
def FieldSet.toJson : FieldSet → Json
  | .all => .str wildcard
  | .only fields => .ofStrings fields

/-- The effects on one kind of traffic as a JSON value. -/
def PathEffects.toJson (e : PathEffects) : Json :=
  .obj <|
    [("read", e.read.toJson), ("write", e.write.toJson), ("record", e.record.toJson),
     ("drop", .bool e.drop), ("block", .bool e.block), ("copy", .bool e.copy)] ++
      if e.probabilistic then [("probabilistic", .bool true)] else []

/-- The effects on both kinds of traffic, as fields of an object. -/
def Effects.toFields (e : Effects) : List (String × Json) :=
  [("request", e.request.toJson), ("response", e.response.toJson)]

/-- The effects on both kinds of traffic as a JSON value. -/
def Effects.toJson (e : Effects) : Json := .obj e.toFields

/-- What an element needs of its state, as a JSON value. -/
def ElementState.toJson (s : ElementState) : Json :=
  .obj
    [("stateful", .bool s.stateful), ("consistency", .str (Spelled.name s.consistency)),
     ("combiner", .str s.combiner), ("state_dependence", .str (Spelled.name s.replica)),
     ("persistence", .str s.persistence)]

/-- A profile as a JSON value. -/
def Profile.toJson (p : Profile) : Json := .obj (("state", p.state.toJson) :: p.effects.toFields)

/-- An element as a JSON value. -/
def Element.toJson (e : Element) : Json :=
  .obj <|
    [("name", .ofStrings e.names)] ++ (e.partner.toList.map fun p ↦ ("partner", .str p)) ++
      [("site", .str (Spelled.name e.site)), ("state", e.state.toJson),
       ("properties", e.effects.toJson)]

/-- A chain as a JSON value. -/
def Chain.toJson (chain : Chain) : Json := .arr (chain.map Element.toJson)

/-- A plan as a JSON value. -/
def Plan.toJson (p : Plan) : Json :=
  .obj [("client_chain", p.clientChain.toJson), ("server_chain", p.serverChain.toJson)]

end ChainPlan
