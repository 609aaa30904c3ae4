import ChainPlan.Element

/-! # Errors of planning

The causes for which a chain cannot be planned, and their wording.
-/

namespace ChainPlan

/-- One of the three kinds of access to a field. -/
inductive Access where
  | read
  | write
  | record
  deriving DecidableEq, Repr

/-- The name of the set that lists the accesses of a kind. -/
def Access.name : Access → String
  | .read => "read"
  | .write => "write"
  | .record => "record"

/-- The fields that are accessed in one of the three ways. -/
def PathEffects.fieldsOf (e : PathEffects) : Access → FieldSet
  | .read => e.read
  | .write => e.write
  | .record => e.record

/-- A cause for which a chain cannot be planned. -/
inductive PlanError where
  /-- An element lists a field twice in one set. -/
  | duplicateField (element : String) (traffic : Traffic) (access : Access) (field : Field)
  /-- No element is the network. -/
  | missingNetwork
  /-- More than one element is the network. -/
  | multipleNetwork (count : Nat)
  /-- No place of the network suits the pinned elements. -/
  | invalidPlacement (chain : Chain)
  /-- The local search did not end within its moves. -/
  | movesExhausted (traffic : Traffic) (moves : Nat)
  /-- The chain is too long for a search of all orders. -/
  | chainTooLong (length limit : Nat)
  deriving DecidableEq, Repr

/-- The wording of an error of planning. -/
def PlanError.message : PlanError → String
  | .duplicateField element traffic access field =>
    s!"element \x60{element}\x60 lists field \x60{field}\x60 twice in its " ++
      s!"{Spelled.name traffic} {access.name} set"
  | .missingNetwork => "chain has no network element"
  | .multipleNetwork count => s!"chain has {count} network elements, expected exactly one"
  | .invalidPlacement chain => s!"placement is invalid: {chain.render}"
  | .movesExhausted traffic moves =>
    s!"reordering the {Spelled.name traffic} chain did not converge after {moves} moves"
  | .chainTooLong length limit =>
    s!"chain of {length} elements is too long for exhaustive search (at most {limit})"

end ChainPlan
