import ChainPlan.Handler.Name
import ChainPlan.Handler.Walk

/-! # Aliases of the message

The local variables that may refer to the message. A variable becomes an alias when it is assigned
an expression that refers to an alias: a variable that is one, an operation or a call with an
operand that refers to one, or a read of a field of one. An alias assigned from a plain variable is
another name of the message; every other alias is derived from its data. Aliases are never taken
back, so the set holds what any run of the block may bind.
-/

namespace ChainPlan

mutual

/-- Whether an expression refers to an alias; operands are looked at only until one does. -/
def Expr.refers (isAlias : String → Bool) : Expr → Except Problem Bool
  | .ident name => .ok (isAlias name)
  | .literal _ | .error _ => .ok false
  | .binary left _ right =>
    match left.refers isAlias with
    | .ok false => right.refers isAlias
    | decided => decided
  | .call _ args => Expr.anyRefers isAlias args
  | .invoke object method args =>
    (object.target method args).map fun name ↦ method = .get && isAlias name

/-- Whether one of the expressions refers to an alias. -/
def Expr.anyRefers (isAlias : String → Bool) : List Expr → Except Problem Bool
  | [] => .ok false
  | e :: rest =>
    match e.refers isAlias with
    | .ok false => Expr.anyRefers isAlias rest
    | decided => decided

end

/-- The aliases of a message found so far. -/
structure Aliases where
  /-- Every alias, the message itself first. -/
  names : List String
  /-- The aliases that are built from the data of the message. -/
  derived : List String
  deriving DecidableEq, Repr

namespace Aliases

/-- The aliases before the first assignment: the message alone. -/
def ofMessage (message : String) : Aliases := ⟨[message], []⟩

/-- Whether a variable is an alias. -/
def has (a : Aliases) (name : String) : Bool := a.names.contains name

/-- The aliases that are names of the message itself. -/
def renames (a : Aliases) : List String := a.names.filter fun n ↦ !a.derived.contains n

/-- The aliases with one more. -/
def add (a : Aliases) (name : String) (value : Expr) : Aliases where
  names := a.names ++ [name]
  derived := if value.ident?.isSome then a.derived else a.derived ++ [name]

/-- The aliases after an assignment. -/
def assign (a : Aliases) (name : String) (value : Expr) : Except Problem Aliases :=
  (value.refers a.has).map fun refers ↦ if refers && !a.has name then a.add name value else a

/-- The aliases after some assignments, up to the first that cannot be analysed. -/
def follow (a : Aliases) : List (String × Expr) → Aliases × Option Problem
  | [] => (a, none)
  | (name, value) :: rest =>
    match a.assign name value with
    | .error problem => (a, some problem)
    | .ok b => follow b rest

/-- The aliases of a message in a block, if all of it can be analysed. -/
def ofBlock (message : String) (b : Block) : Except Problem Aliases :=
  match (ofMessage message).follow b.assigns with
  | (_, some problem) => .error problem
  | (aliases, none) => .ok aliases

/-- The assignments of a list are followed as those of its first part and then those of the rest. -/
theorem follow_append (a : Aliases) (xs ys : List (String × Expr)) :
    a.follow (xs ++ ys) =
      match a.follow xs with
      | (b, none) => b.follow ys
      | stopped => stopped := by
  induction xs generalizing a with
  | nil => rfl
  | cons x xs ih =>
    obtain ⟨name, value⟩ := x
    simp only [List.cons_append, follow]
    cases a.assign name value with
    | error problem => rfl
    | ok b => exact ih b

end Aliases

end ChainPlan
