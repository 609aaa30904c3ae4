import ChainPlan.FieldSet
import ChainPlan.Handler.Basic

/-! # Flat names

The analyses compare expressions with variables and fields by a flat name: the text of the
expression without spaces and quotes. Every error message has the same name. A method belongs to
the variable that it is called on; called on anything else it belongs to none, and the analysis
stops there.
-/

namespace ChainPlan

/-- The flat name of every error message. -/
def errorName : String := "ERROR"

/-- The flat name of a literal: what it holds. -/
def Literal.flatName : Literal → String
  | .text value => value
  | .number digits => digits
  | .flag value => if value then "true" else "false"

mutual

/-- The flat name of an expression. -/
def Expr.flatName : Expr → String
  | .ident name => name
  | .literal value => value.flatName
  | .binary left op right => left.flatName ++ op.symbol ++ right.flatName
  | .call name args => name ++ "(" ++ ",".intercalate (Expr.flatNames args) ++ ")"
  | .invoke object method args =>
    object.flatName ++ "." ++ method.name ++ "(" ++ ",".intercalate (Expr.flatNames args) ++ ")"
  | .error _ => errorName

/-- The flat names of expressions. -/
def Expr.flatNames : List Expr → List String
  | [] => []
  | e :: rest => e.flatName :: Expr.flatNames rest

end

/-- The flat names of a list are those of its members. -/
theorem Expr.flatNames_eq_map (es : List Expr) : Expr.flatNames es = es.map Expr.flatName := by
  induction es with
  | nil => rfl
  | cons e rest ih => simp [Expr.flatNames, ih]

/-- A cause for which a handler cannot be analysed. -/
inductive Problem where
  /-- A write has not exactly a field and a value. -/
  | writeArity (target : String) (count : Nat)
  /-- A field that is read or written has no name. -/
  | emptyField (set : String)
  /-- A state variable names a consistency that does not exist. -/
  | unknownConsistency (name given : String)
  /-- A method is called on something other than a variable. -/
  | unresolvable (method : Method) (expression : String)
  /-- A field of the message is deleted. -/
  | deletion (target : String)
  deriving DecidableEq, Repr

/-- The wording of a problem. -/
def Problem.message : Problem → String
  | .writeArity target count =>
    s!"malformed IR: SET on \x60{target}\x60 takes 2 arguments but {count} were supplied"
  | .emptyField set => s!"malformed IR: field empty name in the {set} set"
  | .unknownConsistency name given =>
    s!"malformed IR: state declaration \x60{name}\x60 has unknown consistency " ++
      s!"\x60{given}\x60"
  | .unresolvable method expression =>
    s!"cannot resolve the target of \x60{expression}\x60: {method.name} must be called on a " ++
      "named variable"
  | .deletion target => s!"unsupported: DELETE on \x60{target}\x60"

/-- The variable that a method is called on. -/
def Expr.target (object : Expr) (method : Method) (args : List Expr) : Except Problem String :=
  match object with
  | .ident name => .ok name
  | _ => .error (.unresolvable method (Expr.invoke object method args).flatName)

end ChainPlan
