/-! # Handlers

The small language in which elements are written. An element has state variables and one handler
for its start and for each kind of traffic; a handler is a block of statements over local variables,
the message in flight, and the state variables. Conditions are never evaluated here: a match stands
for all its arms.
-/

namespace ChainPlan

/-- A literal, as it is written. -/
inductive Literal where
  /-- The text between the quotes. -/
  | text (value : String)
  | number (digits : String)
  | flag (value : Bool)
  deriving DecidableEq, Repr

/-- An operator between two expressions. -/
inductive BinaryOp where
  | add | sub | mul | div
  | eq | ne | lt | le | gt | ge
  | and | or
  deriving DecidableEq, Repr

/-- The symbol of an operator. -/
def BinaryOp.symbol : BinaryOp → String
  | .add => "+"
  | .sub => "-"
  | .mul => "*"
  | .div => "/"
  | .eq => "=="
  | .ne => "!="
  | .lt => "<"
  | .le => "<="
  | .gt => ">"
  | .ge => ">="
  | .and => "&&"
  | .or => "||"

/-- Every operator. -/
def BinaryOp.all : List BinaryOp :=
  [.add, .sub, .mul, .div, .eq, .ne, .lt, .le, .gt, .ge, .and, .or]

/-- The methods of messages and state variables. -/
inductive Method where
  | get | set | size | delete | byteSize
  deriving DecidableEq, Repr

/-- The name of a method. -/
def Method.name : Method → String
  | .get => "GET"
  | .set => "SET"
  | .size => "SIZE"
  | .delete => "DELETE"
  | .byteSize => "BYTE_SIZE"

/-- Every method. -/
def Method.all : List Method := [.get, .set, .size, .delete, .byteSize]

/-- The way of a message: requests go down to the server, responses up to the client. -/
inductive Direction where
  | up
  | down
  deriving DecidableEq, Repr

namespace Direction

/-- The name of a direction. -/
def name : Direction → String
  | .up => "Up"
  | .down => "Down"

/-- The other direction. -/
def reverse : Direction → Direction
  | .up => .down
  | .down => .up

end Direction

/-- An expression. -/
inductive Expr where
  /-- A variable. -/
  | ident (name : String)
  | literal (value : Literal)
  | binary (left : Expr) (op : BinaryOp) (right : Expr)
  /-- A call of a free function. -/
  | call (name : String) (args : List Expr)
  /-- A call of a method of an object. -/
  | invoke (object : Expr) (method : Method) (args : List Expr)
  /-- An error message with its payload. -/
  | error (payload : Expr)

namespace Expr

/-- The variable that the expression is, if it is one. -/
def ident? : Expr → Option String
  | .ident name => some name
  | _ => none

/-- Whether the expression is an error message. -/
def isError : Expr → Bool
  | .error _ => true
  | _ => false

end Expr

/-- A statement. A match has a list of arms, each a pattern with a block. -/
inductive Stmt where
  /-- The mark of the entry of a handler, without effect. -/
  | start
  /-- The mark of the exit of a handler, without effect. -/
  | finish
  /-- The statement that does nothing. -/
  | pass
  | assign (name : String) (value : Expr)
  | choose (subject : Expr) (arms : List (Expr × List Stmt))
  | send (message : Expr) (direction : Direction)
  /-- An expression evaluated for its effects. -/
  | eval (value : Expr)

/-- Statements in order. -/
abbrev Block := List Stmt

/-- A pattern with the block that runs if it matches. -/
abbrev Arm := Expr × List Stmt

/-- Whether a statement only marks a place or says that nothing is done. -/
def Stmt.isPlaceholder : Stmt → Bool
  | .start | .finish | .pass => true
  | _ => false

/-- A state variable with its decorators, as they are written. -/
structure StateVar where
  name : String
  type : String
  consistency : String
  combiner : String
  persistence : String
  deriving DecidableEq, Repr

/-- A state variable without decorators of its own. -/
def StateVar.plain (name type : String) : StateVar :=
  ⟨name, type, "eventual", "LWW", "ephemeral"⟩

/-- The definition of an element. -/
structure Program where
  name : String
  state : List StateVar
  /-- The block that runs once at the start. -/
  init : Block
  request : Block
  response : Block

end ChainPlan
