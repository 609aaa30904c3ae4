import ChainPlan.Handler.Basic

/-! # Text of handlers

The text of expressions, statements and whole definitions. A statement is printed as lines; each
level of nesting indents its lines by four spaces.
-/

namespace ChainPlan

/-- The text of a literal; quotes inside a text are left as they are. -/
def Literal.render : Literal → String
  | .text value => "\x27" ++ value ++ "\x27"
  | .number digits => digits
  | .flag value => if value then "true" else "false"

mutual

/-- The text of an expression. -/
def Expr.render : Expr → String
  | .ident name => name
  | .literal value => value.render
  | .binary left op right => left.render ++ " " ++ op.symbol ++ " " ++ right.render
  | .call name args => name ++ "(" ++ ", ".intercalate (Expr.renderAll args) ++ ")"
  | .invoke object method args =>
    object.render ++ "." ++ method.name ++ "(" ++ ", ".intercalate (Expr.renderAll args) ++ ")"
  | .error payload => "err(" ++ payload.render ++ ")"

/-- The texts of expressions. -/
def Expr.renderAll : List Expr → List String
  | [] => []
  | e :: rest => e.render :: Expr.renderAll rest

end

/-- A line at a level of nesting. -/
def indentedLine (depth : Nat) (text : String) : String :=
  String.ofList (List.replicate (4 * depth) ' ') ++ text

mutual

/-- The lines of a statement at a level of nesting. -/
def Stmt.lines (depth : Nat) : Stmt → List String
  | .start => [indentedLine depth "START"]
  | .finish => [indentedLine depth "END"]
  | .pass => [indentedLine depth "pass"]
  | .assign name value => [indentedLine depth (name ++ " := " ++ value.render)]
  | .choose subject arms =>
    indentedLine depth ("match " ++ subject.render ++ " \x7b") ::
      (Stmt.armLines (depth + 1) arms ++ [indentedLine depth "\x7d"])
  | .send message direction =>
    [indentedLine depth ("send(" ++ message.render ++ ", " ++ direction.name ++ ")")]
  | .eval value => [indentedLine depth value.render]

/-- The lines of a block. -/
def Stmt.blockLines (depth : Nat) : List Stmt → List String
  | [] => []
  | s :: rest => s.lines depth ++ Stmt.blockLines depth rest

/-- The lines of the arms of a match. -/
def Stmt.armLines (depth : Nat) : List (Expr × List Stmt) → List String
  | [] => []
  | (pattern, body) :: rest =>
    indentedLine depth (pattern.render ++ " => \x7b") ::
      (Stmt.blockLines (depth + 1) body ++ indentedLine depth "\x7d" :: Stmt.armLines depth rest)

end

/-- Lines as one text, each ended by a line break. -/
def joinLines (lines : List String) : String := String.join (lines.map (· ++ "\n"))

/-- The text of a block. -/
def Block.render (b : Block) : String := joinLines (Stmt.blockLines 0 b)

/-- The text of the declaration of a state variable. -/
def StateVar.render (v : StateVar) : String :=
  s!"{v.name}: {v.type} @{v.consistency} @{v.combiner} @{v.persistence}"

namespace Program

/-- The lines of a handler under its name. -/
def handlerLines (name : String) (body : Block) : List String :=
  (name ++ ":") :: Stmt.blockLines 1 body

/-- The lines of the declarations of state variables; there are none without variables. -/
def stateLines (p : Program) : List String :=
  if p.state.isEmpty then [] else "state:" :: p.state.map fun v ↦ indentedLine 1 v.render

/-- The text of a definition. -/
def render (p : Program) : String :=
  joinLines <|
    ("element " ++ p.name) :: p.stateLines ++ handlerLines "init" p.init ++
      handlerLines "request" p.request ++ handlerLines "response" p.response

end Program

end ChainPlan
