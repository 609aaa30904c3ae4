import ChainPlan.Handler.Basic

/-! # What a block holds

The analyses look at a block through a few lists in textual order, at any depth of nesting: its
expressions, its assignments, its sends, and its sends inside arms of matches.
-/

namespace ChainPlan

mutual

/-- The expressions that a statement evaluates. -/
def Stmt.exprs : Stmt → List Expr
  | .start | .finish | .pass => []
  | .assign _ value => [value]
  | .choose subject arms => subject :: Stmt.armExprs arms
  | .send message _ => [message]
  | .eval value => [value]

/-- The expressions that a block evaluates. -/
def Stmt.blockExprs : List Stmt → List Expr
  | [] => []
  | s :: rest => s.exprs ++ Stmt.blockExprs rest

/-- The patterns of arms and the expressions of their blocks. -/
def Stmt.armExprs : List (Expr × List Stmt) → List Expr
  | [] => []
  | (pattern, body) :: rest => pattern :: (Stmt.blockExprs body ++ Stmt.armExprs rest)

end

mutual

/-- The assignments of a statement: a variable and its new value. -/
def Stmt.assigns : Stmt → List (String × Expr)
  | .assign name value => [(name, value)]
  | .choose _ arms => Stmt.armAssigns arms
  | .start | .finish | .pass | .send _ _ | .eval _ => []

/-- The assignments of a block. -/
def Stmt.blockAssigns : List Stmt → List (String × Expr)
  | [] => []
  | s :: rest => s.assigns ++ Stmt.blockAssigns rest

/-- The assignments of the blocks of arms. -/
def Stmt.armAssigns : List (Expr × List Stmt) → List (String × Expr)
  | [] => []
  | (_, body) :: rest => Stmt.blockAssigns body ++ Stmt.armAssigns rest

end

mutual

/-- The sends of a statement: a message and its direction. -/
def Stmt.sends : Stmt → List (Expr × Direction)
  | .send message direction => [(message, direction)]
  | .choose _ arms => Stmt.armSends arms
  | .start | .finish | .pass | .assign _ _ | .eval _ => []

/-- The sends of a block. -/
def Stmt.blockSends : List Stmt → List (Expr × Direction)
  | [] => []
  | s :: rest => s.sends ++ Stmt.blockSends rest

/-- The sends of the blocks of arms. -/
def Stmt.armSends : List (Expr × List Stmt) → List (Expr × Direction)
  | [] => []
  | (_, body) :: rest => Stmt.blockSends body ++ Stmt.armSends rest

end

/-- The sends of a statement that stand inside an arm. -/
def Stmt.innerSends : Stmt → List (Expr × Direction)
  | .choose _ arms => Stmt.armSends arms
  | _ => []

mutual

/-- The names of the functions that an expression calls, wherever the calls stand in it. -/
def Expr.callees : Expr → List String
  | .ident _ | .literal _ => []
  | .binary left _ right => left.callees ++ right.callees
  | .call name args => name :: Expr.calleesOfAll args
  | .invoke object _ args => object.callees ++ Expr.calleesOfAll args
  | .error payload => payload.callees

/-- The names of the functions that expressions call. -/
def Expr.calleesOfAll : List Expr → List String
  | [] => []
  | e :: rest => e.callees ++ Expr.calleesOfAll rest

end

/-- The functions that a list of expressions calls are those that its members call. -/
theorem Expr.calleesOfAll_eq_flatMap (es : List Expr) :
    Expr.calleesOfAll es = es.flatMap Expr.callees := by
  induction es with
  | nil => rfl
  | cons e rest ih => simp [Expr.calleesOfAll, ih]

namespace Block

/-- The expressions that a block evaluates, at any depth. -/
def exprs (b : Block) : List Expr := Stmt.blockExprs b

/-- The assignments of a block, at any depth. -/
def assigns (b : Block) : List (String × Expr) := Stmt.blockAssigns b

/-- The sends of a block, at any depth. -/
def sends (b : Block) : List (Expr × Direction) := Stmt.blockSends b

/-- The sends of a block that stand inside an arm of a match, at any depth. -/
def innerSends (b : Block) : List (Expr × Direction) := b.flatMap Stmt.innerSends

/-- A block evaluates what its statements evaluate. -/
theorem exprs_eq_flatMap (b : Block) : exprs b = b.flatMap Stmt.exprs := by
  unfold exprs
  induction b with
  | nil => rfl
  | cons s rest ih => simp [Stmt.blockExprs, ih]

/-- A block assigns what its statements assign. -/
theorem assigns_eq_flatMap (b : Block) : assigns b = b.flatMap Stmt.assigns := by
  unfold assigns
  induction b with
  | nil => rfl
  | cons s rest ih => simp [Stmt.blockAssigns, ih]

/-- A block sends what its statements send. -/
theorem sends_eq_flatMap (b : Block) : sends b = b.flatMap Stmt.sends := by
  unfold sends
  induction b with
  | nil => rfl
  | cons s rest ih => simp [Stmt.blockSends, ih]

end Block

end ChainPlan
