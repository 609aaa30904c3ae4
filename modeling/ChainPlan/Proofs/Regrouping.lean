import ChainPlan.Handler.Printer
import ChainPlan.Handler.Walk

/-! # Grouping of operators

The text of an expression has no brackets around operations: it shows the operands of a chain of
operators in order, and not how they are grouped. A method that is called on an operation reads as
if it were called on the last operand. To regroup an expression is to group every chain to the left
and to give every call of a method to the operand in front of it. The text stays as it is, and an
expression that is grouped this way stays as it is.
-/

namespace ChainPlan

namespace Expr

/-- An operation on an expression and a chain of operands, grouped to the left. -/
def joinLeft (left : Expr) (op : BinaryOp) : Expr → Expr
  | .binary first next last => .binary (left.joinLeft op first) next last
  | right => .binary left op right

/-- A call of a method of the last operand of a chain. -/
def invokeLast (method : Method) (args : List Expr) : Expr → Expr
  | .binary left op right => .binary left op (right.invokeLast method args)
  | object => .invoke object method args

mutual

/-- The expression with its operators grouped to the left, at any depth. -/
def regroup : Expr → Expr
  | .ident name => .ident name
  | .literal value => .literal value
  | .binary left op right => left.regroup.joinLeft op right.regroup
  | .call name args => .call name (regroupAll args)
  | .invoke object method args => object.regroup.invokeLast method (regroupAll args)
  | .error payload => .error payload.regroup

/-- The expressions with their operators grouped to the left. -/
def regroupAll : List Expr → List Expr
  | [] => []
  | e :: rest => e.regroup :: regroupAll rest

end

/-- Whether the expression is an operation. -/
def isBinary : Expr → Bool
  | .binary _ _ _ => true
  | _ => false

mutual

/-- No operation stands on the right of an operator or has a method called on it. -/
def IsGrouped : Expr → Prop
  | .ident _ | .literal _ => True
  | .binary left _ right => left.IsGrouped ∧ right.IsGrouped ∧ right.isBinary = false
  | .call _ args => AreGrouped args
  | .invoke object _ args => object.IsGrouped ∧ object.isBinary = false ∧ AreGrouped args
  | .error payload => payload.IsGrouped

/-- All expressions of a list are grouped to the left. -/
def AreGrouped : List Expr → Prop
  | [] => True
  | e :: rest => e.IsGrouped ∧ AreGrouped rest

end

theorem joinLeft_of_not_isBinary (left : Expr) (op : BinaryOp) {right : Expr}
    (h : right.isBinary = false) : left.joinLeft op right = .binary left op right := by
  cases right with
  | binary => cases h
  | ident | literal | call | invoke | error => rfl

theorem invokeLast_of_not_isBinary (method : Method) (args : List Expr) {object : Expr}
    (h : object.isBinary = false) : object.invokeLast method args = .invoke object method args := by
  cases object with
  | binary => cases h
  | ident | literal | call | invoke | error => rfl

/-! ### What regrouping keeps -/

theorem render_joinLeft (left : Expr) (op : BinaryOp) (right : Expr) :
    (left.joinLeft op right).render = (Expr.binary left op right).render := by
  fun_induction joinLeft left op right with
  | case1 first next last ih => simp only [render, ih, String.append_assoc]
  | case2 => rfl

theorem render_invokeLast (method : Method) (args : List Expr) (object : Expr) :
    (object.invokeLast method args).render = (Expr.invoke object method args).render := by
  fun_induction invokeLast method args object with
  | case1 left op right ih => simp only [render, ih, String.append_assoc]
  | case2 => rfl

mutual

/-- Regrouping keeps the text. -/
theorem render_regroup : ∀ e : Expr, e.regroup.render = e.render
  | .ident _ | .literal _ => rfl
  | .binary left op right => by
    rw [regroup, render_joinLeft, render, render, render_regroup left, render_regroup right]
  | .call name args => by rw [regroup, render, render, renderAll_regroupAll args]
  | .invoke object method args => by
    rw [regroup, render_invokeLast, render, render, render_regroup object,
      renderAll_regroupAll args]
  | .error payload => by rw [regroup, render, render, render_regroup payload]

theorem renderAll_regroupAll : ∀ es : List Expr, renderAll (regroupAll es) = renderAll es
  | [] => rfl
  | e :: rest => by
    rw [regroupAll, renderAll, renderAll, render_regroup e, renderAll_regroupAll rest]

end

mutual

/-- Regrouping keeps what is grouped to the left. -/
theorem regroup_of_isGrouped : ∀ {e : Expr}, e.IsGrouped → e.regroup = e
  | .ident _, _ | .literal _, _ => rfl
  | .binary left op right, ⟨hl, hr, single⟩ => by
    rw [regroup, regroup_of_isGrouped hl, regroup_of_isGrouped hr,
      joinLeft_of_not_isBinary left op single]
  | .call name args, h => by rw [regroup, regroupAll_of_areGrouped h]
  | .invoke object method args, ⟨ho, single, ha⟩ => by
    rw [regroup, regroup_of_isGrouped ho, regroupAll_of_areGrouped ha,
      invokeLast_of_not_isBinary method args single]
  | .error payload, h => by rw [regroup, regroup_of_isGrouped (e := payload) h]

theorem regroupAll_of_areGrouped : ∀ {es : List Expr}, AreGrouped es → regroupAll es = es
  | [], _ => rfl
  | e :: rest, ⟨he, hr⟩ => by
    rw [regroupAll, regroup_of_isGrouped he, regroupAll_of_areGrouped hr]

end

/-! ### Results of regrouping -/

theorem isGrouped_joinLeft {left right : Expr} (op : BinaryOp) (hl : left.IsGrouped)
    (hr : right.IsGrouped) : (left.joinLeft op right).IsGrouped := by
  fun_induction joinLeft left op right with
  | case1 first next last ih => exact ⟨ih hr.1, hr.2⟩
  | case2 right single =>
    refine ⟨hl, hr, ?_⟩
    cases right with
    | binary first next last => exact (single first next last rfl).elim
    | ident | literal | call | invoke | error => rfl

theorem isGrouped_invokeLast {object : Expr} (method : Method) {args : List Expr}
    (ho : object.IsGrouped) (ha : AreGrouped args) :
    (object.invokeLast method args).IsGrouped := by
  cases object with
  | binary left op right =>
    obtain ⟨hl, hr, single⟩ := ho
    rw [invokeLast, invokeLast_of_not_isBinary method args single]
    exact ⟨hl, ⟨hr, single, ha⟩, rfl⟩
  | ident | literal | call | invoke | error => exact ⟨ho, rfl, ha⟩

mutual

/-- What is regrouped is grouped to the left. -/
theorem isGrouped_regroup : ∀ e : Expr, e.regroup.IsGrouped
  | .ident _ | .literal _ => trivial
  | .binary left op right =>
    isGrouped_joinLeft op (isGrouped_regroup left) (isGrouped_regroup right)
  | .call _ args => areGrouped_regroupAll args
  | .invoke object method args =>
    isGrouped_invokeLast method (isGrouped_regroup object) (areGrouped_regroupAll args)
  | .error payload => isGrouped_regroup payload

theorem areGrouped_regroupAll : ∀ es : List Expr, AreGrouped (regroupAll es)
  | [] => trivial
  | e :: rest => ⟨isGrouped_regroup e, areGrouped_regroupAll rest⟩

end

end Expr

/-! ### Handlers -/

namespace Stmt

mutual

/-- The statement with the operators of its expressions grouped to the left. -/
def regroup : Stmt → Stmt
  | .start => .start
  | .finish => .finish
  | .pass => .pass
  | .assign name value => .assign name value.regroup
  | .choose subject arms => .choose subject.regroup (regroupArms arms)
  | .send message direction => .send message.regroup direction
  | .eval value => .eval value.regroup

/-- The block with the operators of its expressions grouped to the left. -/
def regroupBlock : List Stmt → List Stmt
  | [] => []
  | s :: rest => s.regroup :: regroupBlock rest

/-- The arms with the operators of their expressions grouped to the left. -/
def regroupArms : List (Expr × List Stmt) → List (Expr × List Stmt)
  | [] => []
  | (pattern, body) :: rest => (pattern.regroup, regroupBlock body) :: regroupArms rest

end

mutual

private theorem lines_regroup : ∀ (depth : Nat) (s : Stmt), s.regroup.lines depth = s.lines depth
  | _, .start | _, .finish | _, .pass => rfl
  | _, .assign _ value => by rw [regroup, lines, lines, value.render_regroup]
  | depth, .choose subject arms => by
    rw [regroup, lines, lines, subject.render_regroup, armLines_regroupArms _ arms]
  | _, .send message _ => by rw [regroup, lines, lines, message.render_regroup]
  | _, .eval value => by rw [regroup, lines, lines, value.render_regroup]

private theorem blockLines_regroupBlock : ∀ (depth : Nat) (b : List Stmt),
    blockLines depth (regroupBlock b) = blockLines depth b
  | _, [] => rfl
  | depth, s :: rest => by
    rw [regroupBlock, blockLines, blockLines, lines_regroup depth s,
      blockLines_regroupBlock depth rest]

private theorem armLines_regroupArms : ∀ (depth : Nat) (arms : List (Expr × List Stmt)),
    armLines depth (regroupArms arms) = armLines depth arms
  | _, [] => rfl
  | depth, (pattern, body) :: rest => by
    rw [regroupArms, armLines, armLines, pattern.render_regroup,
      blockLines_regroupBlock (depth + 1) body, armLines_regroupArms depth rest]

end

mutual

private theorem exprs_regroup : ∀ s : Stmt, s.regroup.exprs = s.exprs.map Expr.regroup
  | .start | .finish | .pass | .assign _ _ | .send _ _ | .eval _ => rfl
  | .choose _ arms => by rw [regroup, exprs, exprs, armExprs_regroupArms arms, List.map_cons]

private theorem blockExprs_regroupBlock : ∀ b : List Stmt,
    blockExprs (regroupBlock b) = (blockExprs b).map Expr.regroup
  | [] => rfl
  | s :: rest => by
    rw [regroupBlock, blockExprs, blockExprs, exprs_regroup s, blockExprs_regroupBlock rest,
      List.map_append]

private theorem armExprs_regroupArms : ∀ arms : List (Expr × List Stmt),
    armExprs (regroupArms arms) = (armExprs arms).map Expr.regroup
  | [] => rfl
  | (_, body) :: rest => by
    rw [regroupArms, armExprs, armExprs, blockExprs_regroupBlock body, armExprs_regroupArms rest,
      List.map_cons, List.map_append]

end

mutual

private theorem regroup_of_isGrouped : ∀ {s : Stmt}, (∀ e ∈ s.exprs, e.IsGrouped) → s.regroup = s
  | .start, _ | .finish, _ | .pass, _ => rfl
  | .assign _ value, h => by rw [regroup, Expr.regroup_of_isGrouped (h value (.head _))]
  | .choose _ arms, h => by
    obtain ⟨hs, ha⟩ := List.forall_mem_cons.mp h
    rw [regroup, Expr.regroup_of_isGrouped hs, regroupArms_of_isGrouped ha]
  | .send message _, h => by rw [regroup, Expr.regroup_of_isGrouped (h message (.head _))]
  | .eval value, h => by rw [regroup, Expr.regroup_of_isGrouped (h value (.head _))]

private theorem regroupBlock_of_isGrouped : ∀ {b : List Stmt},
    (∀ e ∈ blockExprs b, e.IsGrouped) → regroupBlock b = b
  | [], _ => rfl
  | s :: rest, h => by
    obtain ⟨hs, hr⟩ := List.forall_mem_append.mp h
    rw [regroupBlock, regroup_of_isGrouped hs, regroupBlock_of_isGrouped hr]

private theorem regroupArms_of_isGrouped : ∀ {arms : List (Expr × List Stmt)},
    (∀ e ∈ armExprs arms, e.IsGrouped) → regroupArms arms = arms
  | [], _ => rfl
  | (pattern, body) :: rest, h => by
    obtain ⟨hp, h⟩ := List.forall_mem_cons.mp h
    obtain ⟨hb, hr⟩ := List.forall_mem_append.mp h
    rw [regroupArms, Expr.regroup_of_isGrouped hp, regroupBlock_of_isGrouped hb,
      regroupArms_of_isGrouped hr]

end

end Stmt

namespace Block

/-- The block with the operators of its expressions grouped to the left, at any depth. -/
def regroup (b : Block) : Block := Stmt.regroupBlock b

/-- All operators in the block are grouped to the left, and no method is called on an operation. -/
def IsGrouped (b : Block) : Prop := ∀ e ∈ b.exprs, e.IsGrouped

/-- Regrouping keeps the text of a block. -/
theorem render_regroup (b : Block) : b.regroup.render = b.render := by
  rw [render, render, regroup, Stmt.blockLines_regroupBlock 0 b]

theorem isGrouped_regroup (b : Block) : b.regroup.IsGrouped := by
  intro e he
  rw [exprs, regroup, Stmt.blockExprs_regroupBlock b] at he
  obtain ⟨whole, -, rfl⟩ := List.mem_map.mp he
  exact whole.isGrouped_regroup

theorem regroup_of_isGrouped {b : Block} (h : b.IsGrouped) : b.regroup = b :=
  Stmt.regroupBlock_of_isGrouped h

end Block

end ChainPlan
