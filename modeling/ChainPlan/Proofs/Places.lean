import ChainPlan.Handler.Walk

/-! # Places in handlers

Where an expression stands: in another expression, at any depth, and in a statement of a block, at
any depth of nesting. Some method calls may be shut, so that nothing is seen among their arguments.
The expressions that the analyses look at are those that the statements of a block evaluate.
-/

namespace ChainPlan

/-! ### Places in expressions -/

/-- An expression stands in another, at any depth, but not among the arguments of a call that is
shut. -/
inductive Expr.StandsIn (shut : Expr → Prop) (e : Expr) : Expr → Prop where
  | self : StandsIn shut e e
  | left {left right : Expr} {op : BinaryOp} (h : StandsIn shut e left) :
      StandsIn shut e (.binary left op right)
  | right {left right : Expr} {op : BinaryOp} (h : StandsIn shut e right) :
      StandsIn shut e (.binary left op right)
  | operand {name : String} {args : List Expr} {arg : Expr} (ha : arg ∈ args)
      (h : StandsIn shut e arg) : StandsIn shut e (.call name args)
  | object {object : Expr} {method : Method} {args : List Expr} (h : StandsIn shut e object) :
      StandsIn shut e (.invoke object method args)
  | argument {object : Expr} {method : Method} {args : List Expr} {arg : Expr}
      (hs : ¬ shut (.invoke object method args)) (ha : arg ∈ args) (h : StandsIn shut e arg) :
      StandsIn shut e (.invoke object method args)
  | payload {payload : Expr} (h : StandsIn shut e payload) : StandsIn shut e (.error payload)

namespace Expr.StandsIn

variable {shut : Expr → Prop} {e : Expr}

@[simp] theorem ident_iff {name : String} :
    e.StandsIn shut (.ident name) ↔ e = .ident name := by
  constructor
  · intro h
    cases h
    rfl
  · rintro rfl
    exact .self

@[simp] theorem literal_iff {value : Literal} :
    e.StandsIn shut (.literal value) ↔ e = .literal value := by
  constructor
  · intro h
    cases h
    rfl
  · rintro rfl
    exact .self

@[simp] theorem binary_iff {left right : Expr} {op : BinaryOp} :
    e.StandsIn shut (.binary left op right) ↔
      e = .binary left op right ∨ e.StandsIn shut left ∨ e.StandsIn shut right := by
  constructor
  · intro h
    cases h with
    | self => exact .inl rfl
    | left h => exact .inr (.inl h)
    | right h => exact .inr (.inr h)
  · rintro (rfl | h | h)
    · exact .self
    · exact .left h
    · exact .right h

@[simp] theorem call_iff {name : String} {args : List Expr} :
    e.StandsIn shut (.call name args) ↔
      e = .call name args ∨ ∃ arg ∈ args, e.StandsIn shut arg := by
  constructor
  · intro h
    cases h with
    | self => exact .inl rfl
    | operand ha h => exact .inr ⟨_, ha, h⟩
  · rintro (rfl | ⟨arg, ha, h⟩)
    · exact .self
    · exact .operand ha h

@[simp] theorem invoke_iff {object : Expr} {method : Method} {args : List Expr} :
    e.StandsIn shut (.invoke object method args) ↔
      e = .invoke object method args ∨ e.StandsIn shut object ∨
        ¬ shut (.invoke object method args) ∧ ∃ arg ∈ args, e.StandsIn shut arg := by
  constructor
  · intro h
    cases h with
    | self => exact .inl rfl
    | object h => exact .inr (.inl h)
    | argument hs ha h => exact .inr (.inr ⟨hs, _, ha, h⟩)
  · rintro (rfl | h | ⟨hs, arg, ha, h⟩)
    · exact .self
    · exact .object h
    · exact .argument hs ha h

@[simp] theorem error_iff {payload : Expr} :
    e.StandsIn shut (.error payload) ↔ e = .error payload ∨ e.StandsIn shut payload := by
  constructor
  · intro h
    cases h with
    | self => exact .inl rfl
    | payload h => exact .inr h
  · rintro (rfl | h)
    · exact .self
    · exact .payload h

/-- What stands in an expression while some calls are shut stands in it while fewer are. -/
theorem mono {fewer : Expr → Prop} {whole : Expr} (h : e.StandsIn shut whole)
    (hs : ∀ c, fewer c → shut c) : e.StandsIn fewer whole := by
  induction h with
  | self => exact .self
  | left _ ih => exact .left ih
  | right _ ih => exact .right ih
  | operand ha _ ih => exact .operand ha ih
  | object _ ih => exact .object ih
  | argument seen ha _ ih => exact .argument (fun hc ↦ seen (hs _ hc)) ha ih
  | payload _ ih => exact .payload ih

end Expr.StandsIn

/-! ### Places in handlers -/

/-- A block evaluates an expression as a whole, in some statement at any depth. -/
inductive Block.Evaluates (e : Expr) : Block → Prop where
  | assigned {name : String} {rest : Block} : Evaluates e (.assign name e :: rest)
  | subject {arms : List Arm} {rest : Block} : Evaluates e (.choose e arms :: rest)
  | pattern {subject : Expr} {arms : List Arm} {body rest : Block} (ha : (e, body) ∈ arms) :
      Evaluates e (.choose subject arms :: rest)
  | inArm {subject pattern : Expr} {arms : List Arm} {body rest : Block}
      (ha : (pattern, body) ∈ arms) (h : Evaluates e body) :
      Evaluates e (.choose subject arms :: rest)
  | sent {direction : Direction} {rest : Block} : Evaluates e (.send e direction :: rest)
  | alone {rest : Block} : Evaluates e (.eval e :: rest)
  | later {s : Stmt} {rest : Block} (h : Evaluates e rest) : Evaluates e (s :: rest)

/-- An expression stands in a block, but not among the arguments of a call that is shut. -/
def Block.Exposes (shut : Expr → Prop) (b : Block) (e : Expr) : Prop :=
  ∃ whole, b.Evaluates whole ∧ e.StandsIn shut whole

mutual

private theorem Stmt.evaluates_of_mem_exprs {e : Expr} (rest : Block) :
    ∀ {s : Stmt}, e ∈ s.exprs → Block.Evaluates e (s :: rest)
  | .assign name value, h => List.mem_singleton.mp h ▸ .assigned
  | .send message direction, h => List.mem_singleton.mp h ▸ .sent
  | .eval value, h => List.mem_singleton.mp h ▸ .alone
  | .choose subject arms, h => by
    rcases List.mem_cons.mp h with rfl | h
    · exact .subject
    · obtain ⟨pattern, body, ha, rfl | he⟩ := Stmt.exists_of_mem_armExprs h
      · exact .pattern ha
      · exact .inArm ha he

private theorem Stmt.evaluates_of_mem_blockExprs {e : Expr} :
    ∀ {b : List Stmt}, e ∈ Stmt.blockExprs b → Block.Evaluates e b
  | s :: rest, h => by
    rcases List.mem_append.mp h with h | h
    · exact Stmt.evaluates_of_mem_exprs rest h
    · exact .later (Stmt.evaluates_of_mem_blockExprs h)

private theorem Stmt.exists_of_mem_armExprs {e : Expr} :
    ∀ {arms : List (Expr × List Stmt)}, e ∈ Stmt.armExprs arms →
      ∃ pattern body, (pattern, body) ∈ arms ∧ (e = pattern ∨ Block.Evaluates e body)
  | (pattern, body) :: rest, h => by
    rcases List.mem_cons.mp h with he | h
    · exact ⟨pattern, body, .head _, .inl he⟩
    · rcases List.mem_append.mp h with h | h
      · exact ⟨pattern, body, .head _, .inr (Stmt.evaluates_of_mem_blockExprs h)⟩
      · obtain ⟨pattern, body, ha, he⟩ := Stmt.exists_of_mem_armExprs h
        exact ⟨pattern, body, .tail _ ha, he⟩

end

theorem Stmt.armExprs_eq_flatMap (arms : List Arm) :
    armExprs arms = arms.flatMap fun a ↦ a.1 :: Block.exprs a.2 := by
  induction arms with
  | nil => rfl
  | cons a rest ih => rw [armExprs, ih, List.flatMap_cons, Block.exprs, List.cons_append]

/-- The expressions of a block are those that it evaluates. -/
theorem Block.mem_exprs_iff {b : Block} {e : Expr} : e ∈ b.exprs ↔ b.Evaluates e := by
  refine ⟨Stmt.evaluates_of_mem_blockExprs, fun h ↦ ?_⟩
  induction h with
  | assigned | subject | sent | alone => exact List.mem_append_left _ (.head _)
  | later h ih => exact List.mem_append_right _ ih
  | pattern ha =>
    refine List.mem_append_left _ (.tail _ ?_)
    rw [Stmt.armExprs_eq_flatMap]
    exact List.mem_flatMap.mpr ⟨_, ha, .head _⟩
  | inArm ha h ih =>
    refine List.mem_append_left _ (.tail _ ?_)
    rw [Stmt.armExprs_eq_flatMap]
    exact List.mem_flatMap.mpr ⟨_, ha, .tail _ ih⟩

end ChainPlan
