import ChainPlan.Handler.Walk
import Mathlib.Logic.Basic

/-! # Runs of a handler

A run goes through a block and takes, at every match, one of the arms or none; what it executes is a
list of statements without matches. All that it assigns and sends stands in the block, in the same
order. Along a run, a variable holds the message itself, data derived from it, or something else,
and an assignment replaces what it holds.
-/

namespace ChainPlan

/-! ### Runs -/

/-- What one member of a list gives stands in what all give, in order. -/
theorem sublist_flatMap_of_mem {α β : Type} {xs : List α} {x : α} (f : α → List β) (h : x ∈ xs) :
    (f x).Sublist (xs.flatMap f) :=
  List.sublist_flatten_of_mem (List.mem_map_of_mem h)

namespace Stmt

/-- The statement is executed as a whole: it is not a match. -/
def IsPlain (s : Stmt) : Prop := ∀ subject arms, s ≠ .choose subject arms

theorem armAssigns_eq_flatMap (arms : List Arm) :
    armAssigns arms = arms.flatMap fun a ↦ Block.assigns a.2 := by
  induction arms with
  | nil => rfl
  | cons a rest ih => rw [armAssigns, ih, List.flatMap_cons, Block.assigns]

theorem armSends_eq_flatMap (arms : List Arm) :
    armSends arms = arms.flatMap fun a ↦ Block.sends a.2 := by
  induction arms with
  | nil => rfl
  | cons a rest ih => rw [armSends, ih, List.flatMap_cons, Block.sends]

end Stmt

namespace Block

theorem assigns_append (a b : Block) : assigns (a ++ b) = assigns a ++ assigns b := by
  simp only [assigns_eq_flatMap, List.flatMap_append]

theorem sends_append (a b : Block) : sends (a ++ b) = sends a ++ sends b := by
  simp only [sends_eq_flatMap, List.flatMap_append]

theorem assigns_cons (s : Stmt) (rest : Block) : assigns (s :: rest) = s.assigns ++ assigns rest :=
  rfl

theorem sends_cons (s : Stmt) (rest : Block) : sends (s :: rest) = s.sends ++ sends rest := rfl

/-- What a run of a block executes, in order: of a match, the statements of one arm or none. -/
inductive Runs : Block → Block → Prop where
  | finish : Runs [] []
  | step {s : Stmt} {rest run : Block} (plain : s.IsPlain) (h : Runs rest run) :
      Runs (s :: rest) (s :: run)
  | noArm {subject : Expr} {arms : List Arm} {rest run : Block} (h : Runs rest run) :
      Runs (.choose subject arms :: rest) run
  | arm {subject : Expr} {arms : List Arm} {taken : Arm} {rest inner run : Block}
      (ht : taken ∈ arms) (hi : Runs taken.2 inner) (h : Runs rest run) :
      Runs (.choose subject arms :: rest) (inner ++ run)

/-- A block without matches runs from its first statement to its last. -/
theorem runs_of_isPlain {b : Block} (h : ∀ s ∈ b, s.IsPlain) : b.Runs b := by
  induction b with
  | nil => exact .finish
  | cons s rest ih =>
    obtain ⟨hs, hr⟩ := List.forall_mem_cons.mp h
    exact .step hs (ih hr)

namespace Runs

variable {b run : Block}

theorem isPlain (h : b.Runs run) : ∀ s ∈ run, s.IsPlain := by
  induction h with
  | finish => simp
  | step plain _ ih => exact List.forall_mem_cons.mpr ⟨plain, ih⟩
  | noArm _ ih => exact ih
  | arm _ _ _ inner rest => exact List.forall_mem_append.mpr ⟨inner, rest⟩

/-- A run makes assignments of its block, in their order. -/
theorem assigns_sublist (h : b.Runs run) : (assigns run).Sublist (assigns b) := by
  induction h with
  | finish => exact .refl _
  | step _ _ ih =>
    rw [assigns_cons, assigns_cons]
    exact (List.Sublist.refl _).append ih
  | noArm _ ih =>
    rw [assigns_cons]
    exact ih.trans (List.sublist_append_right _ _)
  | arm ht _ _ inner rest =>
    rw [assigns_append, assigns_cons, Stmt.assigns, Stmt.armAssigns_eq_flatMap]
    exact (inner.trans (sublist_flatMap_of_mem (fun a ↦ assigns a.2) ht)).append rest

/-- A run makes sends of its block, in their order. -/
theorem sends_sublist (h : b.Runs run) : (sends run).Sublist (sends b) := by
  induction h with
  | finish => exact .refl _
  | step _ _ ih =>
    rw [sends_cons, sends_cons]
    exact (List.Sublist.refl _).append ih
  | noArm _ ih =>
    rw [sends_cons]
    exact ih.trans (List.sublist_append_right _ _)
  | arm ht _ _ inner rest =>
    rw [sends_append, sends_cons, Stmt.sends, Stmt.armSends_eq_flatMap]
    exact (inner.trans (sublist_flatMap_of_mem (fun a ↦ sends a.2) ht)).append rest

end Runs

end Block

/-! ### What variables hold -/

/-- What a value is to the message. -/
inductive Holding where
  /-- The message itself. -/
  | message
  /-- Data derived from the message. -/
  | data
  | other
  deriving DecidableEq, Repr

/-- What a value is that is made of two: data as soon as the message comes into either. -/
def Holding.combine : Holding → Holding → Holding
  | .other, .other => .other
  | _, _ => .data

theorem Holding.combine_ne_other_iff {a b : Holding} :
    a.combine b ≠ .other ↔ a ≠ .other ∨ b ≠ .other := by
  cases a <;> cases b <;> simp [combine]

/-- What each variable holds. -/
abbrev Locals := String → Holding

mutual

/-- What the value of an expression is. Only a `GET` on a variable gives a part of what it holds;
all other methods give something else. -/
def Expr.holding (locals : Locals) : Expr → Holding
  | .ident name => locals name
  | .literal _ | .error _ => .other
  | .binary left _ right => (left.holding locals).combine (right.holding locals)
  | .call _ args => Expr.holdingOfAll locals args
  | .invoke (.ident name) .get _ => (locals name).combine .other
  | .invoke _ _ _ => .other

/-- What a value is that is made of the values of expressions. -/
def Expr.holdingOfAll (locals : Locals) : List Expr → Holding
  | [] => .other
  | e :: rest => (e.holding locals).combine (Expr.holdingOfAll locals rest)

end

namespace Locals

/-- At the start, one variable holds the message. -/
def start (message : String) : Locals := fun name ↦ if name = message then .message else .other

/-- What variables hold after an assignment. -/
def assign (locals : Locals) (name : String) (value : Expr) : Locals := fun other ↦
  if other = name then value.holding locals else locals other

/-- What variables hold after a statement that is no match. -/
def after (locals : Locals) : Stmt → Locals
  | .assign name value => locals.assign name value
  | _ => locals

/-- What variables hold after a run. -/
def afterAll (locals : Locals) (run : Block) : Locals := run.foldl after locals

/-- Only the assignments of a run change what variables hold. -/
theorem afterAll_eq (locals : Locals) {run : Block} (plain : ∀ s ∈ run, s.IsPlain) :
    locals.afterAll run = run.assigns.foldl (fun l x ↦ l.assign x.1 x.2) locals := by
  induction run generalizing locals with
  | nil => rfl
  | cons s rest ih =>
    obtain ⟨hs, hr⟩ := List.forall_mem_cons.mp plain
    rw [afterAll, List.foldl_cons, Block.assigns_cons, List.foldl_append]
    cases s with
    | choose subject arms => exact absurd rfl (hs subject arms)
    | assign name value => exact ih (locals.assign name value) hr
    | start | finish | pass | send | eval => exact ih locals hr

end Locals

end ChainPlan
