import ChainPlan.Handler.Name
import ChainPlan.Handler.Walk

/-! # Accesses to fields

A scan goes through an expression from left to right and gathers the method calls that it is asked
for, until it meets a call that cannot be analysed. Scans of parts combine as texts do: what the
first finds, then what the second finds, unless the first stopped. A read is a `GET` on one of the
targets, a write a `SET` with a field and a value on one of them.
-/

namespace ChainPlan

/-- What a scan has found, and the problem that stopped it, if one did. -/
structure Scan (α : Type) where
  found : List α
  problem : Option Problem
  deriving Repr

namespace Scan

variable {α : Type}

/-- The scan that finds nothing. -/
def nothing : Scan α := ⟨[], none⟩

/-- The scan that finds one thing. -/
def one (x : α) : Scan α := ⟨[x], none⟩

/-- The scan that is stopped by a problem. -/
def stop (problem : Problem) : Scan α := ⟨[], some problem⟩

/-- One scan and then another, unless the first was stopped. -/
def andThen (a b : Scan α) : Scan α :=
  match a.problem with
  | some _ => a
  | none => ⟨a.found ++ b.found, b.problem⟩

/-- The scan as an answer: what was found, or the problem. -/
def toExcept (a : Scan α) : Except Problem (List α) :=
  match a.problem with
  | some problem => .error problem
  | none => .ok a.found

@[simp] theorem nothing_andThen (a : Scan α) : nothing.andThen a = a := rfl

@[simp] theorem andThen_nothing (a : Scan α) : a.andThen nothing = a := by
  obtain ⟨found, problem⟩ := a
  cases problem <;> simp [andThen, nothing]

/-- Scans combine like texts. -/
theorem andThen_assoc (a b c : Scan α) : (a.andThen b).andThen c = a.andThen (b.andThen c) := by
  obtain ⟨fa, pa⟩ := a
  obtain ⟨fb, pb⟩ := b
  cases pa <;> cases pb <;> simp [andThen]

end Scan

/-- What a scan does at a method call on a variable: take it as a whole, or look into its
arguments. -/
abbrev CallRule (α : Type) := Method → String → List Expr → Option (Scan α)

mutual

/-- The scan of an expression under a rule for method calls. -/
def Expr.scan {α : Type} (rule : CallRule α) : Expr → Scan α
  | .ident _ | .literal _ => .nothing
  | .binary left _ right => (left.scan rule).andThen (right.scan rule)
  | .call _ args => Expr.scanAll rule args
  | .invoke object method args =>
    match object.target method args with
    | .error problem => .stop problem
    | .ok name =>
      match rule method name args with
      | some taken => taken
      | none => Expr.scanAll rule args
  | .error payload => payload.scan rule

/-- The scan of expressions from left to right. -/
def Expr.scanAll {α : Type} (rule : CallRule α) : List Expr → Scan α
  | [] => .nothing
  | e :: rest => (e.scan rule).andThen (Expr.scanAll rule rest)

end

/-- A read of fields of a target. -/
structure FieldRead where
  target : String
  /-- The flat names of all arguments, of which there is one in a well-made handler. -/
  fields : List Field
  deriving DecidableEq, Repr

/-- A write of a value to a field of a target, both by their flat names. -/
structure FieldWrite where
  target : String
  field : Field
  value : String
  deriving DecidableEq, Repr

/-- The rule that finds the reads of targets. -/
def readRule (targets : List String) : CallRule FieldRead := fun method name args ↦
  if method = .get && targets.contains name then
    some (.one ⟨name, Expr.flatNames args⟩)
  else none

/-- The rule that finds the writes of targets, and forbids the deletion of fields of messages. -/
def writeRule (targets messages : List String) : CallRule FieldWrite := fun method name args ↦
  if method = .set && targets.contains name then
    match args with
    | [field, value] => some (.one ⟨name, field.flatName, value.flatName⟩)
    | _ => some (.stop (.writeArity name args.length))
  else if method = .delete && messages.contains name then some (.stop (.deletion name))
  else none

/-- The reads of targets in some expressions. -/
def readScan (targets : List String) (es : List Expr) : Scan FieldRead :=
  Expr.scanAll (readRule targets) es

/-- The writes of targets in some expressions. -/
def writeScan (targets messages : List String) (es : List Expr) : Scan FieldWrite :=
  Expr.scanAll (writeRule targets messages) es

/-- The fields read of one target, in order. -/
def readFields (reads : List FieldRead) (target : String) : List Field :=
  (reads.filter fun r ↦ r.target = target).flatMap FieldRead.fields

/-- The fields and values written to one target, in order. -/
def writtenFields (writes : List FieldWrite) (target : String) : List (Field × String) :=
  (writes.filter fun w ↦ w.target = target).map fun w ↦ (w.field, w.value)

/-- The fields read of all targets, target by target. -/
def allReadFields (targets : List String) (reads : List FieldRead) : List Field :=
  (targets.foldl addNew []).flatMap (readFields reads)

/-- The fields written to all targets, target by target. -/
def allWrittenFields (targets : List String) (writes : List FieldWrite) : List Field :=
  (targets.foldl addNew []).flatMap fun t ↦ (writtenFields writes t).map Prod.fst

end ChainPlan
