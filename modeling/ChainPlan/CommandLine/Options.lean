import ChainPlan.Settings

/-! # Options of a run

What the command line decides about a run, and how each of its arguments is named and read. Words of
settings have to be spelled exactly on the command line.
-/

namespace ChainPlan

/-- What a run is asked to do. -/
structure RunOptions where
  /-- The path of the chain file. -/
  input : String
  /-- The directory of the property files. -/
  propertyDir : Option String
  traffic : Traffic
  level : Level
  strategy : Strategy
  maxMoves : Nat
  maxExhaustiveLength : Nat
  /-- Whether the chain is shown before it is planned. -/
  verbose : Bool
  /-- Whether the plan is indented. -/
  prettyJson : Bool
  deriving DecidableEq, Repr

namespace RunOptions

/-- The options of a run on a chain file that says nothing else. -/
def ofInput (input : String) : RunOptions where
  input
  propertyDir := none
  traffic := default
  level := default
  strategy := default
  maxMoves := PlanOptions.standardMaxMoves
  maxExhaustiveLength := PlanOptions.standardMaxExhaustiveLength
  verbose := false
  prettyJson := false

/-- The options of planning that a run uses; the weights are not for the command line to give. -/
def toPlanOptions (o : RunOptions) : PlanOptions Float where
  level := o.level
  strategy := o.strategy
  weights := .standard
  maxMoves := o.maxMoves
  maxExhaustiveLength := o.maxExhaustiveLength

end RunOptions

/-- An argument of the command line. -/
inductive Argument where
  | input
  | propertyDir
  | traffic
  | level
  | strategy
  | maxMoves
  | maxExhaustiveLength
  | verbose
  | prettyJson
  deriving DecidableEq, Repr

namespace Argument

/-- The name of an argument in messages; an option is written with it. -/
def name : Argument → String
  | .input => "<INPUT>"
  | .propertyDir => "--property-dir"
  | .traffic => "--path"
  | .level => "--level"
  | .strategy => "--strategy"
  | .maxMoves => "--max-moves"
  | .maxExhaustiveLength => "--max-exhaustive-len"
  | .verbose => "--verbose"
  | .prettyJson => "--pretty-json"

/-- Whether an argument has a value. -/
def takesValue : Argument → Bool
  | .verbose | .prettyJson => false
  | _ => true

end Argument

/-- A cause for which a command line asks for no run. -/
inductive UsageError where
  /-- The help text is asked for. -/
  | help
  /-- The version is asked for. -/
  | version
  /-- There are no arguments at all. -/
  | nothingGiven
  | missingInput
  /-- No option has this name, or there is one input too many. -/
  | unknownArgument (given : String)
  /-- An option that has no value is given one. -/
  | unwantedValue (given : String)
  | repeatedArgument (argument : Argument)
  | missingValue (argument : Argument)
  /-- The value is no path, or no word of the setting. -/
  | invalidValue (argument : Argument) (given : String)
  /-- The value is no number that fits 64 bits. -/
  | invalidNumber (argument : Argument) (given : String)
  deriving DecidableEq, Repr

namespace UsageError

/-- The exit code of a program that is called in this way. -/
def exitCode : UsageError → Nat
  | .help | .version => 0
  | _ => 2

end UsageError

namespace RunOptions

/-- A path, which may not be empty. -/
def pathValue (a : Argument) (value : String) : Except UsageError String :=
  if value.isEmpty then .error (.invalidValue a value) else .ok value

/-- A word of a setting. -/
def wordValue {β : Type} [Spelled β] (a : Argument) (value : String) : Except UsageError β :=
  match Spelled.ofText? value with
  | some word => .ok word
  | none => .error (.invalidValue a value)

/-- The number that decimal digits write, behind one plus sign at most. -/
def digitsValue? (value : String) : Option Nat :=
  let digits :=
    match value.toList with
    | '+' :: rest => rest
    | cs => cs
  if !digits.isEmpty && digits.all Char.isDigit then
    some (digits.foldl (fun n c ↦ 10 * n + (c.toNat - '0'.toNat)) 0)
  else none

/-- A number of 64 bits. -/
def numberValue (a : Argument) (value : String) : Except UsageError Nat :=
  match (digitsValue? value).filter (· < Nat.pow 2 64) with
  | some n => .ok n
  | none => .error (.invalidNumber a value)

/-- The options with the value of an argument; an argument that takes none has the empty value. -/
def put (o : RunOptions) (a : Argument) (value : String) : Except UsageError RunOptions :=
  match a with
  | .input => (pathValue a value).map fun x ↦ { o with input := x }
  | .propertyDir => (pathValue a value).map fun x ↦ { o with propertyDir := some x }
  | .traffic => (wordValue a value).map fun x ↦ { o with traffic := x }
  | .level => (wordValue a value).map fun x ↦ { o with level := x }
  | .strategy => (wordValue a value).map fun x ↦ { o with strategy := x }
  | .maxMoves => (numberValue a value).map fun x ↦ { o with maxMoves := x }
  | .maxExhaustiveLength => (numberValue a value).map fun x ↦ { o with maxExhaustiveLength := x }
  | .verbose => .ok { o with verbose := true }
  | .prettyJson => .ok { o with prettyJson := true }

end RunOptions

end ChainPlan
