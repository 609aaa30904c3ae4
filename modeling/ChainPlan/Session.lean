import ChainPlan.ChainFile
import ChainPlan.CommandLine.Options

/-! # Runs

One run of the planner: load the chain, show it if that is asked for, plan it, and print the plan or
report what went wrong. A run sees files only through `Files`, so its outcome is a value.
-/

namespace ChainPlan

/-- A cause for which a run gives no plan. -/
inductive RunError where
  | load (cause : LoadError)
  | plan (cause : PlanError)
  deriving DecidableEq, Repr

namespace RunError

/-- The wording of the error. -/
def message : RunError → String
  | .load cause => cause.message
  | .plan cause => cause.message

/-- The fault of a file behind the error, where there is one. -/
def readFault? : RunError → Option ReadFault
  | .load (.unreadable _ fault) => some fault
  | .load (.properties (.unreadable _ fault)) => some fault
  | _ => none

/-- The fault of a text behind the error, where there is one. -/
def textFault? : RunError → Option TextFault
  | .load (.unparsable _ _ fault) => some fault
  | .load (.properties (.unparsable _ _ fault)) => some fault
  | _ => none

/-- What caused the error, as the report shows it below the error. -/
def causes (e : RunError) : List String :=
  (e.readFault?.map ReadFault.message).toList ++ (e.textFault?.map TextFault.message).toList

/-- The report of the error: its wording, and a line for each cause. -/
def report (e : RunError) : String :=
  "error: " ++ e.message ++ String.join (e.causes.map fun c ↦ "\n  caused by: " ++ c) ++ "\n"

end RunError

/-- The outcome of a run. -/
structure Outcome where
  /-- The text on standard output. -/
  output : String
  /-- The text on standard error. -/
  diagnostics : String
  error : Option RunError
  deriving DecidableEq, Repr

/-- The exit code of a program with this outcome. -/
def Outcome.exitCode (o : Outcome) : Nat := if o.error.isSome then 1 else 0

namespace Session

/-- The text of a plan, on lines of its own. -/
def planText (pretty : Bool) (p : Plan) : String :=
  (if pretty then p.toJson.renderPretty 0 else p.toJson.render) ++ "\n"

/-- The line that shows the chain, if that is asked for. -/
def chainLine (o : RunOptions) (chain : Chain) : String :=
  if o.verbose then chain.render ++ "\n" else ""

/-- The outcome of a run on a chain. -/
def runChain (o : RunOptions) (chain : Chain) : Outcome :=
  match chain.plan o.toPlanOptions o.traffic with
  | .ok plan => ⟨planText o.prettyJson plan, chainLine o chain, none⟩
  | .error cause =>
    ⟨"", chainLine o chain ++ (RunError.plan cause).report, some (.plan cause)⟩

/-- The outcome of a run on the files that it sees. -/
def run (files : Files) (o : RunOptions) : Outcome :=
  match ChainFile.load files o.input o.propertyDir with
  | .ok chain => runChain o chain
  | .error cause => ⟨"", (RunError.load cause).report, some (.load cause)⟩

/-- The paths that a run may look at besides its input: the property files of all elements. -/
def propertyPaths (files : Files) (o : RunOptions) : List String :=
  match ChainFile.read files o.input, o.propertyDir with
  | .ok specs, some directory =>
    (specs.flatMap ElementSpec.names).flatMap fun name ↦
      Properties.extensions.map (Properties.pathOf directory name)
  | _, _ => []

end Session

end ChainPlan
