import ChainPlan.Effects
import ChainPlan.Handler.Alias
import ChainPlan.Handler.Scan

/-! # Summary of an element

The profile of an element from its definition. Sending the message itself or another name of it
passes it on; sending an alias derived from its data sends a copy; answering with an error drops it.
An error may be answered in any arm of a match, whatever its direction, since arms are not decided
here. A handler that sends no alias at all blocks.
-/

namespace ChainPlan

/-- The direction in which messages of a kind of traffic travel. -/
def Traffic.forward : Traffic → Direction
  | .request => .down
  | .response => .up

namespace Block

/-- The number of sends of a block whose message has one of the flat names. -/
def sendCount (names : List String) (b : Block) : Nat :=
  (b.sends.filter fun s ↦ names.contains s.1.flatName).length

/-- Whether a block may end the way of a message: it sends one of the names in the direction, or
an error inside an arm of a match. -/
def mayDrop (names : List String) (direction : Direction) (b : Block) : Bool :=
  (b.sends.any fun s ↦ s.2 = direction && names.contains s.1.flatName) ||
    b.innerSends.any fun s ↦ s.1.isError

/-- Whether a block calls a random source anywhere. -/
def drawsRandom (options : AnalysisOptions) (b : Block) : Bool :=
  b.exprs.any fun e ↦ e.callees.any options.isRandomSource

end Block

/-- The set of the accessed fields, each once; every field has a name. -/
def collectFields (set : String) (fields : List Field) : Except Problem FieldSet :=
  if fields.any String.isEmpty then .error (.emptyField set) else .ok (.ofFields fields)

/-- The effects of a handler that is not made of placeholders alone. -/
def Block.activeEffects (element : String) (t : Traffic) (options : AnalysisOptions) (b : Block) :
    Except Problem PathEffects := do
  let aliases ← Aliases.ofBlock options.message b
  let reads ← (readScan aliases.names b.exprs).toExcept
  let writes ← (writeScan aliases.names aliases.renames b.exprs).toExcept
  let drops := b.mayDrop [errorName] t.forward.reverse
  let read ← collectFields "read" (allReadFields aliases.names reads)
  let write ← collectFields "write" (allWrittenFields aliases.names writes)
  let recorder := options.isRecorder element
  return {
    read := if recorder then .empty else read
    write
    record := if recorder then read else .empty
    drop := drops
    block := b.sendCount aliases.names == 0
    copy := decide (0 < b.sendCount aliases.derived)
    probabilistic := drops && b.drawsRandom options }

/-- The effects of a handler on its kind of traffic. -/
def Block.effects (element : String) (t : Traffic) (options : AnalysisOptions) (b : Block) :
    Except Problem PathEffects :=
  if b.all Stmt.isPlaceholder then .ok .none else b.activeEffects element t options

/-- A cause for which an element has no profile. -/
inductive SummaryError where
  /-- A handler cannot be analysed. -/
  | handler (element : String) (traffic : Traffic) (cause : Problem)
  /-- A state variable cannot be analysed. -/
  | state (element : String) (cause : Problem)
  deriving DecidableEq, Repr

namespace SummaryError

/-- The wording of the place of the error. -/
def message : SummaryError → String
  | .handler element traffic _ => s!"in element \x60{element}\x60 ({Spelled.name traffic} path)"
  | .state element _ => s!"in the state of element \x60{element}\x60"

/-- What is wrong at that place. -/
def cause : SummaryError → Problem
  | .handler _ _ cause => cause
  | .state _ cause => cause

end SummaryError

namespace Program

/-- The handler of a kind of traffic. -/
def handler (p : Program) : Traffic → Block
  | .request => p.request
  | .response => p.response

/-- What an element needs of its state, which its first state variable tells. -/
def stateNeeds (p : Program) : Except Problem ElementState :=
  match p.state with
  | [] => .ok .stateless
  | v :: _ =>
    match (Spelled.ofText? v.consistency : Option Consistency) with
    | some consistency => .ok ⟨true, consistency, v.combiner, .none, v.persistence⟩
    | none => .error (.unknownConsistency v.name v.consistency)

/-- The effects of an element on one kind of traffic. -/
def effectsOn (p : Program) (options : AnalysisOptions) (t : Traffic) :
    Except SummaryError PathEffects :=
  match (p.handler t).effects p.name t options with
  | .ok effects => .ok effects
  | .error problem => .error (.handler p.name t problem)

/-- The profile of an element: its state, then its requests, then its responses. -/
def profile (p : Program) (options : AnalysisOptions) : Except SummaryError Profile := do
  let state ←
    match p.stateNeeds with
    | .ok state => .ok state
    | .error problem => .error (.state p.name problem)
  let request ← p.effectsOn options .request
  let response ← p.effectsOn options .response
  return ⟨state, ⟨request, response⟩⟩

end Program

end ChainPlan
