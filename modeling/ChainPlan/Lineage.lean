import ChainPlan.OrderedMap
import ChainPlan.PlanError

/-! # Lineage

For every read in a chain, the lineage lists the writers that the read observes, oldest first. A
walk along the chain keeps the current writers of each field, all starting with the input. Each
element first notes the writers of what it reads and records, and then takes its place among the
writers of what it writes; if its partner is among them, the partner is taken out instead. At the
end the output reads every field.
-/

namespace ChainPlan

/-- What gave a field its value. -/
inductive Writer where
  /-- The message as it entered the chain. -/
  | input
  /-- The element of an identity. -/
  | element (identity : String)
  deriving DecidableEq, Repr

/-- What observes a field. -/
inductive Reader where
  /-- The element of an identity. -/
  | element (identity : String)
  /-- The message as it leaves the chain. -/
  | output
  deriving DecidableEq, Hashable, Repr

/-- The writers that each reader observes on each field. -/
abbrev LineageTable := OrderedMap (Reader × Field) (List Writer)

/-- The lineage tables of a chain on one kind of traffic. -/
structure Lineage where
  /-- What the reads observe, and the output. -/
  read : LineageTable
  /-- What the records observe. -/
  record : LineageTable
  deriving DecidableEq, Repr

namespace PathEffects

/-- The fields that the effects list, in the order read, write, record. -/
def listedFields (e : PathEffects) : List Field :=
  e.read.fields ++ e.write.fields ++ e.record.fields

/-- The first of the sets read, write, record that lists a field twice, with that field. -/
def firstDuplicate? (e : PathEffects) : Option (Access × Field) :=
  [Access.read, .write, .record].findSome? fun a ↦
    (e.fieldsOf a).firstRepeated?.map fun f ↦ (a, f)

end PathEffects

/-- The fields that a chain knows: the trace fields, then what its elements list, each once. -/
def Chain.knownFields (chain : Chain) (t : Traffic) : List Field :=
  (Field.traces ++ chain.flatMap fun e ↦ (e.on t).listedFields).foldl addNew []

/-- The first duplicate field of the chain, as an error. -/
def Chain.firstDuplicate? (chain : Chain) (t : Traffic) : Option PlanError :=
  chain.findSome? fun e ↦
    (e.on t).firstDuplicate?.map fun (access, field) ↦
      .duplicateField e.identity t access field

/-- The writers of a field after a write of an element. -/
def Element.credit (e : Element) (writers : List Writer) : List Writer :=
  match e.partner with
  | some p =>
    if .element p ∈ writers then writers.erase (.element p) else writers ++ [.element e.identity]
  | none => writers ++ [.element e.identity]

/-- The state of the walk along a chain: the current writers of each field, and the tables. -/
structure LineageWalk where
  writers : OrderedMap Field (List Writer)
  tables : Lineage

namespace LineageWalk

/-- The start of the walk: every known field comes from the input, and the tables are empty. -/
def start (known : List Field) : LineageWalk :=
  ⟨.ofKeys known fun _ ↦ [.input], ⟨.empty, .empty⟩⟩

/-- The current writers of a field. -/
def writersOf (w : LineageWalk) (f : Field) : List Writer := (w.writers.find? f).getD []

/-- The table with what a reader now observes on each of the fields. -/
def note (w : LineageWalk) (reader : Reader) (fields : List Field) (table : LineageTable) :
    LineageTable :=
  fields.foldl (fun t f ↦ t.insert (reader, f) (w.writersOf f)) table

/-- The walk after an element. -/
def visit (known : List Field) (t : Traffic) (w : LineageWalk) (e : Element) : LineageWalk where
  tables :=
    { read := w.note (.element e.identity) ((e.on t).read.expand known) w.tables.read
      record := w.note (.element e.identity) ((e.on t).record.expand known) w.tables.record }
  writers := ((e.on t).write.expand known).foldl (fun m f ↦ m.modify f e.credit) w.writers

/-- The tables at the end of the walk, where the output reads every known field. -/
def finish (known : List Field) (w : LineageWalk) : Lineage :=
  { w.tables with read := w.note .output known w.tables.read }

end LineageWalk

namespace Lineage

/-- The lineage of a chain whose sets list no field twice. -/
def trace (chain : Chain) (t : Traffic) : Lineage :=
  let known := chain.knownFields t
  (chain.foldl (LineageWalk.visit known t) (.start known)).finish known

/-- The lineage of a chain, or the first duplicate field. -/
def ofChain (chain : Chain) (t : Traffic) : Except PlanError Lineage :=
  match chain.firstDuplicate? t with
  | some error => .error error
  | none => .ok (trace chain t)

/-- Whether two chains with these lineages give every read the same writers. -/
def sameReads (a b : Lineage) : Bool := a.read.sameEntries b.read

/-- Whether two chains with these lineages give every record the same writers. -/
def sameRecords (a b : Lineage) : Bool := a.record.sameEntries b.record

end Lineage

end ChainPlan
