import ChainPlan.FieldSet
import ChainPlan.Settings

/-! # Effects of an element

What an element does to the messages of each kind of traffic, what it needs of its state, and how
these combine when elements are fused. `PathEffects.withTraces` notes dropping, blocking and
copying as writes of trace fields, and recording as records of them, so that lineage tables show
them like any other access.
-/

namespace ChainPlan

/-- What an element does to one kind of traffic. -/
structure PathEffects where
  /-- The fields whose values decide what the element does. -/
  read : FieldSet
  /-- The fields that the element overwrites. -/
  write : FieldSet
  /-- The fields that the element observes without acting on them. -/
  record : FieldSet
  /-- The element may end the way of a message by answering with an error. -/
  drop : Bool
  /-- The element never passes a message on. -/
  block : Bool
  /-- The element sends a second message made of the first. -/
  copy : Bool
  /-- A drop hangs on a random draw. -/
  probabilistic : Bool
  deriving DecidableEq, Repr

namespace PathEffects

/-- The effects of an element that passes every message on as it is. -/
def none : PathEffects := ⟨.empty, .empty, .empty, false, false, false, false⟩

instance : Inhabited PathEffects := ⟨none⟩

/-- Whether the element may stop a message. -/
def stops (e : PathEffects) : Bool := e.drop || e.block

/-- Whether the element does nothing at all. -/
def isNone (e : PathEffects) : Bool := e = none

/-- The write set with the trace fields of what the element does. -/
def tracedWrite (e : PathEffects) : FieldSet :=
  let write := if e.drop then e.write.insert Field.dropTrace else e.write
  let write := if e.block then write.insert Field.blockTrace else write
  if e.copy then write.insert Field.copyTrace else write

/-- The record set with every trace field, if the element records anything. -/
def tracedRecord (e : PathEffects) : FieldSet :=
  if e.record.isEmpty then e.record else Field.traces.foldl FieldSet.insert e.record

/-- The effects with the trace fields that they imply. -/
def withTraces (e : PathEffects) : PathEffects :=
  { e with write := e.tracedWrite, record := e.tracedRecord }

/-- The effects of two elements run one after the other. -/
def merge (a b : PathEffects) : PathEffects where
  read := a.read.union b.read
  write := a.write.union b.write
  record := a.record.union b.record
  drop := a.drop || b.drop
  block := a.block || b.block
  copy := a.copy || b.copy
  probabilistic := a.probabilistic || b.probabilistic

end PathEffects

/-- The effects of an element on both kinds of traffic. -/
structure Effects where
  request : PathEffects
  response : PathEffects
  deriving DecidableEq, Repr

namespace Effects

/-- No effect on either kind of traffic. -/
def none : Effects := ⟨.none, .none⟩

instance : Inhabited Effects := ⟨none⟩

/-- The effects on one kind of traffic. -/
def on (e : Effects) : Traffic → PathEffects
  | .request => e.request
  | .response => e.response

/-- The effects with those on one kind of traffic changed. -/
def mapOn (e : Effects) (t : Traffic) (f : PathEffects → PathEffects) : Effects :=
  match t with
  | .request => { e with request := f e.request }
  | .response => { e with response := f e.response }

/-- The effects of two elements run one after the other. -/
def merge (a b : Effects) : Effects := ⟨a.request.merge b.request, a.response.merge b.response⟩

@[simp] theorem on_mapOn_self (e : Effects) (t : Traffic) (f : PathEffects → PathEffects) :
    (e.mapOn t f).on t = f (e.on t) := by
  cases t <;> rfl

theorem on_mapOn_ne (e : Effects) {t u : Traffic} (h : u ≠ t) (f : PathEffects → PathEffects) :
    (e.mapOn t f).on u = e.on u := by
  cases t <;> cases u <;> first | rfl | exact absurd rfl h

@[simp] theorem on_merge (a b : Effects) (t : Traffic) :
    (a.merge b).on t = (a.on t).merge (b.on t) := by
  cases t <;> rfl

end Effects

/-- What an element needs of its state. -/
structure ElementState where
  stateful : Bool
  consistency : Consistency
  /-- How updates made at the same time are combined. -/
  combiner : String
  /-- Where strongly consistent state is replicated. -/
  replica : Replica
  /-- What happens to the state over a restart. -/
  persistence : String
  deriving DecidableEq, Repr

namespace ElementState

/-- The combiner of state that names none: the last writer wins. -/
def standardCombiner : String := "LWW"

/-- The persistence of state that names none. -/
def standardPersistence : String := "ephemeral"

/-- The needs of an element without state. -/
def stateless : ElementState :=
  ⟨false, .eventual, standardCombiner, .none, standardPersistence⟩

instance : Inhabited ElementState := ⟨stateless⟩

/-- Whether the state has to be strongly consistent. -/
def isStrong (s : ElementState) : Bool := s.consistency = .strong

/-- The needs of two fused elements: the strong one of them decides where the replica is. -/
def merge (a b : ElementState) : ElementState :=
  let both := { a with stateful := a.stateful || b.stateful }
  if b.isStrong && !a.isStrong then
    { both with consistency := b.consistency, replica := b.replica }
  else both

@[simp] theorem stateful_merge (a b : ElementState) :
    (a.merge b).stateful = (a.stateful || b.stateful) := by
  unfold merge
  split <;> rfl

/-- Strong consistency wins. -/
@[simp] theorem isStrong_merge (a b : ElementState) :
    (a.merge b).isStrong = (a.isStrong || b.isStrong) := by
  unfold merge
  cases ha : a.isStrong <;> cases hb : b.isStrong <;> simp_all [isStrong]

/-- The replica stays where the first state has it, unless only the second one is strong. -/
theorem replica_merge (a b : ElementState) :
    (a.merge b).replica = if b.isStrong && !a.isStrong then b.replica else a.replica := by
  unfold merge
  split <;> rfl

@[simp] theorem combiner_merge (a b : ElementState) : (a.merge b).combiner = a.combiner := by
  unfold merge
  split <;> rfl

@[simp] theorem persistence_merge (a b : ElementState) :
    (a.merge b).persistence = a.persistence := by
  unfold merge
  split <;> rfl

end ElementState

/-- All that a planner has to know of an element. -/
structure Profile where
  state : ElementState
  effects : Effects
  deriving DecidableEq, Repr

instance : Inhabited Profile := ⟨⟨default, default⟩⟩

end ChainPlan
