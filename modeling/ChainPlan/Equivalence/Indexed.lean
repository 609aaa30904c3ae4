import ChainPlan.Equivalence
import ChainPlan.Lineage.Index

/-! # Equivalence by indexed lineages

A search compares very many candidates with one chain, so it compares indexed lineages. The main
statement is `Criterion.indexed_eq`: the criterion by indexed lineages is the one by oracles.
-/

namespace ChainPlan

namespace LineageIndex

/-- Whether a lineage keeps a reference at a level. -/
def keeps (level : Level) (reference lineage : LineageIndex) : Bool :=
  match level with
  | .ignore => true
  | .weak => lineage.read.sameEntries reference.read
  | .strong =>
    lineage.read.sameEntries reference.read && lineage.record.sameEntries reference.record

/-- Whether a candidate has a valid placement and keeps a reference at a level. -/
def accepts (t : Traffic) (level : Level) (reference : LineageIndex)
    (candidate : Chain) : Except PlanError Bool :=
  if candidate.isPlaced then (ofChain candidate t).map (keeps level reference) else .ok false

end LineageIndex

/-- The criterion of a level on one kind of traffic, by indexed lineages. -/
def Criterion.indexed (t : Traffic) (level : Level) : Criterion :=
  fun chain ↦
    match level with
    | .ignore => .ok fun candidate ↦ .ok candidate.isPlaced
    | .weak | .strong => (LineageIndex.ofChain chain t).map (LineageIndex.accepts t level)

namespace LineageIndex

/-- Indexed lineages give the same verdicts as the tables. -/
theorem keeps_eq (level : Level) (a b : Chain) (t : Traffic) :
    keeps level (trace a t) (trace b t) =
      Oracle.keeps level (Lineage.trace a t) (Lineage.trace b t) := by
  have ha := trace_indexes a t
  have hb := trace_indexes b t
  have hr : (trace b t).read.sameEntries (trace a t).read =
      (Lineage.trace b t).sameReads (Lineage.trace a t) := hb.1.sameEntries_eq ha.1
  have hc : (trace b t).record.sameEntries (trace a t).record =
      (Lineage.trace b t).sameRecords (Lineage.trace a t) := hb.2.sameEntries_eq ha.2
  cases level
  · rfl
  · exact hr
  · rw [keeps, Oracle.keeps, hr, hc]

/-- A candidate is judged as by the oracle of the chain. -/
theorem accepts_eq (t : Traffic) (level : Level) (chain candidate : Chain) :
    accepts t level (trace chain t) candidate =
      Oracle.accepts ⟨t, level, some (Lineage.trace chain t)⟩ candidate := by
  rw [accepts, Oracle.accepts, ofChain_eq, Lineage.ofChain]
  cases candidate.isPlaced
  · rfl
  · cases candidate.firstDuplicate? t
    · simp only [Except.map, if_true, keeps_eq]
      rfl
    · rfl

end LineageIndex

/-- The criterion by indexed lineages is the one by oracles. -/
theorem Criterion.indexed_eq (t : Traffic) (level : Level) :
    Criterion.indexed t level = Oracle.criterion t level := by
  funext chain
  have accepts_eq (level : Level) :
      LineageIndex.accepts t level (.trace chain t) =
        Oracle.accepts ⟨t, level, some (Lineage.trace chain t)⟩ :=
    funext (LineageIndex.accepts_eq t level chain)
  cases level
  · have (candidate : Chain) :
        .ok candidate.isPlaced = Oracle.accepts ⟨t, .ignore, none⟩ candidate := by
      rw [Oracle.accepts]
      cases candidate.isPlaced <;> rfl
    simp only [indexed, this]
    rfl
  all_goals
    simp only [indexed, Oracle.criterion, Oracle.ofChain, LineageIndex.ofChain_eq, Lineage.ofChain]
    cases chain.firstDuplicate? t
    · simp only [Except.map, accepts_eq]
      rfl
    · rfl

/-- Whether one chain may stand for another on one kind of traffic at a level. -/
def equivalent (chain candidate : Chain) (t : Traffic) (level : Level) : Except PlanError Bool := do
  let accepts ← Criterion.indexed t level chain
  accepts candidate

/-- One chain may stand for another if its oracle accepts the other. -/
theorem equivalent_eq (chain candidate : Chain) (t : Traffic) (level : Level) :
    equivalent chain candidate t level =
      (do (← Oracle.ofChain chain t level).accepts candidate) := by
  rw [equivalent, Criterion.indexed_eq, Oracle.criterion]
  cases Oracle.ofChain chain t level <;> rfl

end ChainPlan
