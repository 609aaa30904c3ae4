import ChainPlan.Lineage

/-! # Equivalence of chains

A chain may stand for another if its placement is valid and, as the level asks, its reads and its
records observe the same writers. An oracle holds the lineage of the chain to be kept, so that many
candidates are compared with one reference.
-/

namespace ChainPlan

/-- A chain to be kept, as far as a level asks for it. -/
structure Oracle where
  traffic : Traffic
  level : Level
  /-- The lineage of the chain to be kept; the level `ignore` needs none. -/
  reference : Option Lineage

namespace Oracle

/-- The oracle of a chain. -/
def ofChain (chain : Chain) (t : Traffic) (level : Level) : Except PlanError Oracle :=
  match level with
  | .ignore => .ok ⟨t, level, none⟩
  | .weak | .strong => do
    let lineage ← Lineage.ofChain chain t
    return ⟨t, level, some lineage⟩

/-- Whether a lineage keeps a reference at a level. -/
def keeps (level : Level) (reference lineage : Lineage) : Bool :=
  match level with
  | .ignore => true
  | .weak => lineage.sameReads reference
  | .strong => lineage.sameReads reference && lineage.sameRecords reference

/-- Whether a candidate has a valid placement and keeps the reference. -/
def accepts (oracle : Oracle) (candidate : Chain) : Except PlanError Bool :=
  if candidate.isPlaced then
    match oracle.reference with
    | none => .ok true
    | some reference => do
      let lineage ← Lineage.ofChain candidate oracle.traffic
      return keeps oracle.level reference lineage
  else .ok false

end Oracle

/-- A way to tell, for a chain to be kept, which candidates may stand for it. -/
abbrev Criterion := Chain → Except PlanError (Chain → Except PlanError Bool)

/-- The criterion of a level on one kind of traffic: what the oracle of the chain accepts. -/
def Oracle.criterion (t : Traffic) (level : Level) : Criterion :=
  fun chain ↦ (Oracle.ofChain chain t level).map accepts

end ChainPlan
