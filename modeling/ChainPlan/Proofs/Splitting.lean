import ChainPlan.Proofs.Consolidation
import ChainPlan.Proofs.Gathering

/-! # Splitting a chain

A plan is cut at the first marker of its chain, and at the end of a chain without one. Each side
that holds anything becomes one element, and this element has all that the elements of the side
have: nothing is lost, and nothing comes from the other side.
-/

namespace ChainPlan

/-- The chain is cut into its sides at its first marker; without one, all of it is the first. -/
inductive Chain.Splits : Chain → Chain → Chain → Prop where
  | unmarked {chain : Chain} (h : chain.LacksMarker) : Splits chain chain []
  | marked {before after : Chain} {marker : Element} (hb : before.LacksMarker)
    (hm : marker.isNetwork = true) : Splits (before ++ marker :: after) before after

/-- What is deployed for a side: nothing if the side is empty, and else one element that is made of
all its elements. -/
inductive Chain.Deploys : Chain → Option Element → Prop where
  | nothing : Deploys [] none
  | element {side : Chain} {e : Element} (nonempty : side ≠ []) (joins : e.Joins side) :
    Deploys side (some e)

namespace Chain

/-- An element in front that is no marker belongs to the first side. -/
theorem Splits.cons {chain before after : Chain} (h : chain.Splits before after) {e : Element}
    (he : e.isNetwork = false) : Splits (e :: chain) (e :: before) after := by
  cases h with
  | unmarked h =>
    apply Splits.unmarked
    exact List.forall_mem_cons.mpr ⟨he, h⟩
  | @marked before after marker hb hm =>
    have hb' : LacksMarker (e :: before) := List.forall_mem_cons.mpr ⟨he, hb⟩
    exact .marked hb' hm

/-- The sides of a chain are what it is cut into. -/
theorem splits_sides (chain : Chain) : chain.Splits chain.clientSide chain.serverSide := by
  induction chain with
  | nil => exact .unmarked (by simp [LacksMarker])
  | cons e rest ih =>
    rw [clientSide_cons, serverSide_cons]
    cases he : e.isNetwork with
    | true =>
      have hb : LacksMarker [] := by simp [LacksMarker]
      exact .marked hb he
    | false => exact ih.cons he

/-- A side is deployed as the element that it is consolidated to. -/
theorem deploys_consolidate (side : Chain) : side.Deploys side.consolidate := by
  cases h : side.consolidate with
  | none =>
    cases side with
    | nil => exact .nothing
    | cons first rest => cases h
  | some e =>
    apply Deploys.element _ (joins_consolidate h)
    rintro rfl
    cases h

end Chain

/-- A plan deploys what stands before the first marker of its chain on the client and what stands
behind it on the server, and each side as one element made of all its elements. -/
theorem Plan.ofChain_deploys (chain : Chain) :
    ∃ client server, chain.Splits client server ∧
      client.Deploys (Plan.ofChain chain).client ∧ server.Deploys (Plan.ofChain chain).server :=
  ⟨chain.clientSide, chain.serverSide, chain.splits_sides,
    chain.clientSide.deploys_consolidate, chain.serverSide.deploys_consolidate⟩

end ChainPlan
