import ChainPlan.Plan
import ChainPlan.Proofs.ExhaustiveSearch
import ChainPlan.Proofs.Gathering
import ChainPlan.Proofs.LocalSearch
import Mathlib.Algebra.Order.Ring.Rat

/-! # Sides of a plan

A plan is cut from an order of its chain. The strategies keep pinned elements on their sides in
different ways: the placement of the marker refuses an order that does not, and the search of all
orders lets no such order take the lead. But that search starts with the lead on the chain itself
and never looks at its placement, so a chain with a wrong placement is cut as it is unless some
order with a valid one is cheaper.
-/

namespace ChainPlan

section

variable {K : Type} [Add K] [Sub K] [Mul K] [OfNat K 0] [OfNat K 1] [LT K] [DecidableLT K]

namespace Chain

/-- The order of a chain that is cut into the sides of its plan. -/
def arrange (options : PlanOptions K) (t : Traffic) (chain : Chain) : Except PlanError Chain :=
  match options.strategy with
  | .heuristic => do
    let ordered ← chain.reorder t options.level options.maxMoves
    ordered.gather
  | .exhaustive => chain.cheapest options.weights t options.level options.maxExhaustiveLength

variable {options : PlanOptions K} {t : Traffic} {chain split : Chain}

/-- To plan a chain is to arrange it and to cut the result. -/
theorem plan_eq_arrange (options : PlanOptions K) (t : Traffic) (chain : Chain) :
    chain.plan options t = (do return Plan.ofChain (← chain.arrange options t)) := by
  unfold plan arrange
  cases options.strategy with
  | heuristic => exact (bind_assoc _ _ _).symm
  | exhaustive => rfl

/-- The local search and the placement of the marker keep the elements, and end with a valid
placement. -/
theorem arrange_heuristic (hs : options.strategy = .heuristic)
    (h : chain.arrange options t = .ok split) :
    (chain.withTraces t).Perm split ∧ split.isPlaced = true := by
  rw [arrange, hs] at h
  obtain ⟨ordered, ho, hg⟩ := exists_of_bind_eq_ok h
  obtain ⟨hp, placed⟩ := perm_of_gather hg
  exact ⟨(reaches_of_reorder ho).2.perm.trans hp, placed⟩

/-- The search of all orders keeps the elements. It ends with a valid placement exactly if it starts
with one or a cheaper order takes the lead. -/
theorem arrange_exhaustive (hs : options.strategy = .exhaustive)
    (h : chain.arrange options t = .ok split) :
    (chain.withTraces t).Perm split ∧
      (split.isPlaced = true ↔
        chain.isPlaced = true ∨ chain.HasCheaper options.weights t options.level) := by
  rw [arrange, hs] at h
  rcases cheapest_cases h with ⟨hc, rfl⟩ | ⟨hc, hp, he⟩
  · refine ⟨.refl _, ?_⟩
    rw [isPlaced_withTraces, or_iff_left hc]
  · exact ⟨hp, iff_of_true (equivalent_eq_ok_true_iff.mp he).2.1 (.inr hc)⟩

/-- A plan is cut from an order of its chain. By the heuristic strategy the placement of the order
is valid, so that no element is on the side that it is not pinned to. By the exhaustive one it is so
exactly if the placement of the chain is, or some order that may stand for the chain is cheaper. -/
theorem plan_keeps_sites_iff {plan : Plan} (h : chain.plan options t = .ok plan) :
    ∃ split, chain.arrange options t = .ok split ∧ plan = Plan.ofChain split ∧
      (chain.withTraces t).Perm split ∧
      (split.isPlaced = true ↔ (options.strategy = .exhaustive →
        chain.isPlaced = true ∨ chain.HasCheaper options.weights t options.level)) ∧
      (split.isPlaced = true ↔
        (∀ e ∈ split.clientSide, e.site ≠ .server) ∧ ∀ e ∈ split.serverSide, e.site ≠ .client) := by
  rw [plan_eq_arrange] at h
  obtain ⟨split, ha, hp⟩ := exists_of_bind_eq_ok h
  cases hp
  refine ⟨split, ha, rfl, ?_⟩
  cases hs : options.strategy with
  | heuristic =>
    obtain ⟨hp, placed⟩ := arrange_heuristic hs ha
    exact ⟨hp, by simp [placed], isPlaced_iff_sides split⟩
  | exhaustive =>
    obtain ⟨hp, hi⟩ := arrange_exhaustive hs ha
    exact ⟨hp, by simpa using hi, isPlaced_iff_sides split⟩

end Chain

end

namespace Chain

/-- Elements on the wrong sides change places where this lets fewer messages through the network. -/
theorem plan_keeps_sites_iff_swapped :
    let cache := { Element.ofName "cache" with site := .server }
    let acl := { Element.onRequests "acl" { PathEffects.none with drop := true } with
      site := .client }
    let chain : Chain := [cache, .networkMarker, acl]
    let options : PlanOptions ℚ := ⟨.weak, .exhaustive, ⟨1, 1, 1 / 10, 5, 5⟩, 0, 3⟩
    let plan : Plan := ⟨some (acl.withTraces .request), some cache⟩
    chain.isPlaced = false ∧ chain.plan options .request = .ok plan ∧
      ∃ split, chain.arrange options .request = .ok split ∧ plan = Plan.ofChain split ∧
        (chain.withTraces .request).Perm split ∧
        (split.isPlaced = true ↔ (options.strategy = .exhaustive →
          chain.isPlaced = true ∨ chain.HasCheaper options.weights .request options.level)) ∧
        (split.isPlaced = true ↔ (∀ e ∈ split.clientSide, e.site ≠ .server) ∧
          ∀ e ∈ split.serverSide, e.site ≠ .client) := by
  intro cache acl chain options plan
  have h : chain.plan options .request = .ok plan := by
    rw [Chain.plan, Chain.cheapestPlan, cheapest, cheapestCounted, Criterion.indexed_eq]
    decide +kernel
  exact ⟨by decide, h, plan_keeps_sites_iff h⟩

/-- Elements on the wrong sides stay there where it costs the same. -/
theorem plan_exhaustive_keeps_misplaced :
    let cache := { Element.ofName "cache" with site := .server }
    let retry := { Element.ofName "retry" with site := .client }
    let chain : Chain := [cache, .networkMarker, retry]
    let options : PlanOptions ℚ := ⟨.weak, .exhaustive, ⟨1, 1, 1 / 10, 5, 5⟩, 10000, 8⟩
    chain.arrange options .request = .ok chain ∧
      chain.plan options .request = .ok ⟨some cache, some retry⟩ ∧ chain.isPlaced = false ∧
      ¬ ((∀ e ∈ chain.clientSide, e.site ≠ .server) ∧
        ∀ e ∈ chain.serverSide, e.site ≠ .client) := by
  intro cache retry chain options
  have h : chain.arrange options .request = .ok chain := by
    rw [arrange, cheapest, cheapestCounted, Criterion.indexed_eq]
    decide +kernel
  have placed : chain.isPlaced = false := by decide
  refine ⟨h, ?_, placed, ?_⟩
  · rw [plan_eq_arrange, h]
    rfl
  · rw [← isPlaced_iff_sides, placed]
    decide

end Chain

end ChainPlan
