import ChainPlan.Proofs.Optimum
import ChainPlan.Proofs.Planning

/-! # The two strategies

Each move of the local search is judged against the chain before it, and the marker is placed when
the search is over. What comes out is still an order that may stand for the chain searched, and so
one of those that the search of all orders looks at. That search ends with nothing dearer.
-/

namespace ChainPlan

namespace Chain

variable {t : Traffic} {level : Level} {chain ordered gathered : Chain} {maxMoves : Nat}

/-- What the local search and the placement of the marker end with may stand for the chain. -/
theorem standIn_of_gather (placed : chain.isPlaced = true)
    (single : (chain.filter Element.isNetwork).length = 1)
    (idle : ∀ e ∈ chain, e.isNetwork = true → e.on t = .none)
    (ho : chain.reorder t level maxMoves = .ok ordered) (hg : ordered.gather = .ok gathered) :
    (chain.withTraces t).StandIn t level gathered := by
  have hs := standIn_of_reorder placed ho
  obtain ⟨before, marker, after, rfl, hm, hb, ha, hi⟩ := exists_idle_split single idle hs.1
  obtain ⟨before', after', hg', -, -, hs'⟩ := hs.exists_gather hm hb ha hi
  rw [hg'] at hg
  cases hg
  exact hs'

section

variable {K : Type} [Add K] [Sub K] [Mul K] [OfNat K 0] [OfNat K 1] [LinearOrder K]

/-- The search of all orders of a chain that is not too long ends with one of them, and no order
that may stand for the chain costs less, whether or not the chain may stand for itself. -/
theorem exists_least {limit : Nat} (weights : Weights K)
    (hc : (chain.withTraces t).Comparable level t) (hn : chain.any Element.isNetwork = true)
    (hl : chain.length ≤ limit) :
    ∃ best, chain.cheapest weights t level limit = .ok best ∧ (chain.withTraces t).Perm best ∧
      ∀ candidate, (chain.withTraces t).StandIn t level candidate →
        best.costOf weights t ≤ candidate.costOf weights t := by
  obtain ⟨lead, he, hk⟩ := exists_cheapestCounted weights
    (P := fun done lead ↦ lead.Knows weights t level (chain.withTraces t)
      (chain.costOf weights t) done)
    hc hn hl ⟨rfl, rfl, .inl ⟨rfl, rfl, by simp⟩⟩
    fun done lead next indices hp _ h ↦ hp.concat h
  have hb : chain.cheapest weights t level limit = .ok lead.chain := congrArg Prod.snd he
  refine ⟨lead.chain, hb, ?_, fun candidate hs ↦ ?_⟩
  · rcases cheapest_cases hb with ⟨-, hk⟩ | ⟨-, hs⟩
    · rw [hk]
    · exact hs.1
  · obtain ⟨indices, hm, rfl⟩ := exists_inOrder_eq hs.1
    rw [← hk.leads.cost_eq (costOf_withTraces weights t chain).symm]
    exact hk.leads.cost_le.2 indices hm hs

/-- Wherever the local search and the placement of the marker end with a chain, the search of all
orders ends with one that costs no more, if the chain is not too long for it. -/
theorem exists_cheapest_le_gathered {limit : Nat} (weights : Weights K)
    (placed : chain.isPlaced = true) (single : (chain.filter Element.isNetwork).length = 1)
    (idle : ∀ e ∈ chain, e.isNetwork = true → e.on t = .none) (hl : chain.length ≤ limit)
    (ho : chain.reorder t level maxMoves = .ok ordered) (hg : ordered.gather = .ok gathered) :
    ∃ best least price, chain.cheapest weights t level limit = .ok best ∧
      best.cost weights t = .ok least ∧ gathered.cost weights t = .ok price ∧ least ≤ price := by
  have hs : (chain.withTraces t).StandIn t level gathered :=
    standIn_of_gather placed single idle ho hg
  have hn : chain.any Element.isNetwork = true := by
    obtain ⟨before, marker, after, rfl, hm, -⟩ := exists_marker_split single
    simp [hm]
  have hn' : (chain.withTraces t).any Element.isNetwork = true := by simpa using hn
  obtain ⟨best, hb, hp, least⟩ := exists_least weights (reaches_of_reorder ho).1 hn hl
  exact ⟨best, _, _, hb, cost_perm weights hn' hp, cost_perm weights hn' hs.1, least gathered hs⟩

end

/-- Strongly consistent state with its replica on the server costs extra on the client side, where
the placement of the marker leaves it and the search of all orders does not. -/
theorem exists_cheapest_le_gathered_replica :
    let cache := { Element.ofName "cache" with
      state := { ElementState.stateless with consistency := .strong, replica := .server } }
    let chain : Chain := [.networkMarker, cache]
    let gathered : Chain := [cache, .networkMarker]
    let weights : Weights ℚ := ⟨1, 1, 1 / 10, 5, 5⟩
    chain.isPlaced = true ∧ (chain.filter Element.isNetwork).length = 1 ∧
      (∀ e ∈ chain, e.isNetwork = true → e.on .request = .none) ∧ chain.length ≤ 2 ∧
      chain.reorder .request .strong 0 = .ok chain ∧ chain.gather = .ok gathered ∧
      gathered.cost weights .request = .ok 12 ∧
      chain.cheapest weights .request .strong 2 = .ok chain ∧
      chain.cost weights .request = .ok 7 ∧
      ∃ best least price, chain.cheapest weights .request .strong 2 = .ok best ∧
        best.cost weights .request = .ok least ∧ gathered.cost weights .request = .ok price ∧
        least ≤ price := by
  intro cache chain gathered weights
  have placed : chain.isPlaced = true := by decide
  have single : (chain.filter Element.isNetwork).length = 1 := by decide
  have idle : ∀ e ∈ chain, e.isNetwork = true → e.on .request = .none := by decide
  have hl : chain.length ≤ 2 := by decide
  have ho : chain.reorder .request .strong 0 = .ok chain := by
    rw [reorder, reorderCounted, Criterion.indexed_eq]
    decide +kernel
  have hg : chain.gather = .ok gathered := by decide
  have hb : chain.cheapest weights .request .strong 2 = .ok chain := by
    rw [cheapest, cheapestCounted, Criterion.indexed_eq]
    decide +kernel
  exact ⟨placed, single, idle, hl, ho, hg, by decide +kernel, hb, by decide +kernel,
    exists_cheapest_le_gathered weights placed single idle hl ho hg⟩

end Chain

end ChainPlan
