import ChainPlan.Proofs.ExhaustiveSearch
import Mathlib.Algebra.Order.Ring.Rat

/-! # The optimum of a chain

Trace fields cost nothing, so the searched chain may be compared with its orders by cost. At any
time the lead is with the chain itself, or with the first of the cheapest orders looked at so far
that may stand for it. The numbers are those of any linear order.
-/

namespace ChainPlan

/-! ### Costs of traced chains -/

section

variable {K : Type} [Add K] [Sub K] [Mul K] [OfNat K 0] [OfNat K 1]

namespace Chain

theorem clientSide_withTraces (t : Traffic) (chain : Chain) :
    (chain.withTraces t).clientSide = chain.clientSide.withTraces t := by
  rw [clientSide, clientSide, withTraces, withTraces, List.takeWhile_map]
  rfl

theorem serverSide_withTraces (t : Traffic) (chain : Chain) :
    (chain.withTraces t).serverSide = chain.serverSide.withTraces t := by
  rw [serverSide, serverSide, withTraces, withTraces, List.dropWhile_map, ← List.map_drop]
  rfl

theorem lacksReplica_withTraces (t : Traffic) (side : Chain) (here : Replica) :
    (side.withTraces t).lacksReplica here = side.lacksReplica here := by
  rw [lacksReplica, lacksReplica, withTraces, List.any_map]
  rfl

theorem trafficCost_withTraces (weights : Weights K) (t : Traffic) (chain : Chain) :
    (chain.withTraces t).trafficCost weights t = chain.trafficCost weights t := by
  have hp (flow : Flow K) (e : Element) :
      flow.pass weights t (e.withTraces t) = flow.pass weights t e := by
    simp only [Flow.pass, Element.isNetwork_withTraces, Element.on_withTraces]
    rfl
  simp only [trafficCost, withTraces, List.foldl_map, hp]

/-- Trace fields cost nothing. -/
theorem costOf_withTraces (weights : Weights K) (t : Traffic) (chain : Chain) :
    (chain.withTraces t).costOf weights t = chain.costOf weights t := by
  have isEmpty_withTraces (side : Chain) : (side.withTraces t).isEmpty = side.isEmpty := by
    cases side <;> rfl
  simp only [costOf, addDeployCost, addStrongCost, clientSide_withTraces, serverSide_withTraces,
    lacksReplica_withTraces, trafficCost_withTraces, isEmpty_withTraces]

end Chain

end

/-! ### The lead -/

section

variable {α K : Type} [LinearOrder K]

/-- A member is the first of the cheapest of a list that are accepted. -/
structure IsFirstLeast (accepted : α → Prop) (price : α → K) (xs : List α) (x : α) : Prop where
  holds : accepted x
  split : ∃ before after, xs = before ++ x :: after ∧
    ∀ y ∈ before, accepted y → price x < price y
  least : ∀ y ∈ xs, accepted y → price x ≤ price y

variable {accepted : α → Prop} {price : α → K} {xs : List α} {x y : α}

theorem IsFirstLeast.mem (h : IsFirstLeast accepted price xs x) : x ∈ xs := by
  obtain ⟨before, after, rfl, -⟩ := h.split
  simp

/-- One more member that is no cheaper leaves the first of the cheapest where it is. -/
theorem IsFirstLeast.concat (h : IsFirstLeast accepted price xs x)
    (hy : accepted y → price x ≤ price y) : IsFirstLeast accepted price (xs ++ [y]) x := by
  obtain ⟨before, after, rfl, hb⟩ := h.split
  refine ⟨h.holds, ⟨before, after ++ [y], by simp, hb⟩, ?_⟩
  intro z hz
  rcases List.mem_append.mp hz with hz | hz
  · exact h.least z hz
  · rw [List.mem_singleton.mp hz]
    exact hy

/-- One more member that is accepted and cheaper than all others is the first of the cheapest. -/
theorem IsFirstLeast.of_lt (hy : accepted y) (hx : ∀ x ∈ xs, accepted x → price y < price x) :
    IsFirstLeast accepted price (xs ++ [y]) y := by
  refine ⟨hy, ⟨xs, [], rfl, hx⟩, ?_⟩
  intro z hz ha
  rcases List.mem_append.mp hz with hz | hz
  · exact (hx z hz ha).le
  · rw [List.mem_singleton.mp hz]

/-- In a sorted list, the others of the same price come later. -/
theorem IsFirstLeast.eq_or_rel {r : α → α → Prop} (h : IsFirstLeast accepted price xs x)
    (hr : xs.Pairwise r) (hm : y ∈ xs) (hy : accepted y) (hp : price y = price x) :
    x = y ∨ r x y := by
  obtain ⟨before, after, rfl, hb⟩ := h.split
  rcases List.mem_append.mp hm with hm | hm
  · exact absurd hp (hb y hm hy).ne'
  · rcases List.mem_cons.mp hm with rfl | hm
    · exact .inl rfl
    · exact .inr (List.rel_of_pairwise_cons (List.pairwise_append.mp hr).2.1 hm)

end

section

variable {K : Type} [Add K] [Sub K] [Mul K] [OfNat K 0] [OfNat K 1] [LinearOrder K]

/-- When some orders of a chain have been looked at, either the chain has kept the lead with its
start cost, because none of them that may stand for it is cheaper, or the first of the cheapest of
them has it. -/
def Lead.Leads (weights : Weights K) (t : Traffic) (level : Level) (chain : Chain) (start : K)
    (done : List (List Nat)) (lead : Lead K) : Prop :=
  (lead.chain = chain ∧ lead.cost = start ∧ ∀ indices ∈ done,
    chain.StandIn t level (chain.inOrder indices) →
      start ≤ (chain.inOrder indices).costOf weights t) ∨
  ∃ best, lead.chain = chain.inOrder best ∧
    lead.cost = (chain.inOrder best).costOf weights t ∧ lead.cost < start ∧
    IsFirstLeast (fun indices ↦ chain.StandIn t level (chain.inOrder indices))
      (fun indices ↦ (chain.inOrder indices).costOf weights t) done best

/-- What is known of the state of the search when some orders of a chain have been looked at: how
many they are, how many of them may stand for the chain, and who leads. -/
structure Lead.Knows (weights : Weights K) (t : Traffic) (level : Level) (chain : Chain) (start : K)
    (done : List (List Nat)) (lead : Lead K) : Prop where
  permutations : lead.permutations = done.length
  equivalent : lead.equivalent =
    done.countP fun indices ↦ chain.StandIn t level (chain.inOrder indices)
  leads : lead.Leads weights t level chain start done

variable {weights : Weights K} {t : Traffic} {level : Level} {chain : Chain} {start : K}
  {done : List (List Nat)} {lead after : Lead K} {indices : List Nat}

/-- The lead costs no more than the start and than the orders looked at. -/
theorem Lead.Leads.cost_le (h : lead.Leads weights t level chain start done) :
    lead.cost ≤ start ∧ ∀ others ∈ done, chain.StandIn t level (chain.inOrder others) →
      lead.cost ≤ (chain.inOrder others).costOf weights t := by
  rcases h with ⟨-, hc, hd⟩ | ⟨best, -, hc, hs, hb⟩
  · rw [hc]
    exact ⟨le_refl start, hd⟩
  · rw [hc] at hs ⊢
    exact ⟨hs.le, hb.least⟩

/-- The lead costs what its chain costs. -/
theorem Lead.Leads.cost_eq (h : lead.Leads weights t level chain start done)
    (hs : start = chain.costOf weights t) : lead.cost = lead.chain.costOf weights t := by
  rcases h with ⟨hl, hc, -⟩ | ⟨best, hl, hc, -⟩
  · rw [hl, hc, hs]
  · rw [hl, hc]

/-- The lead may stand for a chain that may stand for itself. -/
theorem Lead.Leads.stands (h : lead.Leads weights t level chain start done)
    (hs : chain.StandIn t level chain) : chain.StandIn t level lead.chain := by
  rcases h with ⟨hl, -⟩ | ⟨best, hl, -, -, hb⟩
  · rw [hl]
    exact hs
  · rw [hl]
    exact hb.holds

/-- An order that is no cheaper does not take the lead. -/
theorem Lead.Leads.concat (h : lead.Leads weights t level chain start done)
    (hi : chain.StandIn t level (chain.inOrder indices) →
      lead.cost ≤ (chain.inOrder indices).costOf weights t) :
    lead.Leads weights t level chain start (done ++ [indices]) := by
  rcases h with ⟨hl, hc, hd⟩ | ⟨best, hl, hc, hs, hb⟩
  · refine .inl ⟨hl, hc, fun others hm ↦ ?_⟩
    rcases List.mem_append.mp hm with hm | hm
    · exact hd others hm
    · rw [List.mem_singleton.mp hm, ← hc]
      exact hi
  · exact .inr ⟨best, hl, hc, hs, hb.concat (hc ▸ hi)⟩

/-- One more order keeps up what is known of the lead. -/
theorem Lead.Knows.concat (h : lead.Knows weights t level chain start done)
    (hn : lead.Next weights t level chain (chain.inOrder indices) after) :
    after.Knows weights t level chain start (done ++ [indices]) := by
  cases hn with
  | refused hs =>
    refine ⟨by simp [h.permutations], by simp [h.equivalent, hs], h.leads.concat fun hs' ↦ ?_⟩
    exact absurd hs' hs
  | passed hs hc =>
    refine ⟨by simp [h.permutations], by simp [h.equivalent, hs], h.leads.concat fun _ ↦ ?_⟩
    exact not_lt.mp hc
  | taken hs hc =>
    obtain ⟨hl, hd⟩ := h.leads.cost_le
    refine ⟨by simp [h.permutations], by simp [h.equivalent, hs], .inr ⟨indices, rfl, rfl, ?_, ?_⟩⟩
    · exact lt_of_lt_of_le hc hl
    · exact .of_lt hs fun others hm ha ↦ lt_of_lt_of_le hc (hd others hm ha)

/-! ### The result -/

/-- What a search of all orders of a chain is to find, and the numbers it is to report. -/
structure Chain.Optimum (weights : Weights K) (t : Traffic) (level : Level) (chain : Chain)
    (stats : SearchStats K) (best : Chain) : Prop where
  /-- The start cost is that of the chain. -/
  startCost : chain.cost weights t = .ok stats.startCost
  /-- The best cost is that of the chain found. -/
  bestCost : best.cost weights t = .ok stats.bestCost
  bestCost_le : stats.bestCost ≤ stats.startCost
  /-- The chain found is an order that may stand for the chain. -/
  stands : (chain.withTraces t).StandIn t level best
  /-- No order that may stand for the chain costs less. -/
  least : ∀ candidate price, (chain.withTraces t).StandIn t level candidate →
    candidate.cost weights t = .ok price → stats.bestCost ≤ price
  /-- The chain itself is found if no such order is cheaper. -/
  kept : (∀ candidate price, (chain.withTraces t).StandIn t level candidate →
    candidate.cost weights t = .ok price → stats.startCost ≤ price) → best = chain.withTraces t
  /-- Otherwise, of all such orders of the least cost the first in lexicographic order is found. -/
  first : (∃ candidate price, (chain.withTraces t).StandIn t level candidate ∧
      candidate.cost weights t = .ok price ∧ price < stats.startCost) →
    ∃ indices, (List.range chain.length).Perm indices ∧
      (chain.withTraces t).inOrder indices = best ∧
      ∀ others, (List.range chain.length).Perm others →
        (chain.withTraces t).StandIn t level ((chain.withTraces t).inOrder others) →
        ((chain.withTraces t).inOrder others).cost weights t = .ok stats.bestCost →
        indices = others ∨ indices < others
  /-- Every order of the positions is looked at. -/
  permutations : stats.permutations = chain.length.factorial
  /-- Every order of the positions that may stand for the chain is counted. -/
  equivalent : stats.equivalent = (List.range chain.length).permutations.countP fun indices ↦
    (chain.withTraces t).StandIn t level ((chain.withTraces t).inOrder indices)

/-- The search of all orders finds the cheapest chain that may stand for the searched one: the chain
itself, or else the first order in lexicographic order. -/
theorem Chain.exists_optimum {limit : Nat} (weights : Weights K)
    (hc : chain.Comparable level t) (placed : chain.isPlaced = true)
    (hn : chain.any Element.isNetwork = true) (hl : chain.length ≤ limit) :
    ∃ stats best, chain.cheapestCounted weights t level limit = (stats, .ok best) ∧
      chain.Optimum weights t level stats best := by
  obtain ⟨lead, he, hk⟩ := exists_cheapestCounted weights
    (P := fun done lead ↦ lead.Knows weights t level (chain.withTraces t)
      (chain.costOf weights t) done)
    hc.withTraces hn hl ⟨rfl, rfl, .inl ⟨rfl, rfl, by simp⟩⟩
    fun done lead next indices hp _ h ↦ hp.concat h
  have hn' : (chain.withTraces t).any Element.isNetwork = true := by simpa using hn
  have self : (chain.withTraces t).StandIn t level (chain.withTraces t) :=
    ⟨.refl _, equivalent_self hc.withTraces (by simpa using placed)⟩
  have price {candidate : Chain} (hs : (chain.withTraces t).StandIn t level candidate) :
      candidate.cost weights t = .ok (candidate.costOf weights t) := cost_perm weights hn' hs.1
  have stands := hk.leads.stands self
  have hcost := hk.leads.cost_eq (costOf_withTraces weights t chain).symm
  obtain ⟨hstart, hleast⟩ := hk.leads.cost_le
  refine ⟨_, _, he, ?_⟩
  exact {
    startCost := cost_perm weights hn (.refl chain)
    bestCost := by rw [price stands, hcost]
    bestCost_le := hstart
    stands := stands
    least := by
      intro candidate p hs hp
      obtain ⟨indices, hm, rfl⟩ := exists_inOrder_eq hs.1
      rw [price hs] at hp
      rw [← Except.ok.inj hp]
      exact hleast indices hm hs
    kept := by
      intro h
      rcases hk.leads with ⟨hl, -⟩ | ⟨best, hl, hb, hlt, hf⟩
      · exact hl
      · exact absurd (h lead.chain _ stands (price stands)) (not_le.mpr (hcost ▸ hlt))
    first := by
      rintro ⟨candidate, p, hs, hp, hlt⟩
      rcases hk.leads with ⟨hl, hb, hd⟩ | ⟨best, hl, hb, -, hf⟩
      · obtain ⟨indices, hm, rfl⟩ := exists_inOrder_eq hs.1
        rw [price hs] at hp
        exact absurd (hd indices hm hs) (not_le.mpr (Except.ok.inj hp ▸ hlt))
      · refine ⟨best, mem_orders_iff.mp hf.mem, hl.symm, fun others ho hs hp ↦ ?_⟩
        rw [price hs, hb] at hp
        exact hf.eq_or_rel (pairwise_orders_range chain.length) (mem_orders_iff.mpr ho) hs
          (Except.ok.inj hp)
    permutations := by rw [hk.permutations, length_orders, List.length_range]
    equivalent := by rw [hk.equivalent, (orders_range_perm chain.length).countP_eq] }

end

/-- With the dropping element in front and everything on the client side, a chain costs least. -/
theorem Chain.exists_optimum_hoisted :
    let tag := Element.onRequests "tag" { PathEffects.none with write := .only ["user"] }
    let acl := Element.onRequests "acl" { PathEffects.none with read := .only ["key"], drop := true }
    let chain : Chain := [.networkMarker, tag, acl]
    let weights : Weights ℚ := ⟨1, 1, 1 / 10, 5, 5⟩
    chain.HasDistinctFields .request ∧ chain.isPlaced = true ∧
      chain.any Element.isNetwork = true ∧ chain.length ≤ 3 ∧
      ∃ stats, chain.cheapestCounted weights .request .weak 3 =
          (stats, .ok (Chain.withTraces .request [acl, tag, .networkMarker])) ∧
        chain.Optimum weights .request .weak stats
          (Chain.withTraces .request [acl, tag, .networkMarker]) := by
  intro tag acl chain weights
  have hf : chain.HasDistinctFields .request := by decide
  have placed : chain.isPlaced = true := by decide
  have hn : chain.any Element.isNetwork = true := by decide
  have hl : chain.length ≤ 3 := by decide
  have hb : (chain.cheapestCounted weights .request .weak 3).2 =
      .ok (Chain.withTraces .request [acl, tag, .networkMarker]) := by
    rw [cheapestCounted, Criterion.indexed_eq]
    decide +kernel
  obtain ⟨stats, best, he, ho⟩ := exists_optimum weights (fun _ ↦ hf) placed hn hl
  rw [he] at hb
  cases hb
  exact ⟨hf, placed, hn, hl, stats, he, ho⟩

end ChainPlan
