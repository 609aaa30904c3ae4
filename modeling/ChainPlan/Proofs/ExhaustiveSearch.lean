import ChainPlan.Exhaustive
import ChainPlan.Proofs.Agreement
import ChainPlan.Proofs.Enumeration
import ChainPlan.Proofs.Outcomes

/-! # The search of all orders

A candidate is refused, passed over or takes the lead, and nothing else happens in a step of the
search. Whatever these three cases keep is kept over all orders, so every chain that has taken the
lead is an order that may stand for the searched one. The searched chain itself has the lead from
the start, and keeps it as long as no such order is cheaper.
-/

namespace ChainPlan

section

variable {K : Type} [Add K] [Sub K] [Mul K] [OfNat K 0] [OfNat K 1]

namespace Chain

/-- Every order of a chain with a network has a cost. -/
theorem cost_perm (weights : Weights K) {t : Traffic} {chain other : Chain}
    (hn : chain.any Element.isNetwork = true) (hp : chain.Perm other) :
    other.cost weights t = .ok (other.costOf weights t) := by
  obtain ⟨marker, hm, hi⟩ := List.any_eq_true.mp hn
  exact if_pos (List.any_eq_true.mpr ⟨marker, hp.mem_iff.mp hm, hi⟩)

/-- The chain with its elements in the order of some positions. -/
def inOrder (chain : Chain) (indices : List Nat) : Chain := atIndices chain indices

theorem orders_eq_map_inOrder (chain : Chain) :
    orders chain = (orders (List.range chain.length)).map chain.inOrder :=
  orders_eq_map_atIndices chain

/-- Every order of a chain with its traces is among those at the orders of its positions. -/
theorem exists_inOrder_eq {t : Traffic} {chain other : Chain}
    (h : (chain.withTraces t).Perm other) :
    ∃ indices ∈ orders (List.range chain.length), (chain.withTraces t).inOrder indices = other := by
  obtain ⟨indices, hm, hi⟩ := exists_atIndices_of_perm h
  rw [length_withTraces] at hm
  exact ⟨indices, mem_orders_iff.mpr hm, hi⟩

/-- The candidate is an order of the chain that may stand for it. -/
def StandIn (t : Traffic) (level : Level) (chain candidate : Chain) : Prop :=
  chain.Perm candidate ∧ equivalent chain candidate t level = .ok true

instance (t : Traffic) (level : Level) (chain candidate : Chain) :
    Decidable (chain.StandIn t level candidate) :=
  inferInstanceAs (Decidable (_ ∧ _))

end Chain

variable [LT K]

/-! ### Candidates -/

/-- The three things that can happen to the lead when one more order of a chain is looked at. -/
inductive Lead.Next (weights : Weights K) (t : Traffic) (level : Level) (chain candidate : Chain)
    (lead : Lead K) : Lead K → Prop where
  | refused (h : ¬ chain.StandIn t level candidate) :
      Next weights t level chain candidate lead
        ⟨lead.permutations + 1, lead.equivalent, lead.chain, lead.cost⟩
  | passed (h : chain.StandIn t level candidate)
      (hc : ¬ candidate.costOf weights t < lead.cost) :
      Next weights t level chain candidate lead
        ⟨lead.permutations + 1, lead.equivalent + 1, lead.chain, lead.cost⟩
  | taken (h : chain.StandIn t level candidate) (hc : candidate.costOf weights t < lead.cost) :
      Next weights t level chain candidate lead
        ⟨lead.permutations + 1, lead.equivalent + 1, candidate, candidate.costOf weights t⟩

/-! ### The lead -/

/-- Some order that may stand for the chain costs less than it. -/
def Chain.HasCheaper (weights : Weights K) (t : Traffic) (level : Level) (chain : Chain) : Prop :=
  ∃ candidate, (chain.withTraces t).StandIn t level candidate ∧
    candidate.costOf weights t < chain.costOf weights t

/-- What is known of the lead when some orders of a chain have been looked at, whatever the order of
the numbers is like. -/
inductive Lead.Holds (weights : Weights K) (t : Traffic) (level : Level) (chain : Chain)
    (done : List (List Nat)) (lead : Lead K) : Prop where
  /-- The chain has it, and none of the orders that may stand for the chain is cheaper. -/
  | kept (hl : lead.chain = chain.withTraces t) (hc : lead.cost = chain.costOf weights t)
      (hd : ∀ indices ∈ done,
        (chain.withTraces t).StandIn t level ((chain.withTraces t).inOrder indices) →
        ¬ ((chain.withTraces t).inOrder indices).costOf weights t < chain.costOf weights t)
  /-- An order that may stand for the chain has it. -/
  | taken (hc : chain.HasCheaper weights t level)
      (hs : (chain.withTraces t).StandIn t level lead.chain)

/-- One more order keeps up what is known of the lead. -/
theorem Lead.Holds.concat {weights : Weights K} {t : Traffic} {level : Level} {chain : Chain}
    {done : List (List Nat)} {lead next : Lead K} {indices : List Nat}
    (h : lead.Holds weights t level chain done)
    (hn : lead.Next weights t level (chain.withTraces t) ((chain.withTraces t).inOrder indices)
      next) :
    next.Holds weights t level chain (done ++ [indices]) := by
  cases h with
  | kept hl hk hd =>
    cases hn with
    | refused hs => exact .kept hl hk (List.forall_mem_append.mpr ⟨hd, by simp [hs]⟩)
    | passed hs hc =>
      rw [hk] at hc
      exact .kept hl hk (List.forall_mem_append.mpr ⟨hd, by simp [hc]⟩)
    | taken hs hc => exact .taken ⟨_, hs, hk ▸ hc⟩ hs
  | taken hc hs =>
    cases hn with
    | refused | passed => exact .taken hc hs
    | taken hs' => exact .taken hc hs'

/-! ### Searches -/

variable [DecidableLT K]

/-- One more candidate is judged and, if it is accepted, costed. -/
theorem Lead.exists_consider (weights : Weights K) {t : Traffic} {level : Level}
    {chain candidate : Chain} {accepts : Chain → Except PlanError Bool} (lead : Lead K)
    (hi : Criterion.indexed t level chain = .ok accepts)
    (hn : chain.any Element.isNetwork = true) (hp : chain.Perm candidate) :
    ∃ next, lead.consider accepts weights t candidate = .ok next ∧
      lead.Next weights t level chain candidate next := by
  have hc : chain.Comparable level t := Chain.exists_indexed_iff.mp ⟨accepts, hi⟩
  obtain ⟨verdict, hv, -⟩ := exists_verdict hc (hc.perm hp)
  have ha : accepts candidate = .ok verdict := by
    rw [← Chain.equivalent_of_indexed hi, hv]
  rw [consider, ha]
  cases verdict with
  | false =>
    refine ⟨_, rfl, .refused ?_⟩
    rintro ⟨-, h⟩
    rw [hv] at h
    cases h
  | true =>
    simp only [bind, Except.bind, pure, Except.pure, Chain.cost_perm weights hn hp, if_true]
    by_cases hl : candidate.costOf weights t < lead.cost
    · exact ⟨_, congrArg Except.ok (if_pos hl), .taken ⟨hp, hv⟩ hl⟩
    · exact ⟨_, congrArg Except.ok (if_neg hl), .passed ⟨hp, hv⟩ hl⟩

namespace Chain

variable {t : Traffic} {level : Level} {limit : Nat} {chain : Chain}

/-- A search that is not too long looks at every order of the positions, one after the other, and
keeps what each step keeps. -/
theorem exists_cheapestCounted (weights : Weights K) {P : List (List Nat) → Lead K → Prop}
    (hc : (chain.withTraces t).Comparable level t) (hn : chain.any Element.isNetwork = true)
    (hl : chain.length ≤ limit) (start : P [] ⟨0, 0, chain.withTraces t, chain.costOf weights t⟩)
    (step : ∀ done lead next indices, P done lead → (List.range chain.length).Perm indices →
      lead.Next weights t level (chain.withTraces t) ((chain.withTraces t).inOrder indices) next →
      P (done ++ [indices]) next) :
    ∃ lead : Lead K, chain.cheapestCounted weights t level limit =
        (⟨lead.permutations, lead.equivalent, chain.costOf weights t, lead.cost⟩,
          .ok lead.chain) ∧ P (orders (List.range chain.length)) lead := by
  obtain ⟨accepts, hi⟩ := Chain.exists_indexed_iff.mpr hc
  have hn' : (chain.withTraces t).any Element.isNetwork = true := by simpa using hn
  have hf : ∃ lead : Lead K, (orders (List.range chain.length)).foldlM
      (fun (lead : Lead K) indices ↦
        lead.consider accepts weights t ((chain.withTraces t).inOrder indices))
      ⟨0, 0, chain.withTraces t, chain.costOf weights t⟩ = .ok lead ∧
        P (orders (List.range chain.length)) lead := by
    refine exists_foldlM start fun done lead hp indices hm ↦ ?_
    have hm : (List.range chain.length).Perm indices := mem_orders_iff.mp hm
    have ho : (chain.withTraces t).Perm ((chain.withTraces t).inOrder indices) :=
      perm_atIndices (by rwa [length_withTraces])
    obtain ⟨next, he, hs⟩ := lead.exists_consider weights hi hn' ho
    exact ⟨next, he, step done lead next indices hp hm hs⟩
  obtain ⟨lead, hf, hp⟩ := hf
  refine ⟨lead, ?_, hp⟩
  rw [cheapestCounted, if_neg (Nat.not_lt.mpr hl), cost_perm weights hn (.refl chain)]
  simp only [hi, bind, Except.bind, foldOrders_eq, orders_eq_map_inOrder (chain.withTraces t),
    length_withTraces, List.foldlM_map, hf]

/-- A search that ends has a chain that is not too long, has a network and can be judged. -/
theorem of_cheapest_eq_ok {weights : Weights K} {best : Chain}
    (h : chain.cheapest weights t level limit = .ok best) :
    chain.length ≤ limit ∧ chain.any Element.isNetwork = true ∧
      (chain.withTraces t).Comparable level t := by
  rw [cheapest, cheapestCounted] at h
  split at h
  · cases h
  · next hl =>
    refine ⟨Nat.not_lt.mp hl, ?_⟩
    split at h
    · cases h
    · next hc =>
      have hn : chain.any Element.isNetwork = true := by
        by_contra hn
        rw [cost, if_neg hn] at hc
        cases hc
      refine ⟨hn, ?_⟩
      rw [← exists_indexed_iff]
      cases hi : Criterion.indexed t level (chain.withTraces t) with
      | ok accepts => exact ⟨accepts, rfl⟩
      | error error =>
        simp only [hi, bind, Except.bind] at h
        cases h

/-- A search ends with an order that may stand for the chain if one of them is cheaper, and with the
chain itself otherwise, whether or not it may stand for itself. -/
theorem cheapest_cases {weights : Weights K} {best : Chain}
    (h : chain.cheapest weights t level limit = .ok best) :
    (¬ chain.HasCheaper weights t level ∧ best = chain.withTraces t) ∨
      chain.HasCheaper weights t level ∧ (chain.withTraces t).StandIn t level best := by
  obtain ⟨hl, hn, hc⟩ := of_cheapest_eq_ok h
  obtain ⟨lead, he, hp⟩ := exists_cheapestCounted weights
    (P := fun done lead ↦ lead.Holds weights t level chain done)
    hc hn hl (.kept rfl rfl (by simp)) fun done lead next indices hp _ hs ↦ hp.concat hs
  have hb : best = lead.chain := by
    rw [cheapest, he] at h
    exact (Except.ok.inj h).symm
  rw [hb]
  cases hp with
  | kept hl _ hd =>
    refine .inl ⟨?_, hl⟩
    rintro ⟨candidate, hs, hlt⟩
    obtain ⟨indices, hm, rfl⟩ := exists_inOrder_eq hs.1
    exact hd indices hm hs hlt
  | taken hc hs => exact .inr ⟨hc, hs⟩

/-- The search of a chain that is not too long ends with an order that may stand for it. -/
theorem exists_cheapest (weights : Weights K) (hc : chain.Comparable level t)
    (placed : chain.isPlaced = true) (hn : chain.any Element.isNetwork = true)
    (hl : chain.length ≤ limit) :
    ∃ best, chain.cheapest weights t level limit = .ok best ∧
      (chain.withTraces t).StandIn t level best := by
  obtain ⟨lead, he, -⟩ := exists_cheapestCounted weights (P := fun _ _ ↦ True) hc.withTraces hn hl
    trivial fun _ _ _ _ _ _ _ ↦ trivial
  have hb : chain.cheapest weights t level limit = .ok lead.chain := congrArg Prod.snd he
  refine ⟨lead.chain, hb, ?_⟩
  rcases cheapest_cases hb with ⟨-, hk⟩ | ⟨-, hs⟩
  · rw [hk]
    exact ⟨.refl _, equivalent_self hc.withTraces (by simpa using placed)⟩
  · exact hs

end Chain

end

end ChainPlan
