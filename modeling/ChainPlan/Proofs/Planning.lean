import ChainPlan.Plan
import ChainPlan.Proofs.Convergence
import ChainPlan.Proofs.ExhaustiveSearch
import ChainPlan.Proofs.Gathering

/-! # Plans

A chain with a valid placement and one marker that does nothing gets a plan from either strategy,
if the options leave the strategy room for its length. The plan is cut from an order of the chain
that may stand for it. Both strategies end with such an order; the local search leaves the marker
where it happens to be, but moving it then changes no lineage.
-/

namespace ChainPlan

namespace Chain

/-- The two sides of an order of a chain, cut at its only marker. -/
structure Cut (t : Traffic) (level : Level) (chain before : Chain) (marker : Element)
    (after : Chain) : Prop where
  perm : (chain.withTraces t).Perm (before ++ marker :: after)
  placed : isPlaced (before ++ marker :: after) = true
  stands : equivalent (chain.withTraces t) (before ++ marker :: after) t level = .ok true
  isNetwork : marker.isNetwork = true
  lacksBefore : before.LacksMarker
  lacksAfter : after.LacksMarker

/-- What a chain needs to be planned: a valid placement, one marker that does nothing, and no set
that lists a field twice. -/
structure Plannable (t : Traffic) (chain : Chain) : Prop where
  placed : chain.isPlaced = true
  single : (chain.filter Element.isNetwork).length = 1
  idle : ∀ e ∈ chain, e.isNetwork = true → e.on t = .none
  distinct : chain.HasDistinctFields t

variable {t : Traffic} {level : Level} {chain other : Chain}

/-- Every order of a traced chain with one marker that does nothing has this marker somewhere. -/
theorem exists_idle_split (single : (chain.filter Element.isNetwork).length = 1)
    (idle : ∀ e ∈ chain, e.isNetwork = true → e.on t = .none)
    (hp : (chain.withTraces t).Perm other) :
    ∃ (before : Chain) (marker : Element) (after : Chain), other = before ++ marker :: after ∧
      marker.isNetwork = true ∧ before.LacksMarker ∧ after.LacksMarker ∧ marker.on t = .none := by
  have hs : (other.filter Element.isNetwork).length = 1 := by
    have hf : ((chain.withTraces t).filter Element.isNetwork).length = 1 := by
      rw [withTraces, List.filter_map, List.length_map]
      exact single
    rw [← (hp.filter Element.isNetwork).length_eq, hf]
  obtain ⟨before, marker, after, rfl, hm, hb, ha⟩ := exists_marker_split hs
  have hi : marker ∈ chain.withTraces t :=
    hp.mem_iff.mpr (List.mem_append_right before List.mem_cons_self)
  obtain ⟨e, he, rfl⟩ := List.mem_map.mp hi
  refine ⟨before, _, after, rfl, hm, hb, ha, ?_⟩
  rw [Element.on_withTraces, idle e he (by simpa using hm)]
  rfl

/-- Chains that differ only in the place of an element that does nothing agree. -/
theorem agree_of_idle {before after before' after' : Chain} {marker : Element}
    (hi : marker.on t = .none) (hr : before' ++ after' = before ++ after) :
    Agree level t (before ++ marker :: after) (before' ++ marker :: after') := by
  apply Agree.of_trace_eq
  rw [trace_insert_idle hi, trace_insert_idle hi, hr]

/-- The local search of a chain with a valid placement ends with an order that may stand for it. -/
theorem standIn_of_reorder {ordered : Chain} {maxMoves : Nat} (placed : chain.isPlaced = true)
    (ho : chain.reorder t level maxMoves = .ok ordered) :
    (chain.withTraces t).StandIn t level ordered := by
  obtain ⟨hc, hr⟩ := reaches_of_reorder ho
  have hv : (chain.withTraces t).isPlaced = true := by simpa using placed
  refine ⟨hr.perm, equivalent_eq_ok_true_iff.mpr ⟨⟨hc, hc.perm hr.perm⟩, hr.isPlaced hv, ?_⟩⟩
  exact hr.agree

/-- What may stand for a chain still may when it is gathered: only the marker moves, and it does
nothing. -/
theorem StandIn.exists_gather {before after : Chain} {marker : Element}
    (hs : chain.StandIn t level (before ++ marker :: after)) (hm : marker.isNetwork = true)
    (hb : before.LacksMarker) (ha : after.LacksMarker) (hi : marker.on t = .none) :
    ∃ before' after', gather (before ++ marker :: after) = .ok (before' ++ marker :: after') ∧
      LacksMarker before' ∧ LacksMarker after' ∧
      chain.StandIn t level (before' ++ marker :: after') := by
  obtain ⟨hp, he⟩ := hs
  obtain ⟨⟨hc, -⟩, placed, agree⟩ := equivalent_eq_ok_true_iff.mp he
  obtain ⟨before', after', hg, hr, placed'⟩ := Chain.exists_gather hb hm ha placed
  have hp' : chain.Perm (before' ++ marker :: after') := by
    refine hp.trans (List.perm_middle.trans ?_)
    rw [← hr]
    exact List.perm_middle.symm
  have lacks : LacksMarker (before' ++ after') := by
    rw [hr]
    exact List.forall_mem_append.mpr ⟨hb, ha⟩
  obtain ⟨hb', ha'⟩ := List.forall_mem_append.mp lacks
  refine ⟨before', after', hg, hb', ha', hp', ?_⟩
  exact equivalent_eq_ok_true_iff.mpr
    ⟨⟨hc, hc.perm hp'⟩, placed', agree.trans (agree_of_idle hi hr)⟩

/-- Local search and placement of the marker end with a cut of the chain. -/
theorem Plannable.exists_gathered {maxMoves : Nat} (h : chain.Plannable t)
    (hb : (chain.length * (chain.length - 1) / 2 + 1) ^ 2 ≤ maxMoves) :
    ∃ ordered before marker after, chain.reorder t level maxMoves = .ok ordered ∧
      ordered.gather = .ok (before ++ marker :: after) ∧
      chain.Cut t level before marker after := by
  obtain ⟨ordered, ho⟩ := exists_reorder (fun _ ↦ h.distinct) hb
  have hs := standIn_of_reorder h.placed ho
  obtain ⟨before, marker, after, rfl, hm, hb, ha, hi⟩ := exists_idle_split h.single h.idle hs.1
  obtain ⟨before', after', hg, hb', ha', hp, he⟩ := hs.exists_gather hm hb ha hi
  exact ⟨_, before', marker, after', ho, hg,
    hp, (equivalent_eq_ok_true_iff.mp he).2.1, he, hm, hb', ha'⟩

end Chain

section

variable {K : Type} [Add K] [Sub K] [Mul K] [OfNat K 0] [OfNat K 1] [LT K] [DecidableLT K]

/-- The search of all orders ends with a cut of the chain. -/
theorem Chain.Plannable.exists_cheapest_cut {t : Traffic} {level : Level} {chain : Chain}
    {limit : Nat} (h : chain.Plannable t) (weights : Weights K) (hl : chain.length ≤ limit) :
    ∃ before marker after, chain.cheapest weights t level limit = .ok (before ++ marker :: after) ∧
      chain.Cut t level before marker after := by
  have hn : chain.any Element.isNetwork = true := by
    obtain ⟨before, marker, after, rfl, hm, -⟩ := exists_marker_split h.single
    simp [hm]
  obtain ⟨best, hc, hp, he⟩ := exists_cheapest weights (fun _ ↦ h.distinct) h.placed hn hl
  obtain ⟨before, marker, after, rfl, hm, hb, ha, -⟩ := exists_idle_split h.single h.idle hp
  exact ⟨before, marker, after, hc, hp, (equivalent_eq_ok_true_iff.mp he).2.1, he, hm, hb, ha⟩

/-- A side is fused from the left, starting with its first element if it has one. -/
theorem Chain.consolidate_eq_map (side : Chain) :
    side.consolidate = side.head?.map (side.tail.foldl Element.fuse ·) := by
  cases side with
  | nil => rfl
  | cons first rest => rfl

/-- The plan of a chain cut at its marker. -/
theorem Chain.Cut.plan_eq {t : Traffic} {level : Level} {chain before after : Chain}
    {marker : Element} (h : chain.Cut t level before marker after) :
    Plan.ofChain (before ++ marker :: after) =
      ⟨before.head?.map (before.tail.foldl Element.fuse ·),
        after.head?.map (after.tail.foldl Element.fuse ·)⟩ := by
  rw [Plan.ofChain, clientSide_split h.lacksBefore h.isNetwork,
    serverSide_split h.lacksBefore h.isNetwork, consolidate_eq_map, consolidate_eq_map]

/-- The options leave the strategy room for a chain of the length: the search of all orders its
limit, and the local search a budget of the square of all pairs, and one. -/
def PlanOptions.Suffice (options : PlanOptions K) (length : Nat) : Prop :=
  match options.strategy with
  | .heuristic => (length * (length - 1) / 2 + 1) ^ 2 ≤ options.maxMoves
  | .exhaustive => length ≤ options.maxExhaustiveLength

/-- Planning does not fail, and the plan is made from a cut of the chain. -/
theorem Chain.Plannable.exists_plan_cut {options : PlanOptions K} {t : Traffic} {chain : Chain}
    (h : chain.Plannable t) (room : options.Suffice chain.length) :
    ∃ before marker after,
      chain.plan options t = .ok (Plan.ofChain (before ++ marker :: after)) ∧
      chain.Cut t options.level before marker after := by
  unfold PlanOptions.Suffice at room
  cases hs : options.strategy with
  | heuristic =>
    rw [hs] at room
    obtain ⟨ordered, before, marker, after, ho, hg, hc⟩ := h.exists_gathered room
    refine ⟨before, marker, after, ?_, hc⟩
    rw [plan, hs]
    simp only [ho, hg, bind, Except.bind, pure, Except.pure]
  | exhaustive =>
    rw [hs] at room
    obtain ⟨before, marker, after, hb, hc⟩ := h.exists_cheapest_cut options.weights room
    refine ⟨before, marker, after, ?_, hc⟩
    rw [plan, hs, cheapestPlan]
    simp only [hb, bind, Except.bind, pure, Except.pure]

/-- Planning does not fail, and the plan has the elements of both sides of an order of the chain that
has a valid placement and may stand for it: on either side the first element, with the others fused
into it in order, and nothing for an empty side. -/
theorem Chain.exists_plan {options : PlanOptions K} {t : Traffic} {chain : Chain}
    (h : chain.Plannable t) (room : options.Suffice chain.length) :
    ∃ plan before marker after, chain.plan options t = .ok plan ∧
      chain.Cut t options.level before marker after ∧
      plan.client = before.head?.map (before.tail.foldl Element.fuse ·) ∧
      plan.server = after.head?.map (after.tail.foldl Element.fuse ·) := by
  obtain ⟨before, marker, after, hp, hc⟩ := h.exists_plan_cut room
  exact ⟨_, before, marker, after, hp, hc, congrArg Plan.client hc.plan_eq,
    congrArg Plan.server hc.plan_eq⟩

end

/-- A chain that lists one element twice and takes its writes back has a plan by both strategies. The
local search leaves the client without an element; the search of all orders keeps the first one
there, since deployment costs nothing. -/
theorem Chain.exists_plan_pinned :
    let zip := Element.onRequests "zip" { PathEffects.none with write := .only ["body"] }
    let unzip := { Element.onRequests "unzip" { PathEffects.none with write := .only ["body"] } with
      partner := some "zip", site := .server }
    let acl := Element.onRequests "acl"
      { PathEffects.none with read := .only ["key"], drop := true }
    let chain : Chain := [zip, .networkMarker, acl, zip, unzip]
    let weights : Weights Int := ⟨1, 1, 0, 5, 0⟩
    let quick : PlanOptions Int := ⟨.weak, .heuristic, weights, 121, 0⟩
    let full : PlanOptions Int := ⟨.strong, .exhaustive, weights, 0, 5⟩
    let behind := { Element.onRequests "acl"
        { PathEffects.none with
          read := .only ["key"], write := .only ["droptrace", "body"], drop := true } with
      partner := some "zip", site := .server }
    let searched : Plan := ⟨none, some { behind with names := ["acl", "zip", "zip", "unzip"] }⟩
    let cheapest : Plan := ⟨some zip, some { behind with names := ["acl", "zip", "unzip"] }⟩
    chain.Plannable .request ∧ quick.Suffice chain.length ∧ full.Suffice chain.length ∧
      chain.plan quick .request = .ok searched ∧ chain.plan full .request = .ok cheapest ∧
      (∃ plan before marker after, chain.plan quick .request = .ok plan ∧
        chain.Cut .request .weak before marker after ∧
        plan.client = before.head?.map (before.tail.foldl Element.fuse ·) ∧
        plan.server = after.head?.map (after.tail.foldl Element.fuse ·)) ∧
      ∃ plan before marker after, chain.plan full .request = .ok plan ∧
        chain.Cut .request .strong before marker after ∧
        plan.client = before.head?.map (before.tail.foldl Element.fuse ·) ∧
        plan.server = after.head?.map (after.tail.foldl Element.fuse ·) := by
  intro zip unzip acl chain weights quick full behind searched cheapest
  have h : chain.Plannable .request := ⟨by decide, by decide, by decide, by decide +kernel⟩
  have hl : quick.Suffice chain.length := by
    show (5 * (5 - 1) / 2 + 1) ^ 2 ≤ 121
    decide
  have hf : full.Suffice chain.length := by
    show 5 ≤ 5
    decide
  have hs : chain.plan quick .request = .ok searched := by
    rw [Chain.plan, reorder, reorderCounted, Criterion.indexed_eq]
    decide +kernel
  have hc : chain.plan full .request = .ok cheapest := by
    show chain.cheapestPlan weights .request .strong 5 = _
    rw [cheapestPlan, Chain.cheapest, cheapestCounted, Criterion.indexed_eq]
    decide +kernel
  exact ⟨h, hl, hf, hs, hc, exists_plan h hl, exists_plan h hf⟩

end ChainPlan
