import ChainPlan.Proofs.Consolidation
import ChainPlan.Proofs.Convergence
import ChainPlan.Proofs.Enumeration
import ChainPlan.Proofs.Gathering
import Mathlib.Algebra.Order.Ring.Rat

/-! # Stability of plans

A plan by the local search is itself a chain of at most two elements around the marker. Its effects
have their trace fields. With an element on the server, no other order of it has a valid placement,
and without one the marker returns to its end wherever it is. So when the plan is planned again, the
search makes at most one move, past the marker, and the placement takes it back.
-/

namespace ChainPlan

namespace Plan

/-- The elements of a plan on both sides of a new marker. -/
def toChain (p : Plan) : Chain := p.clientChain ++ .networkMarker :: p.serverChain

/-- Where the elements of a plan are pinned: one on the server always is, and one on the client is
if there is one on the server. -/
inductive Seated : Plan → Prop where
  | neither : Seated ⟨none, none⟩
  | client {c : Element} (hc : c.site = .client ∨ c.site = .dontCare) : Seated ⟨some c, none⟩
  | server {s : Element} (hs : s.site = .server) : Seated ⟨none, some s⟩
  | both {c s : Element} (hc : c.site = .client) (hs : s.site = .server) : Seated ⟨some c, some s⟩

variable {t : Traffic} {level : Level} {p : Plan} {other : Chain}

/-! ### Orders of a plan -/

namespace Seated

/-- No element of a plan is a marker. -/
theorem lacksMarker (h : p.Seated) : Chain.LacksMarker (p.clientChain ++ p.serverChain) := by
  unfold Chain.LacksMarker clientChain serverChain Element.isNetwork
  cases h with
  | neither => simp
  | client hc => rcases hc with hc | hc <;> simp [hc]
  | server hs => simp [hs]
  | both hc hs => simp [hc, hs]

/-- The elements of a plan are on their sides. -/
theorem isPlaced (h : p.Seated) : p.toChain.isPlaced = true := by
  have hb := (List.forall_mem_append.mp h.lacksMarker).1
  refine (Chain.isPlaced_split_iff hb rfl).mpr ?_
  unfold clientChain serverChain
  cases h with
  | neither => simp
  | client hc => rcases hc with hc | hc <;> simp [hc]
  | server hs => simp [hs]
  | both hc hs => simp [hc, hs]

/-- With an element on the server, only one order of a plan has a valid placement. -/
theorem eq_of_isPlaced (h : p.Seated) (hd : p.server ≠ none) (hp : p.toChain.Perm other)
    (placed : other.isPlaced = true) : other = p.toChain := by
  have ho := mem_orders_iff.mpr hp
  cases h with
  | neither | client => exact absurd rfl hd
  | @server s hs =>
    have ho : other ∈ [[.networkMarker, s], [s, .networkMarker]] := ho
    rcases List.mem_pair.mp ho with rfl | rfl
    · rfl
    · simp [Chain.isPlaced, Chain.placedFrom, hs] at placed
  | @both c s hc hs =>
    have ho : other ∈ [[c, .networkMarker, s], [c, s, .networkMarker], [.networkMarker, c, s],
      [.networkMarker, s, c], [s, c, .networkMarker], [s, .networkMarker, c]] := ho
    simp only [List.mem_cons, List.not_mem_nil, or_false] at ho
    rcases ho with rfl | rfl | rfl | rfl | rfl | rfl
    · rfl
    all_goals simp [Chain.isPlaced, Chain.placedFrom, Element.networkMarker, hc, hs] at placed

/-- The placement leaves the client's element before the marker, and the server's behind it. -/
theorem clientLength_eq (h : p.Seated) :
    let rest := p.clientChain ++ p.serverChain
    (Placement.ofChain rest).clientLength rest = p.clientChain.length := by
  cases h with
  | neither => rfl
  | @client c hc =>
    change (Placement.ofChain [c]).clientLength [c] = 1
    rcases hc with hc | hc <;> simp [Placement.ofChain, Chain.hasSite, Placement.clientLength, hc]
  | @server s hs =>
    change (Placement.ofChain [s]).clientLength [s] = 0
    simp [Placement.ofChain, Chain.hasSite, Placement.clientLength, hs]
  | @both c s hc hs =>
    change (Placement.ofChain [c, s]).clientLength [c, s] = 1
    have hcs : Placement.ofChain [c, s] = .server ∨ Placement.ofChain [c, s] = .client := by
      have hs : Chain.hasSite [c, s] .server = true := by simp [Chain.hasSite, hs]
      have hc : Chain.hasSite [c, s] .client = true := by simp [Chain.hasSite, hc]
      rw [Placement.ofChain, hs, hc, if_neg (by simp), if_neg (by simp)]
      exact ite_eq_or_eq _ _ _
    rcases hcs with hp | hp <;> simp [hp, Placement.clientLength, hc, hs]

/-- Wherever the marker stands among the elements of a plan, it is gathered to its place. -/
theorem gather_split (h : p.Seated) (before after : Chain)
    (hr : before ++ after = p.clientChain ++ p.serverChain) :
    Chain.gather (before ++ .networkMarker :: after) = .ok p.toChain := by
  have lacks : Chain.LacksMarker (before ++ after) := hr ▸ h.lacksMarker
  obtain ⟨hb, ha⟩ := List.forall_mem_append.mp lacks
  rw [Chain.gather_split hb rfl ha]
  simp only [hr, h.clientLength_eq, List.take_left, List.drop_left]
  exact if_pos h.isPlaced

/-- However a plan is ordered, its marker is gathered to its place if the placement is valid. -/
theorem gather_perm (h : p.Seated) (hp : p.toChain.Perm other) (placed : other.isPlaced = true) :
    other.gather = .ok p.toChain := by
  by_cases hd : p.server = none
  · have ho := mem_orders_iff.mpr hp
    cases h with
    | neither =>
      rw [List.mem_singleton.mp ho]
      rfl
    | @client c hc =>
      have ho : other ∈ [[c, .networkMarker], [.networkMarker, c]] := ho
      rcases List.mem_pair.mp ho with rfl | rfl
      · exact gather_split (.client hc) [c] [] rfl
      · exact gather_split (.client hc) [] [c] rfl
    | server | both => cases hd
  · rw [h.eq_of_isPlaced hd hp placed]
    exact h.gather_split _ _ rfl

/-! ### Searches from a plan -/

/-- With an element on the server, there is no step to make. -/
theorem not_step (h : p.Seated) (hd : p.server ≠ none) (next : Chain) :
    ¬ Chain.Step t level p.toChain next := by
  rintro ⟨g, ha⟩
  have placed := (equivalent_eq_ok_true_iff.mp ha.stands).2.1
  have hlt := ha.turn.disorder_lt
  rw [h.eq_of_isPlaced hd ha.turn.perm placed] at hlt
  exact Nat.lt_irrefl _ hlt

/-- Without one, there is at most one step, as the client's element may sink behind the marker. -/
theorem stepsLeft_le (h : p.Seated) (hd : p.server = none) : p.toChain.stepsLeft t ≤ 1 := by
  cases h with
  | neither => cases t <;> decide
  | @client c hc =>
    have hh : Chain.disorder t .hoistStop [c, .networkMarker] = 0 := by
      simp [Chain.disorder, inversions, Goal.yields, PathEffects.stops, PathEffects.none]
    have hs : Chain.disorder t .sinkCopy [c, .networkMarker] ≤ 1 := calc
      _ ≤ Chain.pairs t .sinkCopy [c, .networkMarker] := Chain.disorder_le_pairs _ _ _
      _ ≤ 2 * (2 - 1) / 2 := Chain.pairs_le _ _ _
      _ = 1 := by decide
    change Chain.stepsLeft t [c, .networkMarker] ≤ 1
    rw [Chain.stepsLeft, hh, Nat.zero_mul, Nat.zero_add]
    exact hs
  | server | both => cases hd

end Seated

/-! ### Plans of chains -/

/-- What is known of a plan by the local search: its elements are pinned to their sides, their
effects have their trace fields, and the level can judge them. -/
structure Settled (t : Traffic) (level : Level) (p : Plan) : Prop where
  seated : p.Seated
  traced : ∀ e ∈ p.toChain, (e.on t).IsTraced
  comparable : p.toChain.Comparable level t

/-- The local search of a settled plan ends within one move, and the placement of the marker takes
it back. -/
theorem Settled.exists_reorder {maxMoves : Nat} (h : p.Settled t level) (hm : 1 ≤ maxMoves) :
    ∃ ordered, p.toChain.reorder t level maxMoves = .ok ordered ∧
      ordered.gather = .ok p.toChain := by
  have ends : ∃ stats ordered,
      Chain.descend (.indexed t level) t maxMoves maxMoves .zero p.toChain =
        (stats, .ok ordered) := by
    by_cases hd : p.server = none
    · exact Chain.exists_descend .zero h.comparable ((h.seated.stepsLeft_le hd).trans hm)
    · obtain ⟨stats, hs⟩ := Chain.exists_descend_of_settled maxMoves maxMoves .zero h.comparable
        (h.seated.not_step hd)
      exact ⟨stats, _, hs⟩
  obtain ⟨stats, ordered, hd⟩ := ends
  obtain ⟨-, hr⟩ := Chain.reaches_of_descend hd
  refine ⟨ordered, ?_, h.seated.gather_perm hr.perm (hr.isPlaced h.seated.isPlaced)⟩
  rw [Chain.reorder, Chain.reorderCounted, Chain.withTraces_of_isTraced h.traced, hd]

/-- The plan of the chain of a plan is the plan. -/
theorem Seated.ofChain_toChain (h : p.Seated) : ofChain p.toChain = p := by
  have hb := (List.forall_mem_append.mp h.lacksMarker).1
  rw [ofChain, toChain, Chain.clientSide_split hb rfl, Chain.serverSide_split hb rfl]
  cases h <;> rfl

/-- What the marker and all elements of a chain have and fusion keeps, the elements of its plan
have. -/
theorem forall_mem_toChain {P : Element → Prop} {chain : Chain} (marker : P .networkMarker)
    (keeps : ∀ a b, P a → P b → P (a.fuse b)) (hs : ∀ e ∈ chain, P e) :
    ∀ e ∈ (ofChain chain).toChain, P e := by
  intro e he
  rcases List.mem_append.mp he with he | he
  · refine Chain.of_consolidate keeps (Option.mem_toList.mp he) fun d hd ↦ hs d ?_
    exact (List.takeWhile_sublist _).subset hd
  · rcases List.mem_cons.mp he with rfl | he
    · exact marker
    · refine Chain.of_consolidate keeps (Option.mem_toList.mp he) fun d hd ↦ hs d ?_
      exact (List.dropWhile_sublist _).subset (List.mem_of_mem_drop hd)

/-- The plan of a chain with one marker has its elements pinned to their sides, if the chain has a
valid placement, and server elements if it has any behind the marker, and then client elements if
it has any before it. -/
theorem seated_ofChain {before after : Chain} {marker : Element} (hm : marker.isNetwork = true)
    (hb : before.LacksMarker) (ha : after.LacksMarker)
    (placed : Chain.isPlaced (before ++ marker :: after) = true)
    (pinned : after ≠ [] → (∃ e ∈ after, e.site = .server) ∧
      (before ≠ [] → ∃ e ∈ before, e.site = .client)) :
    (ofChain (before ++ marker :: after)).Seated := by
  have hp := (Chain.isPlaced_split_iff hb hm).mp placed
  have client : ∀ d ∈ before, d.site = .client ∨ d.site = .dontCare := by
    intro d hd
    have := hb d hd
    have := hp.1 d hd
    cases hs : d.site <;> simp_all [Element.isNetwork]
  have server : ∀ d ∈ after, d.site = .server ∨ d.site = .dontCare := by
    intro d hd
    have := ha d hd
    have := hp.2 d hd
    cases hs : d.site <;> simp_all [Element.isNetwork]
  rw [ofChain, Chain.clientSide_split hb hm, Chain.serverSide_split hb hm]
  cases hc : before.consolidate with
  | none =>
    cases hs : after.consolidate with
    | none => exact .neither
    | some s =>
      refine .server ((Chain.site_consolidate_of_pinned hs server).2 (pinned ?_).1)
      rintro rfl
      cases hs
  | some c =>
    cases hs : after.consolidate with
    | none => exact .client (Chain.site_consolidate_of_pinned hc client).1
    | some s =>
      have hd : after ≠ [] := by
        rintro rfl
        cases hs
      have ht : before ≠ [] := by
        rintro rfl
        cases hc
      obtain ⟨hs', hc'⟩ := pinned hd
      exact .both ((Chain.site_consolidate_of_pinned hc client).2 (hc' ht))
        ((Chain.site_consolidate_of_pinned hs server).2 hs')

/-- The plan of a chain that the local search has ordered and the placement of the marker has
gathered is settled. -/
theorem settled_ofChain {chain ordered gathered : Chain} {maxMoves : Nat}
    (ho : chain.reorder t level maxMoves = .ok ordered) (hg : ordered.gather = .ok gathered) :
    (ofChain gathered).Settled t level := by
  obtain ⟨hc, hr⟩ := Chain.reaches_of_reorder ho
  obtain ⟨hp, placed⟩ := Chain.perm_of_gather hg
  have perm : (chain.withTraces t).Perm gathered := hr.perm.trans hp
  refine ⟨?_, ?_, fun hl ↦ ?_⟩
  · obtain ⟨before, marker, after, rfl, hm, hb, ha, pinned⟩ := Chain.exists_of_gather hg
    exact seated_ofChain hm hb ha placed pinned
  · refine forall_mem_toChain ?_ ?_ fun e he ↦ ?_
    · rw [Element.on_networkMarker]
      exact PathEffects.isTraced_withTraces .none
    · intro a b ha hb
      rw [Element.on_fuse]
      exact ha.merge hb
    · exact Chain.isTraced_of_mem_withTraces (perm.mem_iff.mpr he)
  · refine forall_mem_toChain ?_ ?_ ((hc hl).perm perm)
    · rw [Element.on_networkMarker]
      decide
    · intro a b ha hb
      rw [Element.on_fuse]
      exact ha.merge _

end Plan

/-- A plan by the local search is its own plan: what it deploys, planned again around a new marker,
gives the same plan, if the search may make a move. -/
theorem Chain.plan_toChain {K : Type} [Add K] [Sub K] [Mul K] [OfNat K 0] [OfNat K 1] [LT K]
    [DecidableLT K] {options : PlanOptions K} {t : Traffic} {chain : Chain} {plan : Plan}
    (hs : options.strategy = .heuristic) (hm : 1 ≤ options.maxMoves)
    (h : chain.plan options t = .ok plan) : plan.toChain.plan options t = .ok plan := by
  rw [Chain.plan, hs] at h
  obtain ⟨ordered, ho, h⟩ := exists_of_bind_eq_ok h
  obtain ⟨gathered, hg, h⟩ := exists_of_bind_eq_ok h
  cases h
  have settled := Plan.settled_ofChain ho hg
  obtain ⟨again, ho', hg'⟩ := settled.exists_reorder hm
  rw [Chain.plan, hs]
  simp only [ho', hg', bind, Except.bind, pure, Except.pure, settled.seated.ofChain_toChain]

/-- A plan that copies messages sinks behind the marker when it is planned again, and is gathered
back. -/
theorem Chain.plan_toChain_mirrored :
    let mirror := { Element.onRequests "mirror" { PathEffects.none with copy := true } with
      partner := some "zip" }
    let audit := Element.onRequests "audit" { PathEffects.none with record := .only ["user"] }
    let chain : Chain := [mirror, .networkMarker, audit]
    let options : PlanOptions ℚ := ⟨.weak, .heuristic, ⟨1, 1, 1 / 10, 5, 5⟩, 1, 0⟩
    let fused := (audit.withTraces .request).fuse (mirror.withTraces .request)
    let plan : Plan := ⟨some fused, none⟩
    options.strategy = .heuristic ∧ 1 ≤ options.maxMoves ∧
      chain.plan options .request = .ok plan ∧
      (plan.toChain.reorderCounted .request .weak 1).2 = .ok [.networkMarker, fused] ∧
      plan.toChain.plan options .request = .ok plan := by
  intro mirror audit chain options fused plan
  have h : chain.plan options .request = .ok plan := by
    rw [Chain.plan, reorder, reorderCounted, Criterion.indexed_eq]
    decide +kernel
  refine ⟨rfl, by decide, h, ?_, plan_toChain rfl (by decide) h⟩
  rw [reorderCounted, Criterion.indexed_eq]
  decide +kernel

end ChainPlan
