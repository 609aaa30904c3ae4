import ChainPlan.Proofs.Consolidation
import ChainPlan.Proofs.Gathering

/-! # State of fused elements

Of several strong elements on a side, the first decides where the replica of the fused one is, and
the first element of all decides how updates are combined and whether they are kept. So a side that
lacks a replica may seem to have it once it is fused, and what the only element with state asks for
may be lost behind elements that ask for nothing.
-/

namespace ChainPlan

namespace Chain

variable {side before after before' after' : Chain} {e marker : Element} {here : Replica}

/-! ### Replicas -/

/-- The fused element is strong exactly if the side has a first strong element. -/
theorem isStrong_consolidate (h : side.consolidate = some e) :
    e.isStrong = (side.find? Element.isStrong).isSome := by
  rw [Element.isStrong, (joins_consolidate h).state.isStrong, List.any_map, List.isSome_find?]
  rfl

/-- The fused element has its replica where the first strong element of the side has it. -/
theorem replica_consolidate (h : side.consolidate = some e) {d : Element}
    (hd : side.find? Element.isStrong = some d) : e.state.replica = d.state.replica := by
  have strong : (side.map Element.state).find? ElementState.isStrong = some d.state := by
    rw [List.find?_map]
    exact congrArg (Option.map Element.state) hd
  have replica := (joins_consolidate h).state.replica
  rw [strong, Option.some_or, Option.map_some, Option.some.injEq] at replica
  exact replica

/-- The first strong element of the side has its replica there, but some strong element has not. -/
def HidesPenalty (side : Chain) (here : Replica) : Prop :=
  (∃ d, side.find? Element.isStrong = some d ∧ d.state.replica = here) ∧
    side.lacksReplica here = true

instance (side : Chain) (here : Replica) : Decidable (side.HidesPenalty here) :=
  decidable_of_iff
    (((side.find? Element.isStrong).any fun d ↦ d.state.replica = here) = true ∧
      side.lacksReplica here = true)
    (by simp [HidesPenalty, Option.any_eq_true])

/-- A side without a strong element lacks no replica. -/
theorem lacksReplica_of_find?_eq_none (h : side.find? Element.isStrong = none) :
    side.lacksReplica here = false := by
  rw [lacksReplica, List.any_eq_false]
  intro d hd
  simp [List.find?_eq_none.mp h d hd]

/-- What is fused from a side lacks a replica exactly if the first strong element lacks it. -/
theorem lacksReplica_fused_iff (h : side.consolidate = some e) :
    lacksReplica [e] here = true ↔
      ∃ d, side.find? Element.isStrong = some d ∧ d.state.replica ≠ here := by
  have strong := isStrong_consolidate h
  cases hd : side.find? Element.isStrong with
  | none =>
    rw [hd, Option.isSome_none] at strong
    simp [lacksReplica, strong]
  | some d =>
    rw [hd, Option.isSome_some] at strong
    simp [lacksReplica, strong, replica_consolidate h hd]

/-- What is fused from a side says the same of the replica as the side, unless the first strong
element of the side has it and another strong one has not. -/
theorem lacksReplica_fused_eq_iff (h : side.consolidate = some e) :
    lacksReplica [e] here = side.lacksReplica here ↔ ¬ side.HidesPenalty here := by
  have fused : lacksReplica [e] here = true ↔ _ := lacksReplica_fused_iff h
  constructor
  · intro same hidden
    obtain ⟨⟨d, hd, hr⟩, lacks⟩ := hidden
    rw [← same, fused] at lacks
    obtain ⟨first, hf, hn⟩ := lacks
    rw [hd, Option.some.injEq] at hf
    exact hn (hf ▸ hr)
  · intro shown
    rw [Bool.eq_iff_iff, fused]
    constructor
    · intro ⟨d, hd, hr⟩
      apply List.any_eq_true.mpr
      exact ⟨d, List.mem_of_find?_eq_some hd, by simp [List.find?_some hd, hr]⟩
    · intro lacks
      cases hd : side.find? Element.isStrong with
      | none => simp [lacksReplica_of_find?_eq_none hd] at lacks
      | some d =>
        refine ⟨d, rfl, ?_⟩
        intro hr
        exact shown ⟨⟨d, hd, hr⟩, lacks⟩

/-- Fusion makes no marker. -/
theorem isNetwork_consolidate (h : side.consolidate = some e) (hs : side.LacksMarker) :
    e.isNetwork = false := by
  apply of_consolidate (P := fun e ↦ e.isNetwork = false) _ h hs
  intro a b ha hb
  by_cases here : a.site = .dontCare
  · have moved : (a.fuse b).isNetwork = b.isNetwork := by
      simp [Element.isNetwork, Element.fuse, here]
    exact moved.trans hb
  · have stayed : (a.fuse b).isNetwork = a.isNetwork := by
      simp [Element.isNetwork, Element.fuse, here]
    exact stayed.trans ha

/-- Sides that say the same of their replicas cost the same for strong state. -/
theorem addStrongCost_congr {K : Type} [Add K] (weights : Weights K) (total : K)
    (hm : marker.isNetwork = true) (hb : before.LacksMarker) (hb' : before'.LacksMarker)
    (client : before'.lacksReplica .client = before.lacksReplica .client)
    (server : after'.lacksReplica .server = after.lacksReplica .server) :
    addStrongCost weights (before' ++ marker :: after') total =
      addStrongCost weights (before ++ marker :: after) total := by
  unfold addStrongCost
  rw [clientSide_split hb hm, clientSide_split hb' hm, serverSide_split hb hm,
    serverSide_split hb' hm, client, server]

/-- What is fused from a side lacks a replica exactly if the first strong element of the side lacks
it. That is what the side as a whole says of the replica, unless its first strong element has it and
another strong one has not. But for this case, strong state costs the same when a side is fused. -/
theorem lacksReplica_consolidate_iff (h : side.consolidate = some e) :
    (∀ here,
      (lacksReplica [e] here = true ↔
        ∃ d, side.find? Element.isStrong = some d ∧ d.state.replica ≠ here) ∧
      (lacksReplica [e] here = side.lacksReplica here ↔ ¬ side.HidesPenalty here)) ∧
    ∀ {K : Type} [Add K] (weights : Weights K) (total : K) (other : Chain) (marker : Element),
      marker.isNetwork = true →
      (side.LacksMarker → ¬ side.HidesPenalty .client →
        addStrongCost weights (e :: marker :: other) total =
          addStrongCost weights (side ++ marker :: other) total) ∧
      (other.LacksMarker → ¬ side.HidesPenalty .server →
        addStrongCost weights (other ++ [marker, e]) total =
          addStrongCost weights (other ++ marker :: side) total) := by
  constructor
  · intro here
    exact ⟨lacksReplica_fused_iff h, lacksReplica_fused_eq_iff h⟩
  · intro K _ weights total other marker hm
    constructor
    · intro hs shown
      have single : LacksMarker [e] := by simpa [LacksMarker] using isNetwork_consolidate h hs
      apply addStrongCost_congr weights total hm hs single _ rfl
      exact (lacksReplica_fused_eq_iff h).mpr shown
    · intro ho shown
      apply addStrongCost_congr weights total hm ho ho rfl
      exact (lacksReplica_fused_eq_iff h).mpr shown

/-- A strong element without a replica is not seen behind one that has its replica there. In front
of it it is seen, and costs the same as before. -/
theorem lacksReplica_consolidate_iff_ordered :
    let strong (r : Replica) : ElementState := { ElementState.stateless with
      stateful := true, consistency := .strong, replica := r }
    let weights : Weights Nat := ⟨1, 2, 0, 5, 3⟩
    let tag := Element.ofName "tag"
    let session := { Element.ofName "session" with state := strong .client }
    let quota := { Element.ofName "quota" with state := strong .none }
    let behind := (tag.fuse session).fuse quota
    let front := (tag.fuse quota).fuse session
    consolidate [tag, session, quota] = some behind ∧
      HidesPenalty [tag, session, quota] .client ∧
      ¬ lacksReplica [behind] .client = lacksReplica [tag, session, quota] .client ∧
      consolidate [tag, quota, session] = some front ∧
      LacksMarker [tag, quota, session] ∧ ¬ HidesPenalty [tag, quota, session] .client ∧
      addStrongCost weights [front, .networkMarker] 9 =
        addStrongCost weights [tag, quota, session, .networkMarker] 9 := by
  intro strong weights tag session quota behind front
  have hb : consolidate [tag, session, quota] = some behind := rfl
  have hf : consolidate [tag, quota, session] = some front := rfl
  have hidden : HidesPenalty [tag, session, quota] .client := by decide
  have shown : ¬ HidesPenalty [tag, quota, session] .client := by decide
  have lacks : LacksMarker [tag, quota, session] := by
    unfold LacksMarker
    decide
  have seen := ((lacksReplica_consolidate_iff hb).1 .client).2
  have cost := (lacksReplica_consolidate_iff hf).2 weights 9 [] .networkMarker rfl
  exact ⟨hb, hidden, fun same ↦ seen.mp same hidden, hf, lacks, shown, cost.1 lacks shown⟩

/-- The replica of the first strong element hides that the second one has none. -/
theorem fused_hides_penalty :
    let strong (r : Replica) : ElementState := { ElementState.stateless with
      stateful := true, consistency := .strong, replica := r }
    let session := { Element.ofName "session" with state := strong .client }
    let quota := { Element.ofName "quota" with state := strong .none }
    consolidate [session, quota] = some (session.fuse quota) ∧
      lacksReplica [session, quota] .client = true ∧
      lacksReplica [session.fuse quota] .client = false := by
  decide

end Chain

/-! ### The only element with state -/

namespace ElementState

variable {s x : ElementState} {before after parts : List ElementState}

theorem consistency_eq_of_isStrong (h : s.isStrong = x.isStrong) :
    s.consistency = x.consistency := by
  unfold isStrong at h
  cases hs : s.consistency <;> cases hx : x.consistency <;> simp [hs, hx] at h ⊢

/-- What is not asked for without state is not asked for by parts without state. -/
theorem any_eq_false_of_stateless {p : ElementState → Bool} (hp : p stateless = false)
    (h : ∀ q ∈ parts, q = stateless) : parts.any p = false := by
  apply List.any_eq_false.mpr
  intro q hq
  simp [h q hq, hp]

/-- Among parts without state, the only one with state is joined with its own consistency. In front
of the others it decides the rest too. Behind others it decides where the replica is if it is strong,
and the rest is that of parts without state. -/
theorem Joins.of_stateless (h : s.Joins (before ++ x :: after))
    (hb : ∀ p ∈ before, p = stateless) (ha : ∀ p ∈ after, p = stateless) :
    s.stateful = x.stateful ∧ s.isStrong = x.isStrong ∧
      (s.replica = x.replica ↔
        before = [] ∨ x.isStrong = true ∨ x.replica = stateless.replica) ∧
      (s.combiner = x.combiner ↔ before = [] ∨ x.combiner = stateless.combiner) ∧
      (s.persistence = x.persistence ↔ before = [] ∨ x.persistence = stateless.persistence) := by
  have only (p : ElementState → Bool) (hp : p stateless = false) :
      (before ++ x :: after).any p = p x := by
    rw [List.any_append, List.any_cons, any_eq_false_of_stateless hp hb,
      any_eq_false_of_stateless hp ha, Bool.false_or, Bool.or_false]
  have front : before.find? ElementState.isStrong = Option.none := by
    simpa using any_eq_false_of_stateless (p := ElementState.isStrong) rfl hb
  have back : after.find? ElementState.isStrong = Option.none := by
    simpa using any_eq_false_of_stateless (p := ElementState.isStrong) rfl ha
  have replica := h.replica
  have combiner := h.combiner
  have persistence := h.persistence
  rw [List.find?_append, List.find?_cons, front, back, Option.none_or] at replica
  refine ⟨h.stateful.trans (only _ rfl), h.isStrong.trans (only _ rfl), ?_⟩
  cases before with
  | nil =>
    have own : s.replica = x.replica := by
      cases hx : x.isStrong <;> simpa [hx] using replica
    simp only [List.nil_append, List.head?_cons, Option.map_some, Option.some.injEq] at *
    simp [own, combiner, persistence]
  | cons first rest =>
    obtain rfl := hb first List.mem_cons_self
    simp only [List.cons_append, List.head?_cons, Option.map_some, Option.some.injEq] at *
    rw [combiner, persistence]
    cases hx : x.isStrong with
    | true =>
      have own : s.replica = x.replica := by simpa [hx] using replica
      simp [own, eq_comm]
    | false =>
      have lost : s.replica = stateless.replica := by simpa [hx] using replica
      simp [lost, eq_comm]

end ElementState

namespace Chain

variable {before after : Chain} {e x : Element}

/-- Among elements without state, the only one with state decides whether what is fused from them is
strong. If it is the first of them, all that it needs is kept. Behind others its replica is kept if
it is strong, and how updates are combined and kept is what elements without state ask for. -/
theorem state_consolidate_iff (hb : ∀ d ∈ before, d.state = .stateless)
    (ha : ∀ d ∈ after, d.state = .stateless)
    (h : consolidate (before ++ x :: after) = some e) :
    e.state.stateful = x.state.stateful ∧ e.state.consistency = x.state.consistency ∧
      (e.state.replica = x.state.replica ↔
        before = [] ∨ x.isStrong = true ∨ x.state.replica = ElementState.stateless.replica) ∧
      (e.state.combiner = x.state.combiner ↔
        before = [] ∨ x.state.combiner = ElementState.stateless.combiner) ∧
      (e.state.persistence = x.state.persistence ↔
        before = [] ∨ x.state.persistence = ElementState.stateless.persistence) := by
  have joined := (joins_consolidate h).state
  rw [List.map_append, List.map_cons] at joined
  obtain ⟨stateful, strong, rest⟩ := joined.of_stateless (by simpa using hb) (by simpa using ha)
  rw [List.map_eq_nil_iff] at rest
  exact ⟨stateful, ElementState.consistency_eq_of_isStrong strong, rest⟩

/-- A strong counter behind an element without state keeps its replica, and updates are no longer
added up. -/
theorem state_consolidate_iff_counted :
    let acl := Element.ofName "acl"
    let sums : ElementState := ⟨true, .strong, "SUM", .server, "persistent"⟩
    let counter := { Element.ofName "counter" with state := sums }
    consolidate [acl, counter, acl] = some ((acl.fuse counter).fuse acl) ∧
      (∀ d ∈ [acl], d.state = .stateless) ∧
      ((acl.fuse counter).fuse acl).state.replica = counter.state.replica ∧
      ¬ ((acl.fuse counter).fuse acl).state.combiner = counter.state.combiner := by
  intro acl sums counter
  have h : consolidate [acl, counter, acl] = some ((acl.fuse counter).fuse acl) := rfl
  have hb : ∀ d ∈ [acl], d.state = .stateless := by decide
  obtain ⟨-, -, replica, combiner, -⟩ := @state_consolidate_iff [acl] [acl] _ _ hb hb h
  refine ⟨h, hb, replica.mpr (.inr (.inl rfl)), ?_⟩
  rw [combiner]
  decide

/-- Behind an element without state, a counter is combined and kept as if it asked for nothing. -/
theorem fused_loses_combiner :
    let acl := Element.ofName "acl"
    let sums : ElementState := ⟨true, .eventual, "SUM", .none, "persistent"⟩
    let counter := { Element.ofName "counter" with state := sums }
    acl.state = .stateless ∧ counter.state.stateful = true ∧
      consolidate [acl, counter] = some (acl.fuse counter) ∧
      (acl.fuse counter).state = { ElementState.stateless with stateful := true } := by
  decide

end Chain

end ChainPlan
