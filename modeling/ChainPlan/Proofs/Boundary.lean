import ChainPlan.Proofs.Sides

/-! # The boundary of a plan

A plan has two sides, so it needs a chain with exactly one marker of the network. The placement of
the marker counts the markers and refuses every other number. The search of all orders only needs
some marker to cut at: of several markers, the first becomes the boundary, and the others are left
on the server side and fused into it.
-/

namespace ChainPlan

namespace Chain

/-- The number of markers of the network. -/
def markerCount (chain : Chain) : Nat := (chain.filter Element.isNetwork).length

variable {t : Traffic} {chain other : Chain}

theorem markerCount_cons (e : Element) (rest : Chain) :
    markerCount (e :: rest) = rest.markerCount + if e.isNetwork then 1 else 0 := by
  rw [markerCount, List.filter_cons, markerCount]
  cases e.isNetwork <;> rfl

/-- Every order of a traced chain has the markers of the chain. -/
theorem markerCount_of_perm (hp : (chain.withTraces t).Perm other) :
    other.markerCount = chain.markerCount := by
  have hf : ((chain.withTraces t).filter Element.isNetwork).length = chain.markerCount := by
    rw [withTraces, List.filter_map, List.length_map]
    rfl
  rw [← hf, markerCount, (hp.filter Element.isNetwork).length_eq]

theorem markerCount_eq_zero_iff : chain.markerCount = 0 ↔ chain.LacksMarker := by
  rw [markerCount, List.length_eq_zero_iff, List.filter_eq_nil_iff]
  simp only [Bool.not_eq_true, LacksMarker]

theorem markerCount_pos_iff : 0 < chain.markerCount ↔ chain.any Element.isNetwork = true := by
  rw [Nat.pos_iff_ne_zero, ne_eq, markerCount_eq_zero_iff, LacksMarker, List.any_eq_true]
  push Not
  simp only [ne_eq, Bool.not_eq_false]

theorem lacksMarker_clientSide (chain : Chain) : chain.clientSide.LacksMarker := fun e he ↦ by
  simpa using List.mem_takeWhile_imp he

/-- The first marker is the boundary; all others are on the server side. -/
theorem markerCount_serverSide (chain : Chain) :
    chain.serverSide.markerCount = chain.markerCount - 1 := by
  induction chain with
  | nil => rfl
  | cons e rest ih =>
    rw [serverSide_cons, markerCount_cons]
    cases e.isNetwork with
    | true => rfl
    | false => exact ih

/-- The server side is free of markers exactly if the chain has no more than one. -/
theorem lacksMarker_serverSide_iff : chain.serverSide.LacksMarker ↔ chain.markerCount ≤ 1 := by
  rw [← markerCount_eq_zero_iff, markerCount_serverSide]
  omega

/-- A marker is only placed in a chain that has no other. -/
theorem markerCount_of_gather (h : chain.gather = .ok other) : chain.markerCount = 1 := by
  obtain ⟨marker, hm, -⟩ := eq_of_gather h
  rw [markerCount, hm]
  rfl

end Chain

/-! ### Duplicate fields -/

theorem Chain.Comparable.of_withTraces {level : Level} {t : Traffic} {chain : Chain}
    (h : (chain.withTraces t).Comparable level t) : chain.Comparable level t := by
  intro hl e he
  have ht := h hl _ (List.mem_map_of_mem he)
  rw [Element.on_withTraces] at ht
  exact (PathEffects.hasDistinctFields_withTraces_iff _).mp ht

section

variable {K : Type} [Add K] [Sub K] [Mul K] [OfNat K 0] [OfNat K 1] [LT K] [DecidableLT K]

namespace Chain

variable {options : PlanOptions K} {t : Traffic} {chain split : Chain}

/-- The search of all orders ends exactly for a chain that is not too long, has some marker and can
be judged. -/
theorem exists_cheapest_iff {weights : Weights K} {level : Level} {limit : Nat} :
    (∃ best, chain.cheapest weights t level limit = .ok best) ↔
      chain.length ≤ limit ∧ 0 < chain.markerCount ∧ chain.Comparable level t := by
  rw [markerCount_pos_iff]
  constructor
  · rintro ⟨best, h⟩
    obtain ⟨hl, hn, hc⟩ := of_cheapest_eq_ok h
    exact ⟨hl, hn, hc.of_withTraces⟩
  · rintro ⟨hl, hn, hc⟩
    obtain ⟨lead, he, -⟩ := exists_cheapestCounted weights (P := fun _ _ ↦ True) hc.withTraces hn hl
      trivial fun _ _ _ _ _ _ _ ↦ trivial
    exact ⟨lead.chain, congrArg Prod.snd he⟩

/-- What a chain is arranged to has its markers: one of them by the heuristic strategy, and some by
the exhaustive one. -/
theorem markerCount_of_arrange (h : chain.arrange options t = .ok split) :
    split.markerCount = chain.markerCount ∧ 0 < chain.markerCount ∧
      (options.strategy = .heuristic → chain.markerCount = 1) := by
  cases hs : options.strategy with
  | heuristic =>
    have hp := markerCount_of_perm (arrange_heuristic hs h).1
    rw [arrange, hs] at h
    obtain ⟨ordered, ho, hg⟩ := exists_of_bind_eq_ok h
    have hm : chain.markerCount = 1 := by
      rw [← markerCount_of_perm (reaches_of_reorder ho).2.perm]
      exact markerCount_of_gather hg
    exact ⟨hp, by omega, fun _ ↦ hm⟩
  | exhaustive =>
    have hp := markerCount_of_perm (arrange_exhaustive hs h).1
    rw [arrange, hs] at h
    exact ⟨hp, (exists_cheapest_iff.mp ⟨split, h⟩).2.1, by simp⟩

/-- Planning ends exactly if arranging does. -/
theorem exists_plan_iff_arrange :
    (∃ plan, chain.plan options t = .ok plan) ↔ ∃ split, chain.arrange options t = .ok split := by
  rw [plan_eq_arrange]
  constructor
  · rintro ⟨plan, h⟩
    obtain ⟨split, ha, -⟩ := exists_of_bind_eq_ok h
    exact ⟨split, ha⟩
  · rintro ⟨split, ha⟩
    exact ⟨Plan.ofChain split, by rw [ha]; rfl⟩

/-- A chain that has not exactly one marker has no plan by the heuristic strategy, and one by the
exhaustive strategy exactly if it has several markers and can be searched. No marker is ever left on
the client side of a plan, and none on the server side exactly if the chain has one marker. -/
theorem plan_boundary_iff (options : PlanOptions K) (t : Traffic) (chain : Chain) :
    (chain.markerCount ≠ 1 ∧ (∃ plan, chain.plan options t = .ok plan) ↔
      options.strategy = .exhaustive ∧ 1 < chain.markerCount ∧
        chain.length ≤ options.maxExhaustiveLength ∧ chain.Comparable options.level t) ∧
    ∀ plan, chain.plan options t = .ok plan →
      ∃ split, chain.arrange options t = .ok split ∧ plan = Plan.ofChain split ∧
        split.clientSide.LacksMarker ∧ (split.serverSide.LacksMarker ↔ chain.markerCount = 1) := by
  constructor
  · rw [exists_plan_iff_arrange]
    constructor
    · rintro ⟨hm, split, ha⟩
      obtain ⟨-, hp, heuristic⟩ := markerCount_of_arrange ha
      cases hs : options.strategy with
      | heuristic => exact absurd (heuristic hs) hm
      | exhaustive =>
        rw [arrange, hs] at ha
        obtain ⟨hl, -, hc⟩ := exists_cheapest_iff.mp ⟨split, ha⟩
        exact ⟨rfl, by omega, hl, hc⟩
    · rintro ⟨hs, hm, hl, hc⟩
      refine ⟨by omega, ?_⟩
      rw [arrange, hs]
      exact exists_cheapest_iff.mpr ⟨hl, by omega, hc⟩
  · intro plan h
    rw [plan_eq_arrange] at h
    obtain ⟨split, ha, hp⟩ := exists_of_bind_eq_ok h
    cases hp
    obtain ⟨hm, pos, -⟩ := markerCount_of_arrange ha
    refine ⟨split, ha, rfl, lacksMarker_clientSide split, ?_⟩
    rw [lacksMarker_serverSide_iff, hm]
    omega

end Chain

end

namespace Chain

/-- A field that is listed twice keeps a chain with two markers from being planned, unless the level
does not look for it. -/
theorem plan_boundary_iff_repeated :
    let tag := Element.onRequests "tag" { PathEffects.none with write := .only ["user", "user"] }
    let chain : Chain := [.networkMarker, tag, .networkMarker]
    let options (level : Level) : PlanOptions ℚ :=
      ⟨level, .exhaustive, ⟨1, 1, 1 / 10, 5, 5⟩, 10000, 8⟩
    (¬ ∃ plan, chain.plan (options .weak) .request = .ok plan) ∧
      ∃ plan split, chain.plan (options .ignore) .request = .ok plan ∧
        chain.arrange (options .ignore) .request = .ok split ∧ plan = Plan.ofChain split ∧
        split.clientSide.LacksMarker ∧ (split.serverSide.LacksMarker ↔ chain.markerCount = 1) := by
  intro tag chain options
  have hm : chain.markerCount = 2 := by decide
  constructor
  · intro h
    obtain ⟨-, -, -, hc⟩ := (plan_boundary_iff (options .weak) .request chain).1.mp ⟨by omega, h⟩
    exact absurd (hc (by decide)) (by decide +kernel)
  · obtain ⟨-, plan, h⟩ := (plan_boundary_iff (options .ignore) .request chain).1.mpr
      ⟨rfl, by omega, by decide, fun h ↦ absurd rfl h⟩
    obtain ⟨split, hs⟩ := (plan_boundary_iff (options .ignore) .request chain).2 plan h
    exact ⟨plan, split, h, hs⟩

/-- The search of all orders takes the second of two markers for an element of the server side. -/
theorem plan_exhaustive_fuses_marker :
    let acl := Element.ofName "acl"
    let chain : Chain := [.networkMarker, acl, .networkMarker]
    let options : PlanOptions ℚ := ⟨.weak, .exhaustive, ⟨1, 1, 1 / 10, 5, 5⟩, 10000, 8⟩
    chain.markerCount = 2 ∧
      chain.plan options .request = .ok ⟨none, some (acl.fuse .networkMarker)⟩ := by
  intro acl chain options
  refine ⟨by decide, ?_⟩
  rw [Chain.plan, Chain.cheapestPlan, cheapest, cheapestCounted, Criterion.indexed_eq]
  decide +kernel

end Chain

end ChainPlan
