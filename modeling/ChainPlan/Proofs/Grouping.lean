import ChainPlan.Proofs.Consolidation

/-! # Grouping of fusions

Elements that run one after the other are fused to the same element however they are grouped. For
what is joined by disjunction, by taking the first that is given or by writing one list behind the
other, this is a law of each. A union adds the fields that it does not have yet, each once, so a
field of the last set that the middle one lists is found in the first union too; and the first
strong element is the same of any grouping.
-/

namespace ChainPlan

/-- What is added to an addition is added one after the other. -/
theorem foldl_addNew_foldl_addNew {α : Type} [DecidableEq α] (xs ys zs : List α) :
    (zs.foldl addNew ys).foldl addNew xs = zs.foldl addNew (ys.foldl addNew xs) := by
  induction zs generalizing ys with
  | nil => rfl
  | cons z zs ih =>
    have step : (addNew ys z).foldl addNew xs = addNew (ys.foldl addNew xs) z := by
      by_cases h : z ∈ ys
      · have added : z ∈ ys.foldl addNew xs := mem_foldl_addNew.mpr (.inr h)
        rw [addNew, addNew, if_pos h, if_pos added]
      · rw [addNew, if_neg h, List.foldl_append, List.foldl_cons, List.foldl_nil]
    rw [List.foldl_cons, List.foldl_cons, ih, step]

/-- A union of three sets lists the same fields in the same order however it is grouped, also if
the sets list fields twice. -/
theorem FieldSet.union_assoc (a b c : FieldSet) : (a.union b).union c = a.union (b.union c) := by
  cases c with
  | all => rfl
  | only cs =>
    cases b with
    | all => simp only [union, foldl_insert_all]
    | only bs =>
      cases a with
      | all => simp only [union, foldl_insert_all, foldl_insert_only]
      | only as =>
        simp only [union, foldl_insert_only]
        rw [foldl_addNew_foldl_addNew]

theorem PathEffects.merge_assoc (a b c : PathEffects) :
    (a.merge b).merge c = a.merge (b.merge c) := by
  simp only [merge, FieldSet.union_assoc, Bool.or_assoc]

theorem Effects.merge_assoc (a b c : Effects) : (a.merge b).merge c = a.merge (b.merge c) := by
  simp only [merge, PathEffects.merge_assoc]

/-- The first strong state decides, and there is one in a group exactly if there is one in it. -/
theorem ElementState.merge_assoc (a b c : ElementState) :
    (a.merge b).merge c = a.merge (b.merge c) := by
  cases ha : a.isStrong <;> cases hb : b.isStrong <;> cases hc : c.isStrong <;>
    simp_all [merge, isStrong, Bool.or_assoc]

namespace Element

/-- Fusion does not depend on how elements are grouped. -/
theorem fuse_assoc (a b c : Element) : (a.fuse b).fuse c = a.fuse (b.fuse c) := by
  have site : ((a.fuse b).fuse c).site = (a.fuse (b.fuse c)).site := by
    by_cases ha : a.site = .dontCare <;> simp [fuse, ha]
  have partner : ((a.fuse b).fuse c).partner = (a.fuse (b.fuse c)).partner := Option.or_assoc
  rw [fuse, fuse, mk.injEq]
  exact ⟨List.append_assoc _ _ _, partner, site, ElementState.merge_assoc _ _ _,
    Effects.merge_assoc _ _ _⟩

instance : Std.Associative fuse := ⟨fuse_assoc⟩

end Element

namespace Chain

/-- Two sides that follow each other are fused to what is fused from the elements of the sides, as
far as they have elements. -/
theorem consolidate_append (xs ys : Chain) :
    (xs ++ ys).consolidate = Option.merge Element.fuse xs.consolidate ys.consolidate := by
  cases xs with
  | nil => cases ys <;> rfl
  | cons x xs =>
    cases ys with
    | nil => simp [consolidate]
    | cons y ys =>
      simp only [List.cons_append, consolidate, List.foldl_append, List.foldl_cons,
        Option.merge_some_some]
      rw [List.foldl_assoc]

/-- Three elements are fused to the same element however they are grouped, and so are all elements
of two sides that follow each other: one by one, or each side on its own and then the two. -/
theorem consolidate_groups :
    (∀ a b c : Element, (a.fuse b).fuse c = a.fuse (b.fuse c)) ∧
      ∀ xs ys : Chain, xs ≠ [] → ys ≠ [] → ∃ x y, xs.consolidate = some x ∧
        ys.consolidate = some y ∧ (xs ++ ys).consolidate = some (x.fuse y) := by
  refine ⟨Element.fuse_assoc, fun xs ys hx hy ↦ ?_⟩
  obtain ⟨x, xs, rfl⟩ := List.exists_cons_of_ne_nil hx
  obtain ⟨y, ys, rfl⟩ := List.exists_cons_of_ne_nil hy
  exact ⟨_, _, rfl, rfl, consolidate_append _ _⟩

/-- Sets that list fields twice, a wildcard, and a strong state between two that are not. -/
theorem consolidate_groups_repeated :
    let tag := { Element.onRequests "tag"
        { PathEffects.none with read := .only ["user", "user"], write := .only ["body"] } with
      state := { ElementState.stateless with stateful := true, combiner := "SUM" } }
    let quota := { Element.onRequests "quota"
        { PathEffects.none with read := .only ["key", "user", "key"], drop := true } with
      site := .client
      state := { ElementState.stateless with consistency := .strong, replica := .client } }
    let cache := { Element.onRequests "cache"
        { PathEffects.none with read := .only ["body", "key", "body"], write := .all } with
      partner := some "tag" }
    [tag] ≠ [] ∧ [quota, cache] ≠ [] ∧
      (∃ x y, consolidate [tag] = some x ∧ consolidate [quota, cache] = some y ∧
        consolidate [tag, quota, cache] = some (x.fuse y)) ∧
      consolidate [tag, quota, cache] = some { Element.onRequests "tag"
          ⟨.only ["user", "user", "key", "body"], .all, .empty, true, false, false, false⟩ with
        names := ["tag", "quota", "cache"]
        partner := some "tag"
        site := .client
        state := ⟨true, .strong, "SUM", .client, ElementState.standardPersistence⟩ } := by
  intro tag quota cache
  have front : [tag] ≠ [] := List.cons_ne_nil _ _
  have back : [quota, cache] ≠ [] := List.cons_ne_nil _ _
  exact ⟨front, back, consolidate_groups.2 _ _ front back, by decide⟩

end Chain

end ChainPlan
