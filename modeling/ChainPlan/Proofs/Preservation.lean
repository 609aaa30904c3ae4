import ChainPlan.Proofs.LocalSearch
import Mathlib.Data.List.Forall2

/-! # What a local search preserves

The search first adds trace fields to the effects on one kind of traffic, and from then on only
changes the order of the elements. Each step is judged against the chain before it, so the tables
of the whole run are those of its start, as far as the level compares them. The search does not look
at the placement of its start, but every chain that it moves on to has a valid one.
-/

namespace ChainPlan

/-! ### Trace fields -/

/-- The sets differ only in trace fields, which the second lists behind the others, each once. -/
def FieldSet.GainsTraces (before after : FieldSet) : Prop :=
  after.isAll = before.isAll ∧ ∃ added, after.fields = before.fields ++ added ∧ added.Nodup ∧
    ∀ f ∈ added, f ∈ Field.traces ∧ f ∉ before.fields

/-- Trace fields are all that is gained by insertions of them. -/
theorem FieldSet.gainsTraces_foldl_insert {fs : List Field} (h : ∀ f ∈ fs, f ∈ Field.traces)
    (s : FieldSet) : s.GainsTraces (fs.foldl insert s) := by
  obtain ⟨added, he, hd, hm⟩ := exists_fields_foldl_insert fs s
  exact ⟨isAll_foldl_insert fs s, added, he, hd, fun f hf ↦ ⟨h f (hm f hf).1, (hm f hf).2⟩⟩

/-- The effects differ only in trace fields that the second write and record. -/
structure PathEffects.GainsTraces (before after : PathEffects) : Prop where
  read : after.read = before.read
  write : before.write.GainsTraces after.write
  record : before.record.GainsTraces after.record
  drop : after.drop = before.drop
  block : after.block = before.block
  copy : after.copy = before.copy
  probabilistic : after.probabilistic = before.probabilistic

theorem PathEffects.gainsTraces_withTraces (e : PathEffects) : e.GainsTraces e.withTraces where
  read := rfl
  write := by
    change e.write.GainsTraces e.tracedWrite
    rw [tracedWrite_eq]
    exact FieldSet.gainsTraces_foldl_insert (fun f hf ↦ mem_traces_of_mem_marks hf) e.write
  record := by
    change e.record.GainsTraces e.tracedRecord
    rw [tracedRecord_eq]
    refine FieldSet.gainsTraces_foldl_insert (fun f hf ↦ ?_) e.record
    unfold recordMarks at hf
    split at hf
    · cases hf
    · exact hf
  drop := rfl
  block := rfl
  copy := rfl
  probabilistic := rfl

/-- The elements differ only in trace fields of their effects on one kind of traffic. -/
structure Element.GainsTraces (t : Traffic) (before after : Element) : Prop where
  names : after.names = before.names
  partner : after.partner = before.partner
  site : after.site = before.site
  state : after.state = before.state
  other : ∀ u, u ≠ t → after.on u = before.on u
  on : (before.on t).GainsTraces (after.on t)

theorem Element.gainsTraces_withTraces (t : Traffic) (e : Element) :
    e.GainsTraces t (e.withTraces t) where
  names := rfl
  partner := rfl
  site := rfl
  state := rfl
  other _ hu := Effects.on_mapOn_ne e.effects hu _
  on := by
    rw [on_withTraces]
    exact (e.on t).gainsTraces_withTraces

namespace Chain

variable {t : Traffic} {level : Level} {chain out : Chain}

/-- No element is changed but for its trace fields. -/
theorem forall₂_gainsTraces (t : Traffic) (chain : Chain) :
    List.Forall₂ (Element.GainsTraces t) chain (chain.withTraces t) := by
  rw [withTraces, List.forall₂_map_right_iff, List.forall₂_same]
  exact fun e _ ↦ e.gainsTraces_withTraces t

/-! ### Lineages and placements -/

/-- Chains that the level can judge and that agree have lineages with the same tables. -/
theorem Agree.exists_lineages (h : chain.Agree level t out) (hl : level ≠ .ignore)
    (hc : chain.Comparable level t) (hc' : out.Comparable level t) :
    ∃ before after, Lineage.ofChain chain t = .ok before ∧ Lineage.ofChain out t = .ok after ∧
      (∀ key, after.read.find? key = before.read.find? key) ∧
      (level = .strong → ∀ key, after.record.find? key = before.record.find? key) := by
  refine ⟨.trace chain t, .trace out t, ?_, ?_, fun key ↦ (h.reads hl key.1 key.2).symm, ?_⟩
  · exact Lineage.ofChain_eq_ok_iff.mpr ⟨hc hl, rfl⟩
  · exact Lineage.ofChain_eq_ok_iff.mpr ⟨hc' hl, rfl⟩
  · rintro rfl key
    exact (h .record (by simp [Level.compared]) key.1 key.2).symm

/-- A search that has made a move ends with a valid placement, wherever it has started. -/
theorem isPlaced_of_descend {limit budget : Nat} {stats stats' : ReorderStats}
    (h : descend (.indexed t level) t limit budget stats chain = (stats', .ok out))
    (hm : stats.totalMoves < stats'.totalMoves) : out.isPlaced = true := by
  have still (count : Nat) : (stats.tried count).totalMoves = stats.totalMoves := rfl
  cases budget with
  | zero =>
    rw [descend] at h
    split at h
    · cases h
    · cases h
      exact absurd hm (by simp [still])
    · cases h
  | succ budget =>
    rw [descend] at h
    split at h
    · cases h
    · cases h
      exact absurd hm (by simp [still])
    · next hs =>
      have placed := (equivalent_eq_ok_true_iff.mp (accepts_of_scan hs).stands).2.1
      exact (reaches_of_descend h).2.isPlaced placed

/-- A local search that ends has changed nothing but the order of the elements and their trace
fields. The tables of the lineage are the same as before, the one of the records at the strong
level, and the placement is valid if it was so before or any move was made. -/
theorem reorderCounted_preserves {maxMoves : Nat} {stats : ReorderStats}
    (h : chain.reorderCounted t level maxMoves = (stats, .ok out)) :
    (chain.withTraces t).Perm out ∧
      List.Forall₂ (Element.GainsTraces t) chain (chain.withTraces t) ∧
      (level ≠ .ignore → ∃ before after, Lineage.ofChain (chain.withTraces t) t = .ok before ∧
        Lineage.ofChain out t = .ok after ∧
        (∀ key, after.read.find? key = before.read.find? key) ∧
        (level = .strong → ∀ key, after.record.find? key = before.record.find? key)) ∧
      (chain.isPlaced = true ∨ 0 < stats.totalMoves → out.isPlaced = true) := by
  obtain ⟨hc, hr⟩ := reaches_of_descend h
  refine ⟨hr.perm, forall₂_gainsTraces t chain, fun hl ↦ ?_, ?_⟩
  · exact hr.agree.exists_lineages hl hc (hc.perm hr.perm)
  · rintro (placed | hm)
    · exact hr.isPlaced (by simpa using placed)
    · exact isPlaced_of_descend h hm

/-- Two moves lead a chain with an element on the wrong side to a valid placement. -/
theorem reorderCounted_preserves_misplaced :
    let unzip := { Element.onRequests "unzip" { PathEffects.none with write := .only ["body"] } with
      partner := some "zip", site := .server }
    let acl := Element.onRequests "acl"
      { PathEffects.none with read := .only ["key"], record := .only ["key"], drop := true }
    let chain : Chain := [unzip, .networkMarker, acl]
    let out : Chain := Chain.withTraces .request [acl, .networkMarker, unzip]
    chain.isPlaced = false ∧ chain.reorderCounted .request .strong 2 = (⟨2, 0, 3⟩, .ok out) ∧
      (chain.withTraces .request).Perm out ∧
      List.Forall₂ (Element.GainsTraces .request) chain (chain.withTraces .request) ∧
      (∃ before after, Lineage.ofChain (chain.withTraces .request) .request = .ok before ∧
        Lineage.ofChain out .request = .ok after ∧
        (∀ key, after.read.find? key = before.read.find? key) ∧
        ∀ key, after.record.find? key = before.record.find? key) ∧
      out.isPlaced = true := by
  intro unzip acl chain out
  have h : chain.reorderCounted .request .strong 2 = (⟨2, 0, 3⟩, .ok out) := by
    rw [reorderCounted, Criterion.indexed_eq]
    decide +kernel
  obtain ⟨perm, traced, lineages, placed⟩ := reorderCounted_preserves h
  obtain ⟨before, after, hb, ha, reads, records⟩ := lineages (by decide)
  exact ⟨by decide, h, perm, traced, ⟨before, after, hb, ha, reads, records rfl⟩,
    placed (.inr (by decide))⟩

end Chain

end ChainPlan
