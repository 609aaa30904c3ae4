import ChainPlan.Plan
import ChainPlan.Proofs.Fields
import Mathlib.Data.List.Induction

/-! # Consolidated sides

The element that stands for a side is fused from its elements one by one, so it joins what they
have: all names, fields and flags, the first partner and site, and the first strong state. It also
has what each of them has and fusion keeps: sets that list no field twice, and effects that note
what they do in their own trace fields. Such effects gain nothing from further trace fields.
-/

namespace ChainPlan

/-! ### Unions -/

namespace FieldSet

/-- A union has the fields of both sets. -/
theorem contains_union (s s' : FieldSet) (f : Field) :
    (s.union s').contains f = true ↔ s.contains f = true ∨ s'.contains f = true := by
  cases s' with
  | all => simp [union, contains, isAll]
  | only fs =>
    rw [union, contains_foldl_insert]
    simp [contains, isAll, fields]

/-- A union is the wildcard if one of the sets is. -/
theorem isAll_union (s s' : FieldSet) : (s.union s').isAll = (s.isAll || s'.isAll) := by
  cases s' with
  | all => simp [union, isAll]
  | only fs =>
    rw [union, isAll_foldl_insert]
    simp [isAll]

theorem nodup_fields_union {s : FieldSet} (s' : FieldSet) (h : s.fields.Nodup) :
    (s.union s').fields.Nodup := by
  cases s' with
  | all => exact List.nodup_nil
  | only fs => exact nodup_fields_foldl_insert fs h

/-- A set is empty if it has no field. -/
theorem isEmpty_iff (s : FieldSet) : s.isEmpty = true ↔ ∀ f, ¬ s.contains f = true := by
  cases s with
  | all => simp [isEmpty, contains, isAll]
  | only fs => simp [isEmpty, contains, isAll, fields, List.eq_nil_iff_forall_not_mem]

/-- Fields that a set has change nothing when they are inserted. -/
theorem foldl_insert_of_contains {s : FieldSet} {fs : List Field}
    (h : ∀ f ∈ fs, s.contains f = true) : fs.foldl insert s = s := by
  induction fs with
  | nil => rfl
  | cons f fs ih =>
    have hf : s.insert f = s := by
      have hc := h f List.mem_cons_self
      cases s with
      | all => rfl
      | only xs => exact congrArg only (if_pos (by simpa [contains, isAll, fields] using hc))
    rw [List.foldl_cons, hf]
    exact ih fun g hg ↦ h g (List.mem_cons_of_mem f hg)

end FieldSet

/-! ### Merged effects -/

namespace PathEffects

/-- Merged effects access the fields of both. -/
theorem fieldsOf_merge (a b : PathEffects) (access : Access) :
    (a.merge b).fieldsOf access = (a.fieldsOf access).union (b.fieldsOf access) := by
  cases access <;> rfl

theorem HasDistinctFields.merge {a : PathEffects} (h : a.HasDistinctFields) (b : PathEffects) :
    (a.merge b).HasDistinctFields := by
  intro access
  rw [fieldsOf_merge]
  exact FieldSet.nodup_fields_union _ (h access)

/-- The effects already have the trace fields that they imply. -/
structure IsTraced (e : PathEffects) : Prop where
  write : ∀ f ∈ e.marks, e.write.contains f = true
  record : ∀ f ∈ e.recordMarks, e.record.contains f = true

/-- Effects that have their trace fields gain none. -/
theorem IsTraced.withTraces_eq {e : PathEffects} (h : e.IsTraced) : e.withTraces = e := by
  unfold withTraces
  rw [tracedWrite_eq, tracedRecord_eq, FieldSet.foldl_insert_of_contains h.write,
    FieldSet.foldl_insert_of_contains h.record]

theorem mem_marks_merge {a b : PathEffects} {f : Field} :
    f ∈ (a.merge b).marks ↔ f ∈ a.marks ∨ f ∈ b.marks := by
  simp only [mem_marks, merge, Bool.or_eq_true]
  grind

/-- Effects that record a field record every trace field. -/
theorem mem_recordMarks {e : PathEffects} {f : Field} :
    f ∈ e.recordMarks ↔ f ∈ Field.traces ∧ ∃ g, e.record.contains g = true := by
  have h := FieldSet.isEmpty_iff e.record
  unfold recordMarks
  split
  · next he => simp [h.mp he]
  · next he =>
    rw [h] at he
    push Not at he
    simp [he]

/-- Once trace fields are added, none is missing. -/
theorem isTraced_withTraces (e : PathEffects) : e.withTraces.IsTraced where
  write f hf := by
    change e.tracedWrite.contains f = true
    rw [tracedWrite_eq, FieldSet.contains_foldl_insert]
    exact .inr hf
  record f hf := by
    obtain ⟨ht, g, hg⟩ := mem_recordMarks.mp hf
    change e.tracedRecord.contains g = true at hg
    change e.tracedRecord.contains f = true
    rw [tracedRecord_eq, FieldSet.contains_foldl_insert] at hg ⊢
    refine .inr (mem_recordMarks.mpr ⟨ht, ?_⟩)
    rcases hg with hg | hg
    · exact ⟨g, hg⟩
    · exact (mem_recordMarks.mp hg).2

/-- Merged effects need no further trace fields if their parts need none. -/
theorem IsTraced.merge {a b : PathEffects} (ha : a.IsTraced) (hb : b.IsTraced) :
    (a.merge b).IsTraced where
  write f hf := by
    refine (FieldSet.contains_union a.write b.write f).mpr ?_
    exact (mem_marks_merge.mp hf).imp (ha.write f) (hb.write f)
  record f hf := by
    refine (FieldSet.contains_union a.record b.record f).mpr ?_
    obtain ⟨ht, g, hg⟩ := mem_recordMarks.mp hf
    rcases (FieldSet.contains_union a.record b.record g).mp hg with hg | hg
    · exact .inl (ha.record f (mem_recordMarks.mpr ⟨ht, g, hg⟩))
    · exact .inr (hb.record f (mem_recordMarks.mpr ⟨ht, g, hg⟩))

end PathEffects

/-! ### What is made of parts -/

/-- The effects are those of all parts together. -/
structure PathEffects.Joins (e : PathEffects) (parts : List PathEffects) : Prop where
  contains : ∀ access f, (e.fieldsOf access).contains f = true ↔
    ∃ p ∈ parts, (p.fieldsOf access).contains f = true
  isAll : ∀ access, (e.fieldsOf access).isAll = true ↔
    ∃ p ∈ parts, (p.fieldsOf access).isAll = true
  nodup : ∀ access, (∀ p ∈ parts, (p.fieldsOf access).fields.Nodup) →
    (e.fieldsOf access).fields.Nodup
  drop : e.drop = parts.any PathEffects.drop
  block : e.block = parts.any PathEffects.block
  copy : e.copy = parts.any PathEffects.copy
  probabilistic : e.probabilistic = parts.any PathEffects.probabilistic

theorem PathEffects.joins_single (e : PathEffects) : e.Joins [e] := by
  constructor <;> simp

/-- A merge joins one more part. -/
theorem PathEffects.Joins.merge {e : PathEffects} {parts : List PathEffects} (h : e.Joins parts)
    (p : PathEffects) : (e.merge p).Joins (parts ++ [p]) where
  contains access f := by
    rw [fieldsOf_merge, FieldSet.contains_union, h.contains]
    simp [or_and_right, exists_or]
  isAll access := by
    rw [fieldsOf_merge, FieldSet.isAll_union, Bool.or_eq_true, h.isAll]
    simp [or_and_right, exists_or]
  nodup access hn := by
    rw [fieldsOf_merge]
    apply FieldSet.nodup_fields_union
    apply h.nodup
    intro q hq
    exact hn q (List.mem_append_left [p] hq)
  drop := by simp [PathEffects.merge, h.drop]
  block := by simp [PathEffects.merge, h.block]
  copy := by simp [PathEffects.merge, h.copy]
  probabilistic := by simp [PathEffects.merge, h.probabilistic]

/-- The needs of state are made of those of the parts: the first strong part, or else the first one,
decides where the replica is, and the first one how updates are combined and kept. -/
structure ElementState.Joins (s : ElementState) (parts : List ElementState) : Prop where
  stateful : s.stateful = parts.any ElementState.stateful
  isStrong : s.isStrong = parts.any ElementState.isStrong
  replica : some s.replica =
    ((parts.find? ElementState.isStrong).or parts.head?).map ElementState.replica
  combiner : some s.combiner = parts.head?.map ElementState.combiner
  persistence : some s.persistence = parts.head?.map ElementState.persistence

theorem ElementState.joins_single (s : ElementState) : s.Joins [s] := by
  constructor <;> cases hs : s.isStrong <;> simp [hs]

/-- A merge joins one more part. -/
theorem ElementState.Joins.merge {s : ElementState} {parts : List ElementState} (h : s.Joins parts)
    (p : ElementState) : (s.merge p).Joins (parts ++ [p]) where
  stateful := by simp [h.stateful]
  isStrong := by simp [h.isStrong]
  replica := by
    have first := h.replica
    have strong : s.isStrong = (parts.find? ElementState.isStrong).isSome :=
      h.isStrong.trans List.isSome_find?.symm
    rw [replica_merge, List.find?_append, List.head?_append]
    cases hf : parts.find? ElementState.isStrong with
    | none =>
      rw [hf, Option.none_or] at first
      rw [hf, Option.isSome_none] at strong
      cases hp : p.isStrong with
      | true => simp [strong, hp]
      | false =>
        cases hq : parts.head? with
        | none => simp [hq] at first
        | some q => simpa [hp, hq] using first
    | some d =>
      rw [hf, Option.some_or, Option.map_some] at first
      rw [hf, Option.isSome_some] at strong
      simp [strong, first]
  combiner := by rw [combiner_merge, List.head?_append, Option.map_or, ← h.combiner]; rfl
  persistence := by rw [persistence_merge, List.head?_append, Option.map_or, ← h.persistence]; rfl

/-! ### Fused elements -/

namespace Element

@[simp] theorem on_fuse (a b : Element) (t : Traffic) :
    (a.fuse b).on t = (a.on t).merge (b.on t) := Effects.on_merge _ _ t

/-- An element that has its trace fields gains none. -/
theorem withTraces_of_isTraced {t : Traffic} {e : Element} (h : (e.on t).IsTraced) :
    e.withTraces t = e := by
  have he : e.effects.mapOn t PathEffects.withTraces = e.effects := by
    cases t with
    | request => exact congrArg (Effects.mk · e.effects.response) h.withTraces_eq
    | response => exact congrArg (Effects.mk e.effects.request) h.withTraces_eq
  rw [withTraces, he]

/-- The element is made of those of a side, in the order of the side: it has all their names, the
first partner, the first site that matters, and their effects and needs of state together. -/
structure Joins (e : Element) (side : Chain) : Prop where
  names : e.names = side.flatMap Element.names
  partner : e.partner = side.findSome? Element.partner
  site : e.site = ((side.map Element.site).find? fun s ↦ s ≠ .dontCare).getD .dontCare
  on : ∀ t, (e.on t).Joins (side.map fun d ↦ d.on t)
  state : e.state.Joins (side.map Element.state)

theorem joins_single (e : Element) : e.Joins [e] where
  names := by simp
  partner := by cases h : e.partner <;> simp [h]
  site := by by_cases h : e.site = .dontCare <;> simp [h]
  on t := PathEffects.joins_single _
  state := ElementState.joins_single _

/-- A fusion joins one more element. -/
theorem Joins.fuse {side : Chain} {e : Element} (h : e.Joins side) (d : Element) :
    (e.fuse d).Joins (side ++ [d]) where
  names := by simp [h.names]
  partner := by
    have : (e.fuse d).partner = e.partner.or d.partner := rfl
    rw [this, h.partner, List.findSome?_append]
    cases hd : d.partner <;> simp [hd]
  site := by
    have fused : (e.fuse d).site = if e.site = .dontCare then d.site else e.site := rfl
    have first := h.site
    rw [List.map_append, List.find?_append]
    cases hf : (side.map Element.site).find? fun s ↦ s ≠ .dontCare with
    | none =>
      rw [hf] at first
      by_cases hd : d.site = .dontCare <;> simp [fused, first, hd]
    | some u =>
      rw [hf] at first
      have hu : u ≠ .dontCare := by simpa using List.find?_some hf
      simp [fused, first, hu]
  on t := by
    rw [on_fuse, List.map_append]
    exact (h.on t).merge (d.on t)
  state := by
    rw [List.map_append]
    exact h.state.merge d.state

end Element

namespace Chain

variable {side : Chain} {e : Element}

/-- The elements of a chain with its traces have their trace fields. -/
theorem isTraced_of_mem_withTraces {t : Traffic} {chain : Chain} (h : e ∈ chain.withTraces t) :
    (e.on t).IsTraced := by
  obtain ⟨d, -, rfl⟩ := List.mem_map.mp h
  rw [Element.on_withTraces]
  exact PathEffects.isTraced_withTraces _

/-- A chain whose elements have their trace fields gains none. -/
theorem withTraces_of_isTraced {t : Traffic} {chain : Chain} (h : ∀ e ∈ chain, (e.on t).IsTraced) :
    chain.withTraces t = chain :=
  (List.map_congr_left fun e he ↦ Element.withTraces_of_isTraced (h e he)).trans (List.map_id _)

/-- What holds of single elements and of each fusion with the next one holds of a side and the
element that it is fused to. -/
theorem consolidate_induction {P : Chain → Element → Prop} (single : ∀ d, P [d] d)
    (step : ∀ front a d, P front a → P (front ++ [d]) (a.fuse d))
    (h : side.consolidate = some e) : P side e := by
  cases side with
  | nil => cases h
  | cons first rest =>
    rw [← Option.some.inj h]
    clear h
    induction rest using List.reverseRecOn with
    | nil => exact single first
    | append_singleton rest d ih =>
      rw [List.foldl_append]
      exact step (first :: rest) _ d ih

/-- The element of a side has whatever all elements of the side have and fusion keeps. -/
theorem of_consolidate {P : Element → Prop} (keeps : ∀ a b, P a → P b → P (a.fuse b))
    (h : side.consolidate = some e) (hs : ∀ d ∈ side, P d) : P e := by
  revert hs
  apply consolidate_induction (P := fun side e ↦ (∀ d ∈ side, P d) → P e) _ _ h
  · intro d hd
    exact hd d List.mem_cons_self
  · intro front a d ih hd
    obtain ⟨hf, hd⟩ := List.forall_mem_append.mp hd
    exact keeps a d (ih hf) (hd d List.mem_cons_self)

/-- The element of a side is made of all elements of the side. -/
theorem joins_consolidate (h : side.consolidate = some e) : e.Joins side := by
  apply consolidate_induction (P := fun side e ↦ e.Joins side) _ _ h
  · exact Element.joins_single
  · intro front a d joined
    exact joined.fuse d

/-- The element of a side that is pinned to one site, as far as it is pinned, is pinned to this site
if any element of the side is. -/
theorem site_consolidate_of_pinned {s : Site} (h : side.consolidate = some e)
    (hs : ∀ d ∈ side, d.site = s ∨ d.site = .dontCare) :
    (e.site = s ∨ e.site = .dontCare) ∧ ((∃ d ∈ side, d.site = s) → e.site = s) := by
  have he := (joins_consolidate h).site
  cases hf : (side.map Element.site).find? fun s ↦ s ≠ .dontCare with
  | none =>
    rw [hf] at he
    refine ⟨.inr he, ?_⟩
    rintro ⟨d, hd, rfl⟩
    have hn : d.site = .dontCare := by
      simpa using List.find?_eq_none.mp hf d.site (List.mem_map_of_mem hd)
    exact he.trans hn.symm
  | some u =>
    rw [hf] at he
    have hu : u ≠ .dontCare := by simpa using List.find?_some hf
    obtain ⟨d, hd, rfl⟩ := List.mem_map.mp (List.mem_of_find?_eq_some hf)
    have hd : e.site = s := he.trans ((hs d hd).resolve_right hu)
    exact ⟨.inl hd, fun _ ↦ hd⟩

end Chain

end ChainPlan
