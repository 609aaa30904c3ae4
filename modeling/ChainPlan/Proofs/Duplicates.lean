import ChainPlan.Proofs.Accesses
import ChainPlan.Proofs.Consolidation
import ChainPlan.Proofs.Convergence

/-! # Duplicate fields

A local search reports a field that is listed twice before it tries a move, with the first element
of the chain that lists one, its first set that does and the field that stands in it again first.
Moves and traces bring no further one, so a search that gets past this point can only run out of its
budget. Sets that are collected list each field once, and traces and fusion keep it that way; so no
element that comes from the analysis of programs is ever reported.
-/

namespace ChainPlan

/-! ### The first repetition in a list -/

section

variable {α : Type} [DecidableEq α]

/-- The member of a list that is the first to stand in it for a second time. -/
def IsFirstRepeat (xs : List α) (x : α) : Prop :=
  ∃ front back, xs = front ++ x :: back ∧ front.Nodup ∧ x ∈ front

theorem firstRepeat?_eq_some_iff {xs : List α} {x : α} :
    firstRepeat? [] xs = some x ↔ IsFirstRepeat xs x := by
  constructor
  · intro h
    induction xs using List.reverseRecOn with
    | nil => cases h
    | append_singleton xs y ih =>
      rw [firstRepeat?_append] at h
      cases hf : firstRepeat? [] xs with
      | some z =>
        obtain rfl : z = x := by simpa [hf] using h
        obtain ⟨front, back, rfl, distinct, again⟩ := ih hf
        exact ⟨front, back ++ [y], by simp, distinct, again⟩
      | none =>
        obtain ⟨again, rfl⟩ : y ∈ xs ∧ y = x := by simpa [hf, firstRepeat?] using h
        exact ⟨xs, [], rfl, ((firstRepeat?_eq_none_iff [] xs).mp hf).1, again⟩
  · rintro ⟨front, back, rfl, distinct, again⟩
    have first : firstRepeat? [] front = none :=
      (firstRepeat?_eq_none_iff [] front).mpr ⟨distinct, by simp⟩
    rw [firstRepeat?_append, first, Option.none_or, firstRepeat?, if_pos (by simpa using again)]

end

/-! ### Effects -/

/-- The sets that are looked through before the one of an access. -/
def Access.earlier : Access → List Access
  | .read => []
  | .write => [.read]
  | .record => [.read, .write]

namespace PathEffects

/-- The first of the sets read, write, record that lists a field twice, with the field that stands
in it for a second time first. -/
structure FirstRepeats (e : PathEffects) (a : Access) (f : Field) : Prop where
  isFirst : IsFirstRepeat (e.fieldsOf a).fields f
  earlier : ∀ b ∈ a.earlier, (e.fieldsOf b).fields.Nodup

theorem firstDuplicate?_eq_some_iff {e : PathEffects} {a : Access} {f : Field} :
    e.firstDuplicate? = some (a, f) ↔ e.FirstRepeats a f := by
  have asked : e.FirstRepeats a f ↔ (e.fieldsOf a).firstRepeated? = some f ∧
      ∀ b ∈ a.earlier, (e.fieldsOf b).firstRepeated? = Option.none := by
    simp only [FieldSet.firstRepeated?_eq_none_iff]
    constructor
    · rintro ⟨isFirst, earlier⟩
      exact ⟨firstRepeat?_eq_some_iff.mpr isFirst, earlier⟩
    · rintro ⟨isFirst, earlier⟩
      exact ⟨firstRepeat?_eq_some_iff.mp isFirst, earlier⟩
  rw [asked, firstDuplicate?]
  cases hr : (e.fieldsOf .read).firstRepeated? <;> cases hw : (e.fieldsOf .write).firstRepeated? <;>
    cases a <;> simp [Access.earlier, hr, hw]

end PathEffects

/-- No set on either kind of traffic lists a field twice. -/
def Effects.HasDistinctFields (e : Effects) : Prop := ∀ t, (e.on t).HasDistinctFields

namespace Effects.HasDistinctFields

/-- What a program is found to access is listed once. -/
theorem of_profile {p : Program} {options : AnalysisOptions} {profile : Profile}
    (h : p.profile options = .ok profile) : profile.effects.HasDistinctFields := by
  intro t a
  obtain ⟨aliases, analysed⟩ := Block.exists_analysed (Program.effects_of_profile h t)
  obtain ⟨reads, -, read⟩ := analysed.reads
  obtain ⟨writes, -, write⟩ := analysed.writes
  have unread := analysed.unread
  cases hr : options.isRecorder p.name <;> rw [hr] at read unread
  · have empty : (profile.effects.on t).record = .empty := unread
    cases a with
    | read => exact nodup_fields_of_collectFields read
    | write => exact nodup_fields_of_collectFields write
    | record =>
      rw [PathEffects.fieldsOf, empty]
      exact List.nodup_nil
  · have empty : (profile.effects.on t).read = .empty := unread
    cases a with
    | read =>
      rw [PathEffects.fieldsOf, empty]
      exact List.nodup_nil
    | write => exact nodup_fields_of_collectFields write
    | record => exact nodup_fields_of_collectFields read

theorem none : Effects.none.HasDistinctFields := by
  intro t a
  cases t <;> cases a <;> exact List.nodup_nil

theorem withTraces {e : Element} (h : e.effects.HasDistinctFields) (t : Traffic) :
    (e.withTraces t).effects.HasDistinctFields := by
  intro u
  by_cases hu : u = t
  · subst u
    change ((e.withTraces t).on t).HasDistinctFields
    rw [Element.on_withTraces]
    exact (h t).withTraces
  · change ((e.effects.mapOn t PathEffects.withTraces).on u).HasDistinctFields
    rw [Effects.on_mapOn_ne _ hu]
    exact h u

theorem fuse {a : Element} (h : a.effects.HasDistinctFields) (b : Element) :
    (a.fuse b).effects.HasDistinctFields := by
  intro t
  change ((a.fuse b).on t).HasDistinctFields
  rw [Element.on_fuse]
  exact (h t).merge (b.on t)

end Effects.HasDistinctFields

/-- What the element does on each kind of traffic comes from the analysis of programs, with or
without traces, for one program or for several that are fused. -/
inductive Element.IsAnalysed : Element → Prop where
  | program {e : Element} {p : Program} {options : AnalysisOptions} {profile : Profile}
      (h : p.profile options = .ok profile) (he : e.effects = profile.effects) : IsAnalysed e
  /-- The marker of the network, or another element that does nothing. -/
  | idle {e : Element} (he : e.effects = .none) : IsAnalysed e
  | traced (t : Traffic) {e : Element} (h : IsAnalysed e) : IsAnalysed (e.withTraces t)
  | fused {a b : Element} (ha : IsAnalysed a) (hb : IsAnalysed b) : IsAnalysed (a.fuse b)

theorem Element.IsAnalysed.hasDistinctFields {e : Element} (h : e.IsAnalysed) :
    e.effects.HasDistinctFields := by
  induction h with
  | program h he => exact he ▸ .of_profile h
  | idle he => exact he ▸ .none
  | traced t _ ih => exact ih.withTraces t
  | fused _ _ ih _ => exact ih.fuse _

/-! ### Chains -/

namespace Chain

variable {t : Traffic} {level : Level} {chain : Chain}

/-- The first element of a chain that lists a field twice, with its first set that does and the
field that stands in it for a second time first. -/
def FirstRepeats (t : Traffic) (chain : Chain) (e : Element) (a : Access) (f : Field) : Prop :=
  ∃ before after, chain = before ++ e :: after ∧ before.HasDistinctFields t ∧
    (e.on t).FirstRepeats a f

theorem firstDuplicate?_eq_some_iff {error : PlanError} :
    chain.firstDuplicate? t = some error ↔
      ∃ e a f, chain.FirstRepeats t e a f ∧ error = .duplicateField e.identity t a f := by
  rw [firstDuplicate?, List.findSome?_eq_some_iff]
  simp only [Option.map_eq_none_iff, PathEffects.firstDuplicate?_eq_none_iff,
    Option.map_eq_some_iff, Prod.exists, PathEffects.firstDuplicate?_eq_some_iff]
  constructor
  · rintro ⟨before, e, after, rfl, ⟨a, f, first, rfl⟩, distinct⟩
    exact ⟨e, a, f, ⟨before, after, rfl, distinct, first⟩, rfl⟩
  · rintro ⟨e, a, f, ⟨before, after, rfl, distinct, first⟩, rfl⟩
    exact ⟨before, e, after, rfl, ⟨a, f, first, rfl⟩, distinct⟩

/-- Traces make no difference to the first duplicate field of a chain. -/
theorem firstDuplicate?_withTraces (t : Traffic) (chain : Chain) :
    (chain.withTraces t).firstDuplicate? t = chain.firstDuplicate? t := by
  simp only [firstDuplicate?, withTraces, List.findSome?_map, Function.comp_def,
    Element.on_withTraces, Element.identity_withTraces, PathEffects.firstDuplicate?_withTraces]

/-- A chain has a first duplicate field exactly if some set lists a field twice. -/
theorem exists_firstRepeats_iff :
    (∃ e a f, chain.FirstRepeats t e a f) ↔
      ∃ e ∈ chain, ∃ a, ¬ ((e.on t).fieldsOf a).fields.Nodup := by
  have some_iff : (∃ error, chain.firstDuplicate? t = some error) ↔
      ∃ e a f, chain.FirstRepeats t e a f := by
    simp only [firstDuplicate?_eq_some_iff]
    constructor
    · rintro ⟨error, e, a, f, first, -⟩
      exact ⟨e, a, f, first⟩
    · rintro ⟨e, a, f, first⟩
      exact ⟨_, e, a, f, first, rfl⟩
  rw [← some_iff, ← Option.ne_none_iff_exists', Ne, firstDuplicate?_eq_none_iff, HasDistinctFields]
  simp only [PathEffects.HasDistinctFields]
  push Not
  rfl

/-- A search from a chain with a duplicate field reports the first one before it compares any other
chain. -/
theorem descend_of_firstDuplicate? (hl : level ≠ .ignore) {error : PlanError}
    (h : chain.firstDuplicate? t = some error) (limit budget : Nat) (stats : ReorderStats) :
    descend (.indexed t level) t limit budget stats chain = (stats, .error error) := by
  have scanned : chain.scan (.indexed t level) t = .error error := by
    rw [scan_eq, indexed_strict hl, h]
    rfl
  cases budget <;> rw [descend, scanned]

/-- A search from a chain that can be judged fails only when its budget is spent. -/
theorem eq_movesExhausted_of_descend {limit budget : Nat} {stats stats' : ReorderStats}
    {error : PlanError} (hc : chain.Comparable level t)
    (h : descend (.indexed t level) t limit budget stats chain = (stats', .error error)) :
    error = .movesExhausted t limit := by
  induction budget generalizing stats chain with
  | zero =>
    rw [descend] at h
    split at h
    · next hs => exact absurd hc (exists_of_scan_eq_error hs).1
    · cases h
    · cases h
      rfl
  | succ budget ih =>
    rw [descend] at h
    split at h
    · next hs => exact absurd hc (exists_of_scan_eq_error hs).1
    · cases h
    · next hs => exact ih (hc.perm (accepts_of_scan hs).turn.perm) h

/-- A local search reports the first duplicate field of its chain and has compared nothing then. -/
theorem FirstRepeats.reorderCounted {e : Element} {a : Access} {f : Field}
    (h : chain.FirstRepeats t e a f) (hl : level ≠ .ignore) (maxMoves : Nat) :
    chain.reorderCounted t level maxMoves =
      (.zero, .error (.duplicateField e.identity t a f)) := by
  apply descend_of_firstDuplicate? hl
  rw [firstDuplicate?_withTraces]
  exact firstDuplicate?_eq_some_iff.mpr ⟨e, a, f, h, rfl⟩

/-- A local search on a chain without duplicate fields fails only when its budget is spent. -/
theorem eq_movesExhausted_of_reorder {maxMoves : Nat} {error : PlanError}
    (hd : chain.HasDistinctFields t) (h : chain.reorder t level maxMoves = .error error) :
    error = .movesExhausted t maxMoves :=
  eq_movesExhausted_of_descend (fun _ ↦ hd.withTraces) (Prod.ext rfl h)

/-- Where lineage counts, a local search reports a duplicate field exactly if some set of its chain
lists a field twice. Then it reports the first one, before it compares any other chain, and
otherwise it fails only when its budget is spent. Collected sets have no duplicate fields, nor has
what a program is found to do, and traces and fusion make none; so chains that are built from
programs are not refused for them. -/
theorem reorder_reports_duplicates (chain : Chain) (t : Traffic) {level : Level}
    (hl : level ≠ .ignore) (maxMoves : Nat) :
    ((∃ name u a f, chain.reorder t level maxMoves = .error (.duplicateField name u a f)) ↔
      ∃ e ∈ chain, ∃ a, ¬ ((e.on t).fieldsOf a).fields.Nodup) ∧
    (∀ e a f, chain.FirstRepeats t e a f → chain.reorderCounted t level maxMoves =
      (.zero, .error (.duplicateField e.identity t a f))) ∧
    (∀ error, chain.reorder t level maxMoves = .error error →
      (∃ e a f, chain.FirstRepeats t e a f ∧ error = .duplicateField e.identity t a f) ∨
        error = .movesExhausted t maxMoves) ∧
    (∀ fields, (FieldSet.ofFields fields).fields.Nodup) ∧
    (∀ set fields s, collectFields set fields = .ok s → s.fields.Nodup) ∧
    (∀ (p : Program) options profile, p.profile options = .ok profile →
      profile.effects.HasDistinctFields) ∧
    (∀ e : Element, e.effects.HasDistinctFields → ∀ u,
      (e.withTraces u).effects.HasDistinctFields) ∧
    (∀ a b : Element, a.effects.HasDistinctFields → b.effects.HasDistinctFields →
      (a.fuse b).effects.HasDistinctFields) ∧
    ((∀ e ∈ chain, e.IsAnalysed) → ∀ error, chain.reorder t level maxMoves = .error error →
      error = .movesExhausted t maxMoves) := by
  have outcome (error : PlanError) (h : chain.reorder t level maxMoves = .error error) :
      (∃ e a f, chain.FirstRepeats t e a f ∧ error = .duplicateField e.identity t a f) ∨
        error = .movesExhausted t maxMoves := by
    by_cases hd : chain.HasDistinctFields t
    · exact .inr (eq_movesExhausted_of_reorder hd h)
    · rw [← firstDuplicate?_eq_none_iff, ← Ne, Option.ne_none_iff_exists'] at hd
      obtain ⟨_, hd⟩ := hd
      obtain ⟨e, a, f, first, -⟩ := firstDuplicate?_eq_some_iff.mp hd
      have reported := congrArg Prod.snd (first.reorderCounted hl maxMoves)
      exact .inl ⟨e, a, f, first, Except.error.inj (h.symm.trans reported)⟩
  refine ⟨?_, fun e a f first ↦ first.reorderCounted hl maxMoves, outcome,
    FieldSet.nodup_fields_ofFields, fun _ _ _ ↦ nodup_fields_of_collectFields,
    fun _ _ _ ↦ .of_profile, fun _ he u ↦ he.withTraces u, fun _ b ha _ ↦ ha.fuse b, ?_⟩
  · rw [← exists_firstRepeats_iff]
    constructor
    · rintro ⟨name, u, a, f, h⟩
      rcases outcome _ h with ⟨e, a, f, first, -⟩ | exhausted
      · exact ⟨e, a, f, first⟩
      · cases exhausted
    · rintro ⟨e, a, f, first⟩
      exact ⟨_, _, a, f, congrArg Prod.snd (first.reorderCounted hl maxMoves)⟩
  · intro built error h
    exact eq_movesExhausted_of_reorder (fun e he ↦ (built e he).hasDistinctFields t) h

/-- The first element lists no field twice, the second one does so in two sets and the third one in
the first set. -/
theorem reorder_reports_duplicates_second :
    let tag := Element.onRequests "tag" { PathEffects.none with write := .only ["user"] }
    let log := Element.onRequests "log" { PathEffects.none with
      read := .only ["key", "user"], write := .only ["key", "user", "body", "user", "key"],
      record := .only ["key", "key"], drop := true }
    let acl := Element.onRequests "acl" { PathEffects.none with read := .only ["key", "key"] }
    let chain : Chain := [tag, log, acl]
    Level.strong ≠ .ignore ∧ chain.FirstRepeats .request log .write "user" ∧
      chain.reorderCounted .request .strong 9 =
        (.zero, .error (.duplicateField "log" .request .write "user")) := by
  intro tag log acl chain
  have hl : Level.strong ≠ .ignore := by decide
  have first : chain.FirstRepeats .request log .write "user" :=
    ⟨[tag], [acl], rfl, by decide, ⟨["key", "user", "body"], ["key"], rfl, by decide, by decide⟩,
      by decide⟩
  exact ⟨hl, first, (reorder_reports_duplicates chain .request hl 9).2.1 log .write "user" first⟩

end Chain

end ChainPlan
