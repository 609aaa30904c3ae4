import ChainPlan.Lineage
import Mathlib.Data.List.Perm.Subperm

/-! # Distinct fields and known fields

The sets of an element list a field twice only if they were written so by hand: trace fields are
added to what is listed without repetition, and they change nothing else. A chain whose sets list no
field twice is exactly one that has a lineage. Its known fields, each once, depend on its elements
and not on their order.
-/

namespace ChainPlan

section

variable {α : Type} [DecidableEq α]

theorem firstRepeat?_eq_none_iff (seen xs : List α) :
    firstRepeat? seen xs = none ↔ xs.Nodup ∧ ∀ x ∈ xs, x ∉ seen := by
  induction xs generalizing seen with
  | nil => simp [firstRepeat?]
  | cons x xs ih =>
    by_cases h : x ∈ seen
    · simp [firstRepeat?, h]
    · rw [firstRepeat?, if_neg h, ih, List.nodup_cons]
      constructor
      · rintro ⟨hd, hs⟩
        refine ⟨⟨fun hx ↦ hs x hx (by simp), hd⟩, ?_⟩
        intro y hy
        rcases List.mem_cons.mp hy with rfl | hy
        · exact h
        · exact fun hm ↦ hs y hy (List.mem_cons_of_mem x hm)
      · rintro ⟨⟨hx, hd⟩, hs⟩
        refine ⟨hd, fun y hy hm ↦ ?_⟩
        rcases List.mem_cons.mp hm with rfl | hm
        · exact hx hy
        · exact hs y (List.mem_cons_of_mem x hy) hm

theorem firstRepeat?_append (seen xs ys : List α) :
    firstRepeat? seen (xs ++ ys) =
      (firstRepeat? seen xs).or (firstRepeat? (xs.reverse ++ seen) ys) := by
  induction xs generalizing seen with
  | nil => rfl
  | cons x xs ih =>
    rw [List.cons_append, firstRepeat?, firstRepeat?]
    split
    · rfl
    · rw [ih, List.reverse_cons, List.append_assoc, List.singleton_append]

/-- A new member at the end of a list is no repetition. -/
theorem firstRepeat?_addNew (xs : List α) (x : α) :
    firstRepeat? [] (addNew xs x) = firstRepeat? [] xs := by
  rw [addNew]
  split
  · rfl
  · next h =>
    have last : firstRepeat? (xs.reverse ++ []) [x] = none := by
      simp [firstRepeat?_eq_none_iff, h]
    rw [firstRepeat?_append, last, Option.or_none]

theorem mem_foldl_addNew {xs ys : List α} {y : α} :
    y ∈ ys.foldl addNew xs ↔ y ∈ xs ∨ y ∈ ys := by
  induction ys generalizing xs with
  | nil => simp
  | cons z ys ih => rw [List.foldl_cons, ih, mem_addNew, List.mem_cons, or_assoc]

theorem nodup_foldl_addNew {xs : List α} (ys : List α) (h : xs.Nodup) :
    (ys.foldl addNew xs).Nodup := by
  induction ys generalizing xs with
  | nil => exact h
  | cons y ys ih => exact ih (nodup_addNew y h)

/-- New members go behind the old ones, each once. -/
theorem exists_foldl_addNew (xs ys : List α) :
    ∃ added, ys.foldl addNew xs = xs ++ added ∧ added.Nodup ∧ ∀ y ∈ added, y ∈ ys ∧ y ∉ xs := by
  induction ys generalizing xs with
  | nil => exact ⟨[], by simp⟩
  | cons y ys ih =>
    rw [List.foldl_cons, addNew]
    by_cases hy : y ∈ xs
    · rw [if_pos hy]
      obtain ⟨added, he, hd, hm⟩ := ih xs
      exact ⟨added, he, hd, fun z hz ↦ ⟨List.mem_cons_of_mem y (hm z hz).1, (hm z hz).2⟩⟩
    · rw [if_neg hy]
      obtain ⟨added, he, hd, hm⟩ := ih (xs ++ [y])
      refine ⟨y :: added, by rw [he, List.append_assoc, List.singleton_append], ?_, ?_⟩
      · exact List.nodup_cons.mpr ⟨fun h ↦ (hm y h).2 (by simp), hd⟩
      · intro z hz
        rcases List.mem_cons.mp hz with rfl | hz
        · exact ⟨List.mem_cons_self, hy⟩
        · exact ⟨List.mem_cons_of_mem y (hm z hz).1,
            fun h ↦ (hm z hz).2 (List.mem_append_left _ h)⟩

end

namespace FieldSet

theorem firstRepeated?_eq_none_iff (s : FieldSet) :
    s.firstRepeated? = none ↔ s.fields.Nodup := by
  simp [firstRepeated?, firstRepeat?_eq_none_iff]

theorem firstRepeated?_insert (s : FieldSet) (f : Field) :
    (s.insert f).firstRepeated? = s.firstRepeated? := by
  cases s with
  | all => rfl
  | only fs => exact firstRepeat?_addNew fs f

theorem firstRepeated?_foldl_insert (s : FieldSet) (fs : List Field) :
    (fs.foldl insert s).firstRepeated? = s.firstRepeated? := by
  induction fs generalizing s with
  | nil => rfl
  | cons f fs ih => rw [List.foldl_cons, ih, firstRepeated?_insert]

theorem nodup_fields_insert {s : FieldSet} (f : Field) (h : s.fields.Nodup) :
    (s.insert f).fields.Nodup := by
  cases s with
  | all => exact h
  | only fs => exact nodup_addNew f h

/-- A set stands for the fields that it contains, among those that the chain knows. -/
theorem mem_expand {s : FieldSet} {known : List Field} {f : Field} (h : f ∈ known) :
    f ∈ s.expand known ↔ s.contains f = true := by
  cases s with
  | all => simp [expand, contains, isAll, h]
  | only fs => simp [expand, contains, isAll, fields]

/-- A set contains the fields that it stands for, whatever the chain knows. -/
theorem contains_of_mem_expand {s : FieldSet} {known : List Field} {f : Field}
    (h : f ∈ s.expand known) : s.contains f = true := by
  cases s with
  | all => rfl
  | only fs => simpa [contains, isAll, fields, expand] using h

theorem nodup_expand {s : FieldSet} {known : List Field} (h : s.fields.Nodup)
    (hk : known.Nodup) : (s.expand known).Nodup := by
  cases s with
  | all => exact hk
  | only fs => exact h

/-- What a set stands for hangs on which fields are known, not on their order. -/
theorem mem_expand_congr {s : FieldSet} {known other : List Field} {f : Field}
    (h : f ∈ known ↔ f ∈ other) : f ∈ s.expand known ↔ f ∈ s.expand other := by
  cases s with
  | all => exact h
  | only fs => exact Iff.rfl

/-- Insertions add their fields and no others. -/
theorem contains_foldl_insert (fs : List Field) (s : FieldSet) (g : Field) :
    (fs.foldl insert s).contains g = true ↔ s.contains g = true ∨ g ∈ fs := by
  induction fs generalizing s with
  | nil => simp
  | cons f fs ih => rw [List.foldl_cons, ih, contains_insert, List.mem_cons, or_assoc]

theorem nodup_fields_foldl_insert {s : FieldSet} (fs : List Field) (h : s.fields.Nodup) :
    (fs.foldl insert s).fields.Nodup := by
  induction fs generalizing s with
  | nil => exact h
  | cons f fs ih => exact ih (nodup_fields_insert f h)

/-- Insertions make no list the wildcard. -/
@[simp] theorem isAll_foldl_insert (fs : List Field) (s : FieldSet) :
    (fs.foldl insert s).isAll = s.isAll := by
  induction fs generalizing s with
  | nil => rfl
  | cons f fs ih => rw [List.foldl_cons, ih, isAll_insert]

theorem foldl_insert_all (fs : List Field) : fs.foldl insert all = all := by
  induction fs with
  | nil => rfl
  | cons f fs ih => exact ih

theorem foldl_insert_only (fs xs : List Field) :
    fs.foldl insert (only xs) = only (fs.foldl addNew xs) := by
  induction fs generalizing xs with
  | nil => rfl
  | cons f fs ih => exact ih (addNew xs f)

/-- Insertions list their fields behind those listed before, each once. -/
theorem exists_fields_foldl_insert (fs : List Field) (s : FieldSet) :
    ∃ added, (fs.foldl insert s).fields = s.fields ++ added ∧ added.Nodup ∧
      ∀ f ∈ added, f ∈ fs ∧ f ∉ s.fields := by
  cases s with
  | all => exact ⟨[], by simp [foldl_insert_all]⟩
  | only xs =>
    rw [foldl_insert_only]
    exact exists_foldl_addNew xs fs

end FieldSet

namespace PathEffects

/-- The trace fields that note what the effects do to messages. -/
def marks (e : PathEffects) : List Field :=
  (if e.drop then [Field.dropTrace] else []) ++ (if e.block then [Field.blockTrace] else []) ++
    if e.copy then [Field.copyTrace] else []

/-- What the effects do to messages is written into its trace fields. -/
theorem tracedWrite_eq (e : PathEffects) : e.tracedWrite = e.marks.foldl .insert e.write := by
  unfold tracedWrite marks
  cases e.drop <;> cases e.block <;> cases e.copy <;> rfl

theorem mem_marks {e : PathEffects} {f : Field} :
    f ∈ e.marks ↔ e.drop = true ∧ f = Field.dropTrace ∨ e.block = true ∧ f = Field.blockTrace ∨
      e.copy = true ∧ f = Field.copyTrace := by
  simp [marks]

theorem mem_traces_of_mem_marks {e : PathEffects} {f : Field} (h : f ∈ e.marks) :
    f ∈ Field.traces := by
  rcases mem_marks.mp h with ⟨-, rfl⟩ | ⟨-, rfl⟩ | ⟨-, rfl⟩ <;> simp [Field.traces]

/-- Trace fields stop no message. -/
@[simp] theorem stops_withTraces (e : PathEffects) : e.withTraces.stops = e.stops := rfl

/-- Trace fields copy no message. -/
@[simp] theorem copy_withTraces (e : PathEffects) : e.withTraces.copy = e.copy := rfl

/-- Effects that record anything record every trace field. -/
theorem contains_tracedRecord {e : PathEffects} (h : e.record.isEmpty = false) {f : Field}
    (hf : f ∈ Field.traces) : e.tracedRecord.contains f = true := by
  rw [tracedRecord, if_neg (by simp [h]), FieldSet.contains_foldl_insert]
  exact Or.inr hf

theorem mem_listedFields {e : PathEffects} {f : Field} :
    f ∈ e.listedFields ↔ ∃ a, f ∈ (e.fieldsOf a).fields := by
  simp only [listedFields, List.mem_append, or_assoc]
  constructor
  · rintro (h | h | h)
    · exact ⟨.read, h⟩
    · exact ⟨.write, h⟩
    · exact ⟨.record, h⟩
  · rintro ⟨a, h⟩
    cases a with
    | read => exact .inl h
    | write => exact .inr (.inl h)
    | record => exact .inr (.inr h)

/-- No set of the effects lists a field twice. -/
def HasDistinctFields (e : PathEffects) : Prop := ∀ a, (e.fieldsOf a).fields.Nodup

theorem firstDuplicate?_eq_none_iff (e : PathEffects) :
    e.firstDuplicate? = Option.none ↔ e.HasDistinctFields := by
  simp only [firstDuplicate?, List.findSome?_eq_none_iff, Option.map_eq_none_iff,
    FieldSet.firstRepeated?_eq_none_iff, HasDistinctFields]
  constructor
  · intro h a
    cases a <;> exact h _ (by simp)
  · exact fun h a _ ↦ h a

instance (e : PathEffects) : Decidable e.HasDistinctFields :=
  decidable_of_iff _ e.firstDuplicate?_eq_none_iff

/-- The trace fields that the effects record if they record anything. -/
def recordMarks (e : PathEffects) : List Field := if e.record.isEmpty then [] else Field.traces

theorem tracedRecord_eq (e : PathEffects) :
    e.tracedRecord = e.recordMarks.foldl .insert e.record := by
  unfold tracedRecord recordMarks
  split <;> rfl

/-- Trace fields are added without repetition, behind what is listed. -/
theorem firstDuplicate?_withTraces (e : PathEffects) :
    e.withTraces.firstDuplicate? = e.firstDuplicate? := by
  have same (a : Access) :
      (e.withTraces.fieldsOf a).firstRepeated? = (e.fieldsOf a).firstRepeated? := by
    cases a with
    | read => rfl
    | write =>
      change e.tracedWrite.firstRepeated? = _
      rw [tracedWrite_eq, FieldSet.firstRepeated?_foldl_insert]
      rfl
    | record =>
      change e.tracedRecord.firstRepeated? = _
      rw [tracedRecord_eq, FieldSet.firstRepeated?_foldl_insert]
      rfl
  simp only [firstDuplicate?, same]

/-- Trace fields change nothing about what is listed twice. -/
theorem hasDistinctFields_withTraces_iff (e : PathEffects) :
    e.withTraces.HasDistinctFields ↔ e.HasDistinctFields := by
  rw [← firstDuplicate?_eq_none_iff, firstDuplicate?_withTraces, firstDuplicate?_eq_none_iff]

theorem HasDistinctFields.withTraces {e : PathEffects} (h : e.HasDistinctFields) :
    e.withTraces.HasDistinctFields :=
  (hasDistinctFields_withTraces_iff e).mpr h

end PathEffects

namespace Element

@[simp] theorem identity_withTraces (t : Traffic) (e : Element) :
    (e.withTraces t).identity = e.identity := rfl

@[simp] theorem partner_withTraces (t : Traffic) (e : Element) :
    (e.withTraces t).partner = e.partner := rfl

@[simp] theorem site_withTraces (t : Traffic) (e : Element) :
    (e.withTraces t).site = e.site := rfl

@[simp] theorem isNetwork_withTraces (t : Traffic) (e : Element) :
    (e.withTraces t).isNetwork = e.isNetwork := rfl

@[simp] theorem on_withTraces (t : Traffic) (e : Element) :
    (e.withTraces t).on t = (e.on t).withTraces := Effects.on_mapOn_self _ _ _

/-- The element of a name that has effects on requests only. -/
def onRequests (name : String) (effects : PathEffects) : Element :=
  { ofName name with effects := ⟨effects, .none⟩ }

/-- The fields that the element accesses in one way, in a chain that knows the fields `known`. -/
def accessed (known : List Field) (t : Traffic) (a : Access) (e : Element) : List Field :=
  ((e.on t).fieldsOf a).expand known

end Element

namespace Chain

/-- No set of an element of the chain lists a field twice. -/
def HasDistinctFields (t : Traffic) (chain : Chain) : Prop :=
  ∀ e ∈ chain, (e.on t).HasDistinctFields

instance (t : Traffic) (chain : Chain) : Decidable (chain.HasDistinctFields t) :=
  List.decidableBAll _ chain

/-- A chain has a first duplicate field exactly if some set lists a field twice. -/
theorem firstDuplicate?_eq_none_iff (t : Traffic) (chain : Chain) :
    chain.firstDuplicate? t = none ↔ chain.HasDistinctFields t := by
  simp [firstDuplicate?, PathEffects.firstDuplicate?_eq_none_iff, HasDistinctFields]

/-- The first duplicate field is reported with the element, the set and the field. -/
theorem exists_of_firstDuplicate? {t : Traffic} {chain : Chain} {error : PlanError}
    (h : chain.firstDuplicate? t = some error) :
    ∃ element access field, error = .duplicateField element t access field := by
  obtain ⟨e, -, he⟩ := List.exists_of_findSome?_eq_some h
  obtain ⟨⟨access, field⟩, -, rfl⟩ := Option.map_eq_some_iff.mp he
  exact ⟨e.identity, access, field, rfl⟩

@[simp] theorem length_withTraces (t : Traffic) (chain : Chain) :
    (chain.withTraces t).length = chain.length := List.length_map _

@[simp] theorem map_identity_withTraces (t : Traffic) (chain : Chain) :
    (chain.withTraces t).map Element.identity = chain.map Element.identity := by
  simp [withTraces, Function.comp_def]

@[simp] theorem any_isNetwork_withTraces (t : Traffic) (chain : Chain) :
    (chain.withTraces t).any Element.isNetwork = chain.any Element.isNetwork := by
  simp [withTraces, Function.comp_def]

@[simp] theorem isPlaced_withTraces (t : Traffic) (chain : Chain) :
    (chain.withTraces t).isPlaced = chain.isPlaced := by
  unfold isPlaced
  generalize false = passed
  induction chain generalizing passed with
  | nil => rfl
  | cons e rest ih =>
    have ih (passed : Bool) : placedFrom passed (rest.map (Element.withTraces t)) =
        placedFrom passed rest := ih passed
    simp only [withTraces, List.map_cons, placedFrom, Element.site_withTraces, ih]

theorem HasDistinctFields.withTraces {t : Traffic} {chain : Chain}
    (h : chain.HasDistinctFields t) : (chain.withTraces t).HasDistinctFields t := by
  intro e he
  obtain ⟨d, hd, rfl⟩ := List.mem_map.mp he
  rw [Element.on_withTraces]
  exact (h d hd).withTraces

theorem HasDistinctFields.perm {t : Traffic} {chain other : Chain}
    (h : chain.HasDistinctFields t) (hp : chain.Perm other) : other.HasDistinctFields t :=
  fun e he ↦ h e (hp.mem_iff.mpr he)

theorem mem_knownFields {t : Traffic} {chain : Chain} {f : Field} :
    f ∈ chain.knownFields t ↔
      f ∈ Field.traces ∨ ∃ e ∈ chain, f ∈ (e.on t).listedFields := by
  simp [knownFields, mem_foldl_addNew]

theorem nodup_knownFields (t : Traffic) (chain : Chain) : (chain.knownFields t).Nodup :=
  nodup_foldl_addNew _ List.nodup_nil

/-- Every order of a chain knows the same fields. -/
theorem mem_knownFields_perm {t : Traffic} {chain other : Chain} (h : chain.Perm other)
    {f : Field} : f ∈ chain.knownFields t ↔ f ∈ other.knownFields t := by
  simp only [mem_knownFields, h.mem_iff]

/-- An element accesses only fields that its chain knows. -/
theorem mem_knownFields_of_mem_accessed {t : Traffic} {chain : Chain} {e : Element}
    (he : e ∈ chain) {a : Access} {f : Field}
    (hf : f ∈ e.accessed (chain.knownFields t) t a) : f ∈ chain.knownFields t := by
  unfold Element.accessed at hf
  cases hs : (e.on t).fieldsOf a with
  | all => simpa [hs, FieldSet.expand] using hf
  | only fs =>
    rw [mem_knownFields]
    refine Or.inr ⟨e, he, PathEffects.mem_listedFields.mpr ⟨a, ?_⟩⟩
    rw [hs] at hf ⊢
    exact hf

/-- An element of a chain without duplicate fields accesses each field once. -/
theorem HasDistinctFields.nodup_accessed {t : Traffic} {chain : Chain}
    (h : chain.HasDistinctFields t) {known : List Field} (hk : known.Nodup) {e : Element}
    (he : e ∈ chain) (a : Access) : (e.accessed known t a).Nodup :=
  FieldSet.nodup_expand (h e he a) hk

end Chain

namespace Element

/-- An element with its traces on writes the trace fields of what it does. -/
theorem mem_accessed_withTraces {known : List Field} {t : Traffic} {e : Element} {f : Field}
    (hk : f ∈ known) (hf : f ∈ (e.on t).marks) :
    f ∈ (e.withTraces t).accessed known t .write := by
  unfold accessed
  rw [FieldSet.mem_expand hk, on_withTraces]
  change (e.on t).tracedWrite.contains f = true
  rw [PathEffects.tracedWrite_eq, FieldSet.contains_foldl_insert]
  exact Or.inr hf

/-- What an element accesses hangs on which fields are known, not on their order. -/
theorem mem_accessed_congr {known other : List Field} (h : ∀ f, f ∈ known ↔ f ∈ other)
    {t : Traffic} {a : Access} {e : Element} {f : Field} :
    f ∈ e.accessed known t a ↔ f ∈ e.accessed other t a :=
  FieldSet.mem_expand_congr (h f)

end Element

end ChainPlan
