import ChainPlan.Proofs.SectionEffects
import Mathlib.Data.Set.List

/-! # Malformed property files

Files are put together before their values are read. What is no property file at all is found in
any case, and so is what a file says of a property, as long as it counts: the first file decides a
flag, and a set whose first value is no list. Of a set that starts with a list, the first text
behind it counts alone, and if there is none, all lists count. Whatever does not count may be
malformed.
-/

namespace ChainPlan

namespace Json

/-- Whether the value is a text. -/
def isText : Json → Bool
  | .str _ => true
  | _ => false

/-- Whether the value is a list. -/
def isList : Json → Bool
  | .arr _ => true
  | _ => false

end Json

namespace Property

/-- The value is of the kind that the property has. -/
def Accepts (p : Property) (v : Json) : Prop := ∃ x, p.read v = .ok x

/-- The values that count, of those that files mention of a property. -/
def counted : Property → List Json → List Json
  | .set _, .arr items :: rest =>
    match rest.find? Json.isText with
    | some text => [text]
    | none => .arr items :: rest.filter Json.isList
  | _, first :: _ => [first]
  | _, [] => []

theorem counted_of_not_isList {a : Access} {first : Json} {rest : List Json}
    (h : first.isList = false) : (Property.set a).counted (first :: rest) = [first] := by
  cases first with
  | arr items => cases h
  | invalid | null | bool | num | str | obj => rfl

theorem counted_singleton (p : Property) (v : Json) : p.counted [v] = [v] := by
  cases p <;> cases v <;> rfl

theorem counted_subset (p : Property) (vs : List Json) : p.counted vs ⊆ vs := by
  intro v h
  cases vs with
  | nil => cases p <;> cases h
  | cons first rest =>
    have first_mem (h : v ∈ [first]) : v ∈ first :: rest := List.mem_singleton.mp h ▸ .head _
    cases p with
    | flag f => cases first <;> exact first_mem h
    | set a =>
      cases hl : first.isList with
      | false => exact first_mem (counted_of_not_isList hl ▸ h)
      | true =>
        cases first with
        | arr items =>
          rw [counted] at h
          split at h
          · next found => exact .tail _ (List.mem_singleton.mp h ▸ List.mem_of_find?_eq_some found)
          · exact List.cons_subset_cons _ (List.filter_subset_self rest) h
        | invalid | null | bool | num | str | obj => cases hl

theorem accepts_set_iff {a : Access} {v : Json} :
    (Property.set a).Accepts v ↔ ∃ s : FieldSet, v = s.toJson :=
  exists_congr fun _ ↦ read_eq_ok_iff

theorem accepts_flag_iff {f : Flag} {v : Json} :
    (Property.flag f).Accepts v ↔ ∃ b, v = .bool b :=
  exists_congr fun _ ↦ read_eq_ok_iff

/-- A list is a set of fields if it has only texts. -/
theorem accepts_arr_iff {a : Access} {items : List Json} :
    (Property.set a).Accepts (.arr items) ↔ ∀ item ∈ items, ∃ s, item = .str s := by
  rw [accepts_set_iff]
  constructor
  · rintro ⟨s, hs⟩ item hi
    cases s with
    | all => cases hs
    | only names =>
      cases hs
      obtain ⟨name, -, rfl⟩ := List.mem_map.mp hi
      exact ⟨name, rfl⟩
  · intro h
    have texts : items ∈ Set.range (List.map Json.str) := by
      rw [Set.range_list_map]
      exact fun item hi ↦ (h item hi).imp fun _ he ↦ he.symm
    obtain ⟨names, rfl⟩ := texts
    exact ⟨.only names, rfl⟩

end Property

namespace Properties

variable {v : Json} {vs : List Json}

theorem foldl_mergeValue_of_not_isList (h : v.isList = false) : vs.foldl mergeValue v = v := by
  induction vs with
  | nil => rfl
  | cons w rest ih =>
    have kept : mergeValue v w = v := by
      cases v with
      | arr items => cases h
      | invalid | null | bool | num | str | obj => rfl
    rw [List.foldl_cons, kept, ih]

theorem mem_addItem {items : List Json} {w x : Json} : x ∈ addItem items w ↔ x ∈ items ∨ x = w := by
  cases w with
  | str s =>
    rw [addItem]
    split
    · next held =>
      have mem := holdsText_iff.mp held
      constructor
      · exact .inl
      · rintro (h | rfl)
        · exact h
        · exact mem
    · simp
  | invalid | null | bool | num | arr | obj => simp [addItem]

theorem mem_foldl_addItem {items more : List Json} {x : Json} :
    x ∈ more.foldl addItem items ↔ x ∈ items ∨ x ∈ more := by
  induction more generalizing items with
  | nil => simp
  | cons w rest ih => rw [List.foldl_cons, ih, mem_addItem, List.mem_cons, or_assoc]

/-- Lists that are joined have only texts if each of them has. -/
theorem accepts_foldl_addItem_iff {a : Access} {items more : List Json} :
    (Property.set a).Accepts (.arr (more.foldl addItem items)) ↔
      (Property.set a).Accepts (.arr items) ∧ (Property.set a).Accepts (.arr more) := by
  simp only [Property.accepts_arr_iff, mem_foldl_addItem, or_imp, forall_and]

/-- A list that is joined with what later files mention is a set of fields if each value that counts
is one. -/
theorem accepts_foldl_arr_iff {a : Access} {items : List Json} :
    (Property.set a).Accepts (vs.foldl mergeValue (.arr items)) ↔
      ∀ w ∈ (Property.set a).counted (.arr items :: vs), (Property.set a).Accepts w := by
  induction vs generalizing items with
  | nil => simp [Property.counted]
  | cons w rest ih =>
    cases w with
    | str s =>
      -- The text takes the place of the list, and nothing behind it changes it any more.
      have text : (Property.set a).counted (.arr items :: .str s :: rest) = [.str s] := rfl
      rw [text, List.forall_mem_singleton, List.foldl_cons, mergeValue,
        foldl_mergeValue_of_not_isList rfl]
    | arr more =>
      rw [List.foldl_cons, mergeValue, ih]
      simp only [Property.counted, List.find?_cons, Json.isText, List.filter_cons, Json.isList]
      cases rest.find? Json.isText with
      | some text => exact Iff.rfl
      | none => simp [accepts_foldl_addItem_iff, and_assoc]
    | invalid | null | bool | num | obj => exact ih

/-- The first value decides whether a flag is read. -/
theorem foldl_mergeValue_eq_bool_iff {b : Bool} : vs.foldl mergeValue v = .bool b ↔ v = .bool b := by
  induction vs generalizing v with
  | nil => exact Iff.rfl
  | cons w rest ih =>
    rw [List.foldl_cons, ih]
    cases v with
    | arr items => cases w <;> simp [mergeValue]
    | invalid | null | bool | num | str | obj => exact Iff.rfl

/-- What files mention of a property can be read together if each value that counts is of its
kind. -/
theorem exists_readOver_iff {p : Property} :
    (∃ x, p.readOver .none (joinValues vs) = .ok x) ↔ ∀ v ∈ p.counted vs, p.Accepts v := by
  cases vs with
  | nil => cases p <;> simp [joinValues, Property.readOver, Property.counted]
  | cons first rest =>
    cases p with
    | flag f =>
      have single : (Property.flag f).counted (first :: rest) = [first] := by cases first <;> rfl
      rw [single, List.forall_mem_singleton, Property.accepts_flag_iff]
      exact Property.accepts_flag_iff.trans (exists_congr fun b ↦ foldl_mergeValue_eq_bool_iff)
    | set a =>
      cases hl : first.isList with
      | false =>
        rw [Property.counted_of_not_isList hl, List.forall_mem_singleton, joinValues,
          foldl_mergeValue_of_not_isList hl]
        rfl
      | true =>
        cases first with
        | arr items => exact accepts_foldl_arr_iff
        | invalid | null | bool | num | str | obj => cases hl

variable {files : Files} {directory : String}

theorem exists_load_error_iff {names : List String} :
    (∃ error, load files directory names = .error error) ↔
      ∃ name ∈ names, (∃ error, sectionsOf files directory name = .error error) ∨
        ∃ t, ∃ p : Property, ∃ v, mention? files directory t p.name name = some v ∧
          v ∈ p.counted (mentions files directory t p.name names) ∧ ¬ p.Accepts v := by
  simp only [exists_error_iff, exists_load_iff, exists_readOver_iff]
  constructor
  · intro h
    by_contra none
    push Not at none
    refine h ⟨fun name hn ↦ (none name hn).1, fun t p v hv ↦ ?_⟩
    obtain ⟨name, hn, mentioned⟩ := List.mem_filterMap.mp (p.counted_subset _ hv)
    exact (none name hn).2 t p v mentioned hv
  · rintro ⟨name, hn, none | ⟨t, p, v, -, hv, refused⟩⟩ ⟨each, accepted⟩
    · exact none (each name hn)
    · exact refused (accepted t p v hv)

/-- Elements fail to load together exactly if the file of one of them has no sections, or mentions
a value that counts and is not of the kind of its property. An element that is loaded alone fails
also if the value does not count among others. -/
theorem load_fails_iff (files : Files) (directory : String) :
    (∀ name, (∃ error, load files directory [name] = .error error) ↔
      (∃ error, sectionsOf files directory name = .error error) ∨
        ∃ t, ∃ p : Property, ∃ v, mention? files directory t p.name name = some v ∧
          ¬ p.Accepts v) ∧
    ∀ names, (∃ error, load files directory names = .error error) ↔
      ∃ name ∈ names, (∃ error, sectionsOf files directory name = .error error) ∨
        ∃ t, ∃ p : Property, ∃ v, mention? files directory t p.name name = some v ∧
          v ∈ p.counted (mentions files directory t p.name names) ∧ ¬ p.Accepts v := by
  refine ⟨fun name ↦ ?_, fun names ↦ exists_load_error_iff⟩
  have counts {t : Traffic} {p : Property} {v : Json}
      (h : mention? files directory t p.name name = some v) :
      v ∈ p.counted (mentions files directory t p.name [name]) := by
    rw [mentions, List.filterMap_cons_some h, List.filterMap_nil, p.counted_singleton]
    exact .head _
  rw [exists_load_error_iff]
  simp only [List.mem_singleton, exists_eq_left]
  refine or_congr_right (exists₃_congr fun t p v ↦ and_congr_right fun mentioned ↦ ?_)
  exact and_iff_right (counts mentioned)

/-- The second of two files has no truth value for a flag, which the first one decides. -/
theorem load_passes_over_malformed :
    let files := textFiles
      [("acl.yaml", "request:\n  drop: true\n"), ("log.yaml", "request:\n  drop: maybe\n")]
    load files "" ["log"] = .error (.invalid "log" (.badEffects .wrongKind)) ∧
      load files "" ["acl", "log"] = .ok ⟨{ PathEffects.none with drop := true }, .none⟩ := by
  decide +kernel

end Properties

end ChainPlan
