import ChainPlan.Properties
import ChainPlan.Proofs.Outcomes
import ChainPlan.Proofs.Serialization
import Mathlib.Data.String.Basic

/-! # Sections of property files

The value of a file has the fields of its objects in the order of their keys, each key once. Sections
that are joined keep this order, and are joined key by key: a key has the value of the file that
mentions it, or, of two files, the value that these give together. So the sections after several
files are told by the values that the files mention of each key, in their order.
-/

namespace ChainPlan

namespace Json

/-! ### Fields in the order of their keys -/

/-- The fields stand in the order of their keys, each key once. -/
def KeysAscend (fields : List (String × Json)) : Prop := fields.Pairwise fun f g ↦ f.1 < g.1

theorem KeysAscend.nodup {fields : List (String × Json)} (h : KeysAscend fields) :
    (fields.map Prod.fst).Nodup := by
  refine List.pairwise_map.mpr (h.imp fun {f g} hlt he ↦ ?_)
  rw [he] at hlt
  exact lt_irrefl _ hlt

theorem lookup_cons_eq {α : Type} (key : String) (value : α) (fields : List (String × α))
    (k : String) : ((key, value) :: fields).lookup k =
      if k = key then some value else fields.lookup k := by
  rw [List.lookup_cons]
  by_cases hk : k = key
  · rw [if_pos hk, beq_iff_eq.mpr hk]
  · rw [if_neg hk, beq_eq_false_iff_ne.mpr hk]

theorem lookup_eq_none_of_notMem {α : Type} {fields : List (String × α)} {k : String}
    (h : k ∉ fields.map Prod.fst) : fields.lookup k = none := by
  rw [List.lookup_eq_none_iff]
  intro f hf
  have other : k ≠ f.1 := by
    rintro rfl
    exact h (List.mem_map.mpr ⟨f, hf, rfl⟩)
  simpa using other

theorem lookup_insertSorted (key : String) (value : Json) (fields : List (String × Json))
    (k : String) : (insertSorted key value fields).lookup k =
      if k = key then some value else fields.lookup k := by
  induction fields with
  | nil => rw [insertSorted, lookup_cons_eq]
  | cons f rest ih =>
    obtain ⟨name, v⟩ := f
    rw [insertSorted]
    split
    · next he =>
      subst he
      simp only [lookup_cons_eq]
      split <;> rfl
    · next hne =>
      split
      · rw [lookup_cons_eq]
      · rw [lookup_cons_eq, lookup_cons_eq, ih]
        by_cases hn : k = name
        · have hk : k ≠ key := fun he ↦ hne (he.symm.trans hn)
          rw [if_pos hn, if_neg hk, if_pos hn]
        · rw [if_neg hn, if_neg hn]

theorem mem_insertSorted {key : String} {value : Json} {fields : List (String × Json)}
    {f : String × Json} (h : f ∈ insertSorted key value fields) :
    f = (key, value) ∨ f ∈ fields := by
  induction fields with
  | nil => exact .inl (List.mem_singleton.mp h)
  | cons g rest ih =>
    rw [insertSorted] at h
    split at h
    · exact (List.mem_cons.mp h).imp_right (List.mem_cons_of_mem g)
    · split at h
      · exact List.mem_cons.mp h
      · rcases List.mem_cons.mp h with rfl | h
        · exact .inr (.head _)
        · exact (ih h).imp_right (List.mem_cons_of_mem g)

/-- A field is put in at the place of its key. -/
theorem KeysAscend.insertSorted {fields : List (String × Json)} (h : KeysAscend fields)
    (key : String) (value : Json) : KeysAscend (insertSorted key value fields) := by
  induction fields with
  | nil => exact List.pairwise_singleton _ _
  | cons f rest ih =>
    obtain ⟨name, v⟩ := f
    obtain ⟨first, ordered⟩ := List.pairwise_cons.mp h
    rw [Json.insertSorted]
    split
    · next he =>
      subst he
      exact List.pairwise_cons.mpr ⟨first, ordered⟩
    · next hne =>
      split
      · next hlt =>
        refine List.pairwise_cons.mpr ⟨fun g hg ↦ ?_, h⟩
        rcases List.mem_cons.mp hg with rfl | hg
        · exact hlt
        · exact lt_trans hlt (first g hg)
      · next hge =>
        have behind : name < key := lt_of_le_of_ne (not_lt.mp hge) (Ne.symm hne)
        refine List.pairwise_cons.mpr ⟨fun g hg ↦ ?_, ih ordered⟩
        rcases mem_insertSorted hg with rfl | hg
        · exact behind
        · exact first g hg

theorem KeysAscend.foldl {σ : Type} {fields : List (String × Json)} {xs : List σ}
    {step : List (String × Json) → σ → List (String × Json)} (h : KeysAscend fields)
    (keeps : ∀ fields x, KeysAscend fields → KeysAscend (step fields x)) :
    KeysAscend (xs.foldl step fields) := by
  induction xs generalizing fields with
  | nil => exact h
  | cons x xs ih => exact ih (keeps fields x h)

private theorem mem_foldl_insertSorted {fields placed : List (String × Json)} {f : String × Json}
    (h : f ∈ fields.foldl (fun fs f ↦ insertSorted f.1 f.2 fs) placed) :
    f ∈ placed ∨ f ∈ fields := by
  induction fields generalizing placed with
  | nil => exact .inl h
  | cons g rest ih =>
    rcases ih h with h | h
    · rcases mem_insertSorted h with rfl | h
      · exact .inr (.head _)
      · exact .inl h
    · exact .inr (.tail _ h)

/-- The fields of a sorted object stand in the order of their keys, and their values are sorted. -/
theorem keysAscend_sorted {v : Json} {fields : List (String × Json)} (h : v.sorted = .obj fields) :
    KeysAscend fields ∧ ∀ f ∈ fields, ∃ w : Json, f.2 = w.sorted := by
  cases v with
  | obj written =>
    rw [sorted, Json.obj.injEq] at h
    subst h
    refine ⟨KeysAscend.foldl .nil fun fields f hf ↦ hf.insertSorted f.1 f.2, fun f hf ↦ ?_⟩
    rcases mem_foldl_insertSorted hf with hf | hf
    · cases hf
    · rw [sortedFields_eq_map] at hf
      obtain ⟨g, -, rfl⟩ := List.mem_map.mp hf
      exact ⟨g.2, rfl⟩
  | invalid | null | bool | num | str | arr => cases h

end Json

namespace Properties

/-! ### Sections of one file -/

/-- The section of a kind of traffic. -/
def sectionOn (sections : Section × Section) : Traffic → Section
  | .request => sections.1
  | .response => sections.2

/-- The sections that the value of a file holds. -/
def sectionsIn (name : String) : Json → Except PropertyError (Section × Section)
  | .obj fields => do
    let request ← section? name .request fields
    let response ← section? name .response fields
    return (request, response)
  | _ => .error (.invalid name .noRecord)

/-- The files with given texts at given paths, and no others. -/
def textFiles (texts : List (String × String)) : Files :=
  (texts.foldl (fun tree f ↦ tree.addFile f.1 f.2.toUTF8) FileTree.empty).toFiles

/-- The sections in the property file of an element. -/
def sectionsOf (files : Files) (directory name : String) :
    Except PropertyError (Section × Section) := do
  let path ← findFile files directory name
  let value ← valueOfFile files path
  sectionsIn name value

variable {files : Files} {directory name : String} {sections : Section × Section}

private theorem keysAscend_of_section? {v : Json} {t : Traffic} {fields : List (String × Json)}
    {part : Section} (hv : v.sorted = .obj fields) (h : section? name t fields = .ok part) :
    Json.KeysAscend part := by
  rw [section?] at h
  split at h
  · cases h
    exact .nil
  · cases h
    exact .nil
  · next properties found =>
    cases h
    obtain ⟨before, after, rfl, -⟩ := List.lookup_eq_some_iff.mp found
    obtain ⟨w, hw⟩ := (Json.keysAscend_sorted hv).2 (Spelled.name t, .obj part) (by simp)
    exact (Json.keysAscend_sorted hw.symm).1
  · cases h

private theorem exists_sorted_of_parse {format : FileFormat} {text : String} {value : Json}
    (h : parse format text = .ok value) : ∃ v : Json, v.sorted = value := by
  cases format with
  | json | yaml =>
    simp only [parse] at h
    split at h
    · cases h
      exact ⟨_, rfl⟩
    · cases h

private theorem exists_sorted_of_valueOfFile {path : String} {value : Json}
    (h : valueOfFile files path = .ok value) : ∃ v : Json, v.sorted = value := by
  rw [valueOfFile] at h
  split at h
  · cases h
  · split at h
    · cases h
    · next found =>
      cases h
      exact exists_sorted_of_parse found

/-- The sections of a file have their fields in the order of their keys. -/
theorem keysAscend_of_sectionsOf (h : sectionsOf files directory name = .ok sections)
    (t : Traffic) : Json.KeysAscend (sectionOn sections t) := by
  obtain ⟨path, -, h⟩ := exists_of_bind_eq_ok h
  obtain ⟨value, hv, h⟩ := exists_of_bind_eq_ok h
  obtain ⟨v, rfl⟩ := exists_sorted_of_valueOfFile hv
  cases hs : v.sorted with
  | obj fields =>
    rw [hs] at h
    obtain ⟨request, hreq, h⟩ := exists_of_bind_eq_ok h
    obtain ⟨response, hresp, h⟩ := exists_of_bind_eq_ok h
    cases h
    cases t with
    | request => exact keysAscend_of_section? hs hreq
    | response => exact keysAscend_of_section? hs hresp
  | invalid | null | bool | num | str | arr =>
    rw [hs] at h
    cases h

/-! ### Sections joined -/

/-- The sections with those of one more file. -/
def joinSections (sections more : Section × Section) : Section × Section :=
  (more.1.foldl mergeField sections.1, more.2.foldl mergeField sections.2)

theorem sectionOn_joinSections (sections more : Section × Section) (t : Traffic) :
    sectionOn (joinSections sections more) t =
      (sectionOn more t).foldl mergeField (sectionOn sections t) := by
  cases t <;> rfl

theorem mergeFile_eq (name : String) (sections : Section × Section) (value : Json) :
    mergeFile name sections value = (sectionsIn name value).map (joinSections sections) := by
  cases value with
  | obj fields =>
    simp only [mergeFile, sectionsIn, bind, Except.bind]
    cases section? name .request fields with
    | error => rfl
    | ok request => cases section? name .response fields <;> rfl
  | invalid | null | bool | num | str | arr => rfl

/-- The sections of the files of some elements, as far as they have them. -/
def parts (files : Files) (directory : String) (names : List String) : List (Section × Section) :=
  names.filterMap fun name ↦ (sectionsOf files directory name).toOption

variable {names : List String} {merged : Section × Section}

/-- Files are joined exactly if each of them has its sections. -/
theorem mergeAll_eq_ok_iff :
    mergeAll files directory names sections = .ok merged ↔
      (∀ name ∈ names, ∃ part, sectionsOf files directory name = .ok part) ∧
        (parts files directory names).foldl joinSections sections = merged := by
  induction names generalizing sections with
  | nil => simp [mergeAll, parts]
  | cons name rest ih =>
    have step : mergeAll files directory (name :: rest) sections =
        sectionsOf files directory name >>= fun part ↦
          mergeAll files directory rest (joinSections sections part) := by
      simp only [mergeAll, sectionsOf, mergeFile_eq, bind_assoc]
      refine congrArg _ (funext fun path ↦ congrArg _ (funext fun value ↦ ?_))
      cases sectionsIn name value <;> rfl
    cases hp : sectionsOf files directory name with
    | error e => simp [step, hp, bind, Except.bind]
    | ok part =>
      have more : parts files directory (name :: rest) = part :: parts files directory rest := by
        rw [parts, List.filterMap_cons, hp]
        rfl
      rw [step, hp, more, List.foldl_cons, List.forall_mem_cons, hp]
      simpa [bind, Except.bind] using ih

theorem keysAscend_of_mem_parts {part : Section × Section} (h : part ∈ parts files directory names)
    (t : Traffic) : Json.KeysAscend (sectionOn part t) := by
  obtain ⟨name, -, found⟩ := List.mem_filterMap.mp h
  cases hp : sectionsOf files directory name with
  | error e =>
    rw [hp] at found
    cases found
  | ok sections =>
    rw [hp] at found
    cases found
    exact keysAscend_of_sectionsOf hp t

/-! ### Values of one key -/

theorem holdsText_iff {items : List Json} {s : String} :
    holdsText items s = true ↔ .str s ∈ items := by
  rw [holdsText, List.any_eq_true]
  constructor
  · rintro ⟨item, mem, same⟩
    cases item with
    | str t => rwa [beq_iff_eq.mp same] at mem
    | invalid | null | bool | num | arr | obj => cases same
  · exact fun mem ↦ ⟨_, mem, beq_self_eq_true s⟩

/-- The value of a key in a section with one more field. -/
theorem lookup_mergeField (fields : Section) (key : String) (value : Json) (k : String) :
    (mergeField fields (key, value)).lookup k =
      if k = key then Option.merge mergeValue (fields.lookup k) (some value)
      else fields.lookup k := by
  rw [mergeField]
  by_cases hk : k = key
  · subst hk
    cases fields.lookup k <;> simp [Json.lookup_insertSorted]
  · cases fields.lookup key <;> simp [hk, Json.lookup_insertSorted]

/-- The value of a key in two sections joined. -/
theorem lookup_foldl_mergeField {added : Section} (distinct : (added.map Prod.fst).Nodup)
    (fields : Section) (k : String) : (added.foldl mergeField fields).lookup k =
      Option.merge mergeValue (fields.lookup k) (added.lookup k) := by
  induction added generalizing fields with
  | nil => simp
  | cons field rest ih =>
    obtain ⟨key, value⟩ := field
    obtain ⟨apart, distinct⟩ := List.nodup_cons.mp distinct
    rw [List.foldl_cons, ih distinct, lookup_mergeField, Json.lookup_cons_eq]
    by_cases hk : k = key
    · subst hk
      have absent : rest.lookup k = none := by
        rw [List.lookup_eq_none_iff]
        intro f hf
        have other : k ≠ f.1 := by
          rintro rfl
          exact apart (List.mem_map.mpr ⟨f, hf, rfl⟩)
        simpa using other
      rw [absent, if_pos rfl, if_pos rfl, Option.merge_none_right]
    · rw [if_neg hk, if_neg hk]

theorem keysAscend_mergeField {fields : Section} (h : Json.KeysAscend fields)
    (field : String × Json) : Json.KeysAscend (mergeField fields field) := by
  rw [mergeField]
  split
  · exact h.insertSorted _ _
  · exact h.insertSorted _ _

theorem keysAscend_foldl_joinSections {added : List (Section × Section)} {t : Traffic}
    (h : Json.KeysAscend (sectionOn sections t)) :
    Json.KeysAscend (sectionOn (added.foldl joinSections sections) t) := by
  induction added generalizing sections with
  | nil => exact h
  | cons part rest ih =>
    refine ih ?_
    rw [sectionOn_joinSections]
    exact h.foldl fun fields field hf ↦ keysAscend_mergeField hf field

/-- The value that the values of some files give together, if there are any. -/
def joinValues : List Json → Option Json
  | [] => none
  | first :: rest => some (rest.foldl mergeValue first)

/-- The value of a key is what the sections that have the key give together. -/
theorem lookup_foldl_joinSections {added : List (Section × Section)} {t : Traffic}
    (ordered : ∀ part ∈ added, Json.KeysAscend (sectionOn part t)) (k : String) :
    (sectionOn (added.foldl joinSections sections) t).lookup k =
      joinValues (((sectionOn sections t).lookup k).toList ++
        added.filterMap fun part ↦ (sectionOn part t).lookup k) := by
  induction added generalizing sections with
  | nil =>
    rw [List.foldl_nil]
    cases (sectionOn sections t).lookup k <;> rfl
  | cons part rest ih =>
    have distinct := (ordered part (.head _)).nodup
    rw [List.foldl_cons, ih fun part hp ↦ ordered part (.tail _ hp), sectionOn_joinSections,
      lookup_foldl_mergeField distinct, List.filterMap_cons]
    cases (sectionOn sections t).lookup k <;> cases (sectionOn part t).lookup k <;> rfl

/-- The value that the file of an element mentions of a key. -/
def mention? (files : Files) (directory : String) (t : Traffic) (k name : String) : Option Json :=
  (sectionsOf files directory name).toOption.bind fun part ↦ (sectionOn part t).lookup k

/-- The values that the files of some elements mention of a key, in the order of the elements. -/
def mentions (files : Files) (directory : String) (t : Traffic) (k : String)
    (names : List String) : List Json :=
  names.filterMap (mention? files directory t k)

theorem keysAscend_of_mergeAll (h : mergeAll files directory names ([], []) = .ok merged)
    (t : Traffic) : Json.KeysAscend (sectionOn merged t) := by
  obtain ⟨-, rfl⟩ := mergeAll_eq_ok_iff.mp h
  exact keysAscend_foldl_joinSections (by cases t <;> exact .nil)

/-- In the sections of some files together, a key has the value that the files which mention it give
together. -/
theorem lookup_of_mergeAll (h : mergeAll files directory names ([], []) = .ok merged)
    (t : Traffic) (k : String) :
    (sectionOn merged t).lookup k = joinValues (mentions files directory t k names) := by
  obtain ⟨-, rfl⟩ := mergeAll_eq_ok_iff.mp h
  have start : (sectionOn ([], []) t).lookup k = none := by cases t <;> rfl
  rw [lookup_foldl_joinSections fun part hp ↦ keysAscend_of_mem_parts hp t, start, parts,
    List.filterMap_filterMap]
  rfl

end Properties

end ChainPlan
