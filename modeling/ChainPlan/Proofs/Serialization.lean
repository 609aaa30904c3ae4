import ChainPlan.ChainFile
import Mathlib.Data.List.Pairwise
import Mathlib.Data.List.Perm.Basic

/-! # Serialization

What is written as a JSON value is read back as it was, in whatever order the fields of objects
stand, and an element also where a chain file wants one. Reading a record puts in one field after
the other; the fields of a record do not get in each other's way, so their order does not matter.
-/

namespace ChainPlan

/-! ### Layouts of values -/

namespace Json

/-- A way to lay out values that may put the fields of objects in another order. -/
structure Layout (write : Json → Json) : Prop where
  bool (b : Bool) : write (.bool b) = .bool b
  str (s : String) : write (.str s) = .str s
  arr (items : List Json) : write (.arr items) = .arr (items.map write)
  obj (fields : List (String × Json)) (distinct : (fields.map Prod.fst).Nodup) :
    ∃ placed, write (.obj fields) = .obj placed ∧
      placed.Perm (fields.map fun f ↦ (f.1, write f.2))

/-- The layout in the order in which values are written. -/
theorem layout_id : Layout id where
  bool _ := rfl
  str _ := rfl
  arr items := by simp
  obj fields _ := ⟨fields, rfl, by simp⟩

theorem sortedItems_eq_map (items : List Json) : sortedItems items = items.map sorted := by
  induction items with
  | nil => rfl
  | cons v rest ih => rw [sortedItems, ih, List.map_cons]

theorem sortedFields_eq_map (fields : List (String × Json)) :
    sortedFields fields = fields.map fun f ↦ (f.1, f.2.sorted) := by
  induction fields with
  | nil => rfl
  | cons f rest ih => rw [sortedFields, ih, List.map_cons]

/-- A new key finds its place among the others. -/
theorem insertSorted_perm {key : String} {value : Json} {fields : List (String × Json)}
    (h : key ∉ fields.map Prod.fst) :
    (insertSorted key value fields).Perm ((key, value) :: fields) := by
  induction fields with
  | nil => exact .refl _
  | cons f rest ih =>
    obtain ⟨k, v⟩ := f
    obtain ⟨hk, hr⟩ := not_or.mp (List.mem_cons.not.mp h)
    rw [insertSorted, if_neg hk]
    split
    · exact .refl _
    · exact ((ih hr).cons _).trans (.swap _ _ _)

theorem foldl_insertSorted_perm {fields placed : List (String × Json)}
    (h : ((placed ++ fields).map Prod.fst).Nodup) :
    (fields.foldl (fun fs f ↦ insertSorted f.1 f.2 fs) placed).Perm (placed ++ fields) := by
  induction fields generalizing placed with
  | nil => simp
  | cons f rest ih =>
    have fresh : f.1 ∉ placed.map Prod.fst := by
      intro hm
      rw [List.map_append, List.nodup_append] at h
      exact h.2.2 _ hm f.1 (.head _) rfl
    have moved : (insertSorted f.1 f.2 placed ++ rest).Perm (placed ++ f :: rest) :=
      ((insertSorted_perm fresh).append_right rest).trans List.perm_middle.symm
    exact (ih ((moved.map Prod.fst).nodup_iff.mpr h)).trans moved

/-- The layout with the fields of every object in the order of their keys. -/
theorem layout_sorted : Layout sorted where
  bool _ := rfl
  str _ := rfl
  arr items := by rw [sorted, sortedItems_eq_map]
  obj fields distinct := by
    refine ⟨_, rfl, ?_⟩
    rw [sortedFields_eq_map]
    refine foldl_insertSorted_perm ?_
    rw [List.nil_append, List.map_map]
    exact distinct

theorem Layout.ofStrings {write : Json → Json} (h : Layout write) (texts : List String) :
    write (.ofStrings texts) = .ofStrings texts := by
  simp [Json.ofStrings, h.arr, h.str]

end Json

/-! ### Records in any order -/

namespace Decode

section

variable {α β γ : Type} {strangers : Strangers}
  {steps : List (String × FieldStep α β)} {fields : List (String × α)} {puts : List (β → β)}

/-- A field changes the record that is read in one way, whatever has been read before. -/
inductive Puts (strangers : Strangers) (steps : List (String × FieldStep α β)) :
    String × α → (β → β) → Prop where
  | known {name : String} {d : α} {step : FieldStep α β} {put : β → β}
      (found : steps.lookup name = some step) (puts : ∀ b, step b d = .ok (put b)) :
      Puts strangers steps (name, d) put
  /-- The field does not belong to the record. -/
  | stranger {name : String} {d : α} (ignored : strangers = .ignored)
      (missing : steps.lookup name = none) : Puts strangers steps (name, d) id

theorem puts_into {name : String} {d : α} {read : α → Except DecodeError γ} {put : β → γ → β}
    {value : γ} (found : steps.lookup name = some (into read put)) (h : read d = .ok value) :
    Puts strangers steps (name, d) fun b ↦ put b value :=
  .known found fun b ↦ by rw [into, h, Except.map]

/-- Fields that are read behind one of another name have not been read with it. -/
theorem unseen_cons {name : String} {seen : List String} (single : name ∉ fields.map Prod.fst)
    (unseen : ∀ f ∈ fields, f.1 ∉ seen) : ∀ f ∈ fields, f.1 ∉ name :: seen := by
  intro f hf hs
  rcases List.mem_cons.mp hs with he | hs
  · exact single (List.mem_map.mpr ⟨f, hf, he⟩)
  · exact unseen f hf hs

theorem foldFields_of_puts (h : List.Forall₂ (Puts strangers steps) fields puts)
    (distinct : (fields.map Prod.fst).Nodup) {seen : List String}
    (fresh : ∀ f ∈ fields, f.1 ∉ seen) (b : β) :
    foldFields strangers steps seen b fields = .ok (puts.foldl (fun b put ↦ put b) b) := by
  induction h generalizing seen b with
  | nil => rfl
  | @cons f put fields puts hf _ ih =>
    obtain ⟨later, apart⟩ := List.nodup_cons.mp distinct
    cases hf with
    | @known name d step _ found puts =>
      have unseen : ¬ seen.contains name = true := by
        simpa using fresh _ (.head _)
      have next := unseen_cons later fun g hg ↦ fresh g (.tail _ hg)
      simp only [foldFields, found, if_neg unseen, puts]
      exact ih apart next (put b)
    | stranger ignored missing =>
      subst ignored
      simp only [foldFields, missing]
      exact ih apart (fun g hg ↦ fresh g (.tail _ hg)) b

/-- Fields that do not get in each other's way may be read in any order. -/
theorem foldFields_of_perm {placed : List (String × α)}
    (h : List.Forall₂ (Puts strangers steps) fields puts) (perm : placed.Perm fields)
    (distinct : (fields.map Prod.fst).Nodup)
    (commute : puts.Pairwise fun f g ↦ ∀ b, f (g b) = g (f b)) (b : β) :
    foldFields strangers steps [] b placed = .ok (puts.foldl (fun b put ↦ put b) b) := by
  obtain ⟨others, placedPuts, permPuts⟩ := List.perm_comp_forall₂ perm h
  rw [foldFields_of_puts placedPuts ((perm.map Prod.fst).nodup_iff.mpr distinct) (by simp)]
  refine congrArg Except.ok (permPuts.foldl_eq' (fun f hf g hg b ↦ ?_) b)
  have symmetric : Std.Symm fun f g : β → β ↦ ∀ b, f (g b) = g (f b) := ⟨fun _ _ h b ↦ (h b).symm⟩
  have each := List.Pairwise.forall_of_forall (fun _ _ _ ↦ rfl) commute
  exact each (permPuts.subset hg) (permPuts.subset hf) b

end

section

variable {β : Type} {strangers : Strangers} {required : Nat}
  {steps : List (String × FieldStep Json β)} {fields placed : List (String × Json)}
  {puts : List (β → β)}

/-- A record is read from an object that has its required fields, in any order. -/
theorem readRecord_of_perm (h : List.Forall₂ (Puts strangers steps) fields puts)
    (perm : placed.Perm fields) (distinct : (fields.map Prod.fst).Nodup)
    (commute : puts.Pairwise fun f g ↦ ∀ b, f (g b) = g (f b))
    (present : (steps.take required).map Prod.fst ⊆ fields.map Prod.fst) (b : β) :
    readRecord strangers required steps b (Json.obj placed) =
      .ok (puts.foldl (fun b put ↦ put b) b) := by
  have complete : firstMissing? ⟨(steps.take required).map Prod.fst,
      (steps.drop required).map Prod.fst⟩ placed = none := by
    rw [firstMissing?, List.find?_eq_none]
    intro name hn
    have written := (perm.map Prod.fst).symm.subset (present hn)
    simpa using written
  simp only [readRecord, Document.fields?, foldFields_of_perm h perm distinct commute, bind,
    Except.bind, complete]
  rfl

end

end Decode

/-- A record that is written as an object is read back from every layout of it. -/
theorem Json.Layout.readRecord {β : Type} {strangers : Decode.Strangers} {required : Nat}
    {steps : List (String × Decode.FieldStep Json β)} {fields : List (String × Json)}
    {puts : List (β → β)} {write : Json → Json} (h : Layout write)
    (distinct : (fields.map Prod.fst).Nodup)
    (read : List.Forall₂ (Decode.Puts strangers steps) (fields.map fun f ↦ (f.1, write f.2)) puts)
    (commute : puts.Pairwise fun f g ↦ ∀ b, f (g b) = g (f b))
    (present : (steps.take required).map Prod.fst ⊆ fields.map Prod.fst) (b : β) :
    Decode.readRecord strangers required steps b (write (.obj fields)) =
      .ok (puts.foldl (fun b put ↦ put b) b) := by
  obtain ⟨placed, written, perm⟩ := h.obj fields distinct
  have names : (fields.map fun f ↦ (f.1, write f.2)).map Prod.fst = fields.map Prod.fst := by
    rw [List.map_map]
    rfl
  rw [written]
  exact Decode.readRecord_of_perm read perm (names ▸ distinct) commute (names ▸ present) b

/-! ### Values -/

section

open Decode

variable {write : Json → Json}

theorem mapM_map_eq_ok {α β ε : Type} {f : α → β} {read : β → Except ε α} {xs : List α}
    (h : ∀ x ∈ xs, read (f x) = .ok x) : (xs.map f).mapM read = .ok xs := by
  induction xs with
  | nil => rfl
  | cons x rest ih =>
    rw [List.map_cons, List.mapM_cons, h x (.head _), ih fun y hy ↦ h y (.tail _ hy)]
    rfl

theorem list_text_write (h : Json.Layout write) (texts : List String) :
    list text (write (.ofStrings texts)) = .ok texts := by
  rw [h.ofStrings]
  exact mapM_map_eq_ok fun _ _ ↦ rfl

theorem bool_write (h : Json.Layout write) (b : Bool) : bool (write (.bool b)) = .ok b := by
  rw [h.bool]
  rfl

theorem text_write (h : Json.Layout write) (s : String) : text (write (.str s)) = .ok s := by
  rw [h.str]
  rfl

theorem textOrNull_write (h : Json.Layout write) (s : String) :
    textOrNull (write (.str s)) = .ok (some s) := by
  rw [h.str]
  rfl

theorem FieldSet.decode_write (h : Json.Layout write) (s : FieldSet) :
    FieldSet.decode (write s.toJson) = .ok s := by
  cases s with
  | all =>
    rw [FieldSet.toJson, h.str]
    rfl
  | only fields =>
    rw [FieldSet.toJson, h.ofStrings]
    have each : (fields.map Json.str).mapM plainText = .ok fields := mapM_map_eq_ok fun _ _ ↦ rfl
    exact congrArg (Except.map FieldSet.only) each

theorem PathEffects.decode_write (h : Json.Layout write) (e : PathEffects) :
    PathEffects.decode (write e.toJson) = .ok e := by
  obtain ⟨read, written, record, drop, block, copy, probabilistic⟩ := e
  have readSet := FieldSet.decode_write h read
  have writtenSet := FieldSet.decode_write h written
  have recordSet := FieldSet.decode_write h record
  cases probabilistic with
  | false =>
    refine Eq.trans (h.readRecord ?_ (.cons (puts_into rfl readSet) <|
      .cons (puts_into rfl writtenSet) <| .cons (puts_into rfl recordSet) <|
      .cons (puts_into rfl (bool_write h drop)) <| .cons (puts_into rfl (bool_write h block)) <|
      .cons (puts_into rfl (bool_write h copy)) .nil) ?_ ?_ _) rfl
    all_goals simp
  | true =>
    refine Eq.trans (h.readRecord ?_ (.cons (puts_into rfl readSet) <|
      .cons (puts_into rfl writtenSet) <| .cons (puts_into rfl recordSet) <|
      .cons (puts_into rfl (bool_write h drop)) <| .cons (puts_into rfl (bool_write h block)) <|
      .cons (puts_into rfl (bool_write h copy)) <|
      .cons (puts_into rfl (bool_write h true)) .nil) ?_ ?_ _) rfl
    all_goals simp

theorem Effects.decode_write (h : Json.Layout write) (e : Effects) :
    Effects.decode (write e.toJson) = .ok e := by
  refine Eq.trans (h.readRecord ?_ (.cons (puts_into rfl (PathEffects.decode_write h e.request)) <|
    .cons (puts_into rfl (PathEffects.decode_write h e.response)) .nil) ?_ ?_ _) rfl
  all_goals simp [toFields]

theorem word_write {α : Type} [Spelled α] (h : Json.Layout write) {a : α}
    (loose : Spelled.ofLooseText? (Spelled.name a) = some a) :
    word (write (.str (Spelled.name a))) = .ok a := by
  rw [word, text_write h]
  simp only [bind, Except.bind, loose]
  rfl

theorem ofLooseText?_site (s : Site) : Spelled.ofLooseText? (Spelled.name s) = some s := by
  cases s <;> rfl

theorem ofLooseText?_consistency (c : Consistency) :
    Spelled.ofLooseText? (Spelled.name c) = some c := by
  cases c <;> rfl

theorem ofLooseText?_replica (r : Replica) : Spelled.ofLooseText? (Spelled.name r) = some r := by
  cases r <;> rfl

theorem ElementState.decode_write (h : Json.Layout write) (s : ElementState) :
    ElementState.decode (write s.toJson) = .ok s := by
  refine Eq.trans (h.readRecord ?_ (.cons (puts_into rfl (bool_write h s.stateful)) <|
    .cons (puts_into rfl (word_write h (ofLooseText?_consistency s.consistency))) <|
    .cons (puts_into rfl (text_write h s.combiner)) <|
    .cons (puts_into rfl (word_write h (ofLooseText?_replica s.replica))) <|
    .cons (puts_into rfl (text_write h s.persistence)) .nil) ?_ ?_ _) rfl
  all_goals simp

theorem Element.decode_write (h : Json.Layout write) (e : Element) :
    Element.decode (write e.toJson) = .ok e := by
  obtain ⟨names, partner, site, state, effects⟩ := e
  have name := list_text_write h names
  have place := word_write h (ofLooseText?_site site)
  have needs := ElementState.decode_write h state
  have properties := Effects.decode_write h effects
  cases partner with
  | none =>
    refine Eq.trans (h.readRecord ?_ (.cons (puts_into rfl name) <|
      .cons (puts_into rfl place) <| .cons (puts_into rfl needs) <|
      .cons (puts_into rfl properties) .nil) ?_ ?_ _) rfl
    all_goals simp
  | some partner =>
    refine Eq.trans (h.readRecord ?_ (.cons (puts_into rfl name) <|
      .cons (puts_into rfl (textOrNull_write h partner)) <| .cons (puts_into rfl place) <|
      .cons (puts_into rfl needs) <| .cons (puts_into rfl properties) .nil) ?_ ?_ _) rfl
    all_goals simp

theorem Profile.decode_write (h : Json.Layout write) (p : Profile) :
    Profile.decode (write p.toJson) = .ok p := by
  obtain ⟨placed, written, perm⟩ := h.obj (("state", p.state.toJson) :: p.effects.toFields)
    (by simp [Effects.toFields])
  -- Each of the two readings ignores the fields of the other.
  have state : foldFields .ignored [("state", into ElementState.decode fun _ x ↦ x)] []
      .stateless placed = .ok p.state := by
    refine Eq.trans (foldFields_of_perm
      (.cons (puts_into rfl (ElementState.decode_write h p.state)) <|
        .cons (.stranger rfl rfl) <| .cons (.stranger rfl rfl) .nil) perm ?_ ?_ _) rfl
    all_goals simp
  have effects : foldFields .ignored Effects.steps [] .none placed = .ok p.effects := by
    refine Eq.trans (foldFields_of_perm (.cons (.stranger rfl rfl) <|
      .cons (puts_into rfl (PathEffects.decode_write h p.effects.request)) <|
      .cons (puts_into rfl (PathEffects.decode_write h p.effects.response)) .nil) perm ?_ ?_ _) rfl
    all_goals simp
  rw [toJson, written]
  simp only [decode, Document.view, state, effects, bind, Except.bind]
  rfl

theorem Plan.decodeSide_write (h : Json.Layout write) (side : Option Element) :
    Plan.decodeSide (write (Chain.toJson side.toList)) = .ok side := by
  have elements : list Element.decode (write (Chain.toJson side.toList)) = .ok side.toList := by
    rw [Chain.toJson, h.arr, List.map_map]
    exact mapM_map_eq_ok fun e _ ↦ Element.decode_write h e
  rw [decodeSide, elements]
  cases side <;> rfl

theorem Plan.decode_write (h : Json.Layout write) (p : Plan) :
    Plan.decode (write p.toJson) = .ok p := by
  refine Eq.trans (h.readRecord ?_ (.cons (puts_into rfl (Plan.decodeSide_write h p.client)) <|
    .cons (puts_into rfl (Plan.decodeSide_write h p.server)) .nil) ?_ ?_ _) rfl
  all_goals simp

/-- An element as a chain file gives it, with all that the element has. -/
def ElementSpec.ofElement (e : Element) : ElementSpec :=
  ⟨e.names, e.partner, e.site, e.state, some e.effects⟩

theorem ElementSpec.decode_write (h : Json.Layout write) (e : Element) :
    ElementSpec.decode (write e.toJson) = .ok (ofElement e) := by
  obtain ⟨names, partner, site, state, effects⟩ := e
  have name : decodeNames (write (.ofStrings names)) = .ok names := by
    rw [h.ofStrings]
    exact mapM_map_eq_ok fun _ _ ↦ rfl
  have properties : decodeProperties (write effects.toJson) = .ok (some effects) := by
    have read := Effects.decode_write h effects
    obtain ⟨placed, written, -⟩ := h.obj effects.toFields (by simp [Effects.toFields])
    rw [Effects.toJson, written] at read ⊢
    exact congrArg (Except.map some) read
  have place := word_write h (ofLooseText?_site site)
  have needs := ElementState.decode_write h state
  cases partner with
  | none =>
    refine Eq.trans (h.readRecord ?_ (.cons (puts_into rfl name) <|
      .cons (puts_into rfl place) <| .cons (puts_into rfl needs) <|
      .cons (puts_into rfl properties) .nil) ?_ ?_ _) rfl
    all_goals simp
  | some partner =>
    refine Eq.trans (h.readRecord ?_ (.cons (puts_into rfl name) <|
      .cons (puts_into rfl (textOrNull_write h partner)) <| .cons (puts_into rfl place) <|
      .cons (puts_into rfl needs) <| .cons (puts_into rfl properties) .nil) ?_ ?_ _) rfl
    all_goals simp

end

/-- An element of a chain file with properties of its own is taken as it is, if each of its names
is there. -/
theorem ElementSpec.toElement_ofElement {e : Element} (some_name : e.names ≠ [])
    (named : "" ∉ e.names) (files : Files) (directory : Option String) :
    (ofElement e).toElement files directory = .ok e := by
  have accepted : ¬ (e.names.isEmpty || e.names.any String.isEmpty) = true := by
    simp [some_name, named]
  exact if_neg accepted

/-- Plans, elements and profiles are read back as they were written, with their fields as they are
written or sorted. An element whose names are there is also read back where a chain file wants one,
whatever files there are beside it. -/
theorem decode_toJson :
    (∀ p : Plan, Plan.decode p.toJson = .ok p ∧ Plan.decode p.toJson.sorted = .ok p) ∧
    (∀ e : Element, Element.decode e.toJson = .ok e ∧ Element.decode e.toJson.sorted = .ok e) ∧
    (∀ p : Profile, Profile.decode p.toJson = .ok p ∧ Profile.decode p.toJson.sorted = .ok p) ∧
    ∀ e : Element, e.names ≠ [] → "" ∉ e.names → ∀ v : Json, v = e.toJson ∨ v = e.toJson.sorted →
      ∃ spec, ElementSpec.decode v = .ok spec ∧
        ∀ files directory, spec.toElement files directory = .ok e := by
  have written := Json.layout_id
  have sorted := Json.layout_sorted
  refine ⟨fun p ↦ ⟨Plan.decode_write written p, Plan.decode_write sorted p⟩,
    fun e ↦ ⟨Element.decode_write written e, Element.decode_write sorted e⟩,
    fun p ↦ ⟨Profile.decode_write written p, Profile.decode_write sorted p⟩, ?_⟩
  intro e some_name named v hv
  refine ⟨.ofElement e, ?_, ElementSpec.toElement_ofElement some_name named⟩
  rcases hv with rfl | rfl
  · exact ElementSpec.decode_write written e
  · exact ElementSpec.decode_write sorted e

/-- A fused element with a partner, a wildcard and a field that is listed twice is read back from
its sorted fields. -/
theorem decode_toJson_fused :
    let request : PathEffects := ⟨.all, .only ["user", "user"], .empty, true, false, false, true⟩
    let e : Element := ⟨["acl", "fault"], some "retry", .client, .stateless, ⟨request, .none⟩⟩
    e.names ≠ [] ∧ "" ∉ e.names ∧ ∃ spec, ElementSpec.decode e.toJson.sorted = .ok spec ∧
      ∀ files directory, spec.toElement files directory = .ok e := by
  intro request e
  have some_name : e.names ≠ [] := by decide
  have named : "" ∉ e.names := by decide
  exact ⟨some_name, named, decode_toJson.2.2.2 e some_name named _ (.inr rfl)⟩

end ChainPlan
