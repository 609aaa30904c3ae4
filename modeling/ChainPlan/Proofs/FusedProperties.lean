import ChainPlan.Proofs.Grouping
import ChainPlan.Proofs.SectionEffects

/-! # Properties of fused elements

The properties of a fused element are loaded from the files of all of its parts. A flag is what the
first file says that mentions it. The sets are those of the merged effects of the parts, but for how
often they list a field: a merge adds each field once behind those of the first part, whereas a list
is taken as it is written from the first file that mentions its set. So a field that is listed twice
there stays listed twice, unless the wildcard absorbs it.
-/

namespace ChainPlan

/-! ### Sets joined -/

theorem foldl_addNew_eq_append {α : Type} [DecidableEq α] {xs ys : List α}
    (h : (xs ++ ys).Nodup) : ys.foldl addNew xs = xs ++ ys := by
  induction ys generalizing xs with
  | nil => rw [List.foldl_nil, List.append_nil]
  | cons y ys ih =>
    have fresh : y ∉ xs := fun hy ↦ (List.nodup_append.mp h).2.2 y hy y (.head _) rfl
    rw [List.append_cons] at h ⊢
    rw [List.foldl_cons, addNew, if_neg fresh, ih h]

namespace FieldSet

/-- The sets united one after the other, from the first one on. -/
def unionAll : List FieldSet → FieldSet
  | [] => empty
  | s :: rest => rest.foldl union s

/-- The set without fields gains each field of a set once. -/
theorem empty_union_eq_iff (s : FieldSet) : empty.union s = s ↔ s.fields.Nodup := by
  cases s with
  | all => simp [union, fields]
  | only fs =>
    rw [union, empty, foldl_insert_only]
    constructor
    · intro h
      rw [← h]
      exact nodup_foldl_addNew fs List.nodup_nil
    · intro h
      rw [foldl_addNew_eq_append (by simpa [fields] using h), List.nil_append]

theorem foldl_union_empty (sets : List FieldSet) :
    sets.foldl union empty = empty.union (unionAll sets) := by
  cases sets with
  | nil => rfl
  | cons s rest =>
    rw [List.foldl_cons, unionAll]
    induction rest generalizing s with
    | nil => rfl
    | cons s' rest ih => rw [List.foldl_cons, List.foldl_cons, union_assoc, ih]

theorem nodup_fields_union_iff (s s' : FieldSet) :
    (s.union s').fields.Nodup ↔ s.fields.Nodup ∨ s' = all := by
  constructor
  · intro h
    cases s' with
    | all => exact .inr rfl
    | only fs =>
      obtain ⟨added, listed, -⟩ := exists_fields_foldl_insert fs s
      rw [union, listed] at h
      exact .inl (List.nodup_append.mp h).1
  · rintro (h | rfl)
    · exact nodup_fields_union s' h
    · exact List.nodup_nil

/-- Sets that are united list a field twice exactly if the first of them does, and no later one is
the wildcard. -/
theorem nodup_fields_unionAll_iff (sets : List FieldSet) :
    (unionAll sets).fields.Nodup ↔ (sets.headD empty).fields.Nodup ∨ all ∈ sets.tail := by
  cases sets with
  | nil => exact iff_of_true List.nodup_nil (.inl List.nodup_nil)
  | cons s rest =>
    rw [unionAll, List.headD_cons, List.tail_cons]
    induction rest generalizing s with
    | nil => simp
    | cons s' rest ih =>
      rw [List.foldl_cons, ih, nodup_fields_union_iff, or_assoc, List.mem_cons, eq_comm]

/-- Sets without fields change nothing in a union, if they do not come first. -/
theorem foldl_union_filter {α : Type} {S : α → FieldSet} {p : α → Bool} {xs : List α}
    (h : ∀ x ∈ xs, p x = false → S x = empty) (s : FieldSet) :
    (xs.map S).foldl union s = ((xs.filter p).map S).foldl union s := by
  induction xs generalizing s with
  | nil => rfl
  | cons x rest ih =>
    have ih := ih fun y hy ↦ h y (.tail _ hy)
    rw [List.map_cons, List.foldl_cons, List.filter_cons]
    cases hp : p x with
    | true => rw [if_pos rfl, List.map_cons, List.foldl_cons, ih]
    | false =>
      rw [if_neg Bool.false_ne_true, h x (.head _) hp, ← ih]
      rfl

end FieldSet

theorem PathEffects.fieldsOf_foldl_merge (e : PathEffects) (others : List PathEffects) (a : Access) :
    (others.foldl merge e).fieldsOf a = (others.map (·.fieldsOf a)).foldl .union (e.fieldsOf a) := by
  induction others generalizing e with
  | nil => rfl
  | cons e' rest ih => rw [List.foldl_cons, ih, fieldsOf_merge, List.map_cons, List.foldl_cons]

/-! ### Values joined -/

namespace Property

/-- What two values of a property give together: sets are united, of flags the first one counts. -/
def join : (p : Property) → p.Value → p.Value → p.Value
  | .set _ => FieldSet.union
  | .flag _ => fun first _ ↦ first

/-- What some values of a property give together, which has its default if there are none. -/
def joinAll (p : Property) : List p.Value → p.Value
  | [] => PathEffects.none.value p
  | x :: rest => rest.foldl p.join x

end Property

namespace Properties

theorem foldl_addItem_ofStrings (names more : List String) :
    (more.map Json.str).foldl addItem (names.map Json.str) =
      (more.foldl addNew names).map Json.str := by
  induction more generalizing names with
  | nil => rfl
  | cons s rest ih =>
    have step : addItem (names.map Json.str) (.str s) = (addNew names s).map Json.str := by
      have held : holdsText (names.map Json.str) s = true ↔ s ∈ names := by
        simp [holdsText_iff]
      rw [addItem, addNew]
      by_cases hs : s ∈ names
      · rw [if_pos hs, if_pos (held.mpr hs)]
      · rw [if_neg hs, if_neg (held.not.mpr hs), List.map_append]
        rfl
    rw [List.map_cons, List.foldl_cons, List.foldl_cons, step, ih]

/-- Files join written values as the values themselves are joined. -/
theorem mergeValue_toJson (p : Property) (x y : p.Value) :
    mergeValue (p.toJson x) (p.toJson y) = p.toJson (p.join x y) := by
  cases p with
  | flag f => rfl
  | set a =>
    change FieldSet at x y
    change mergeValue x.toJson y.toJson = (x.union y).toJson
    cases x with
    | all =>
      cases y with
      | all => rfl
      | only ys =>
        rw [FieldSet.union, FieldSet.foldl_insert_all]
        rfl
    | only xs =>
      cases y with
      | all => rfl
      | only ys =>
        rw [FieldSet.union, FieldSet.foldl_insert_only]
        exact congrArg Json.arr (foldl_addItem_ofStrings xs ys)

/-- Written values are read together as what they give together. -/
theorem readOver_joinValues (p : Property) (xs : List p.Value) :
    p.readOver .none (joinValues (xs.map p.toJson)) = .ok (p.joinAll xs) := by
  cases xs with
  | nil => rfl
  | cons x rest =>
    have joined : (rest.map p.toJson).foldl mergeValue (p.toJson x) =
        p.toJson (rest.foldl p.join x) := by
      induction rest generalizing x with
      | nil => rfl
      | cons y rest ih => rw [List.map_cons, List.foldl_cons, mergeValue_toJson, ih, List.foldl_cons]
    exact Property.read_eq_ok_iff.mpr joined

/-! ### Files of several elements -/

variable {files : Files} {directory : String} {names : List String} {effects : String → Effects}

/-- The elements whose files mention a key. -/
def mentioning (files : Files) (directory : String) (t : Traffic) (k : String)
    (names : List String) : List String :=
  names.filter fun name ↦ (mention? files directory t k name).isSome

/-- What the file of an element mentions is what its effects are. -/
theorem mention?_eq_none_or_of_load {name : String} {e : Effects}
    (h : load files directory [name] = .ok e) (t : Traffic) (p : Property) :
    mention? files directory t p.name name = none ∧ (e.on t).value p = PathEffects.none.value p ∨
      mention? files directory t p.name name = some (p.toJson ((e.on t).value p)) := by
  have read := (load_singleton_eq_ok_iff.mp h).2 t p
  cases hm : mention? files directory t p.name name with
  | none =>
    rw [hm] at read
    exact .inl ⟨rfl, (Except.ok.inj read).symm⟩
  | some v =>
    rw [hm] at read
    exact .inr (congrArg some (Property.read_eq_ok_iff.mp read))

theorem fieldsOf_of_unmentioned {name : String} {e : Effects}
    (h : load files directory [name] = .ok e) {t : Traffic} {a : Access}
    (unmentioned : (mention? files directory t a.name name).isSome = false) :
    (e.on t).fieldsOf a = .empty := by
  rcases mention?_eq_none_or_of_load h t (.set a) with ⟨-, default⟩ | found
  · refine Eq.trans default ?_
    cases a <;> rfl
  · rw [show mention? files directory t a.name name = _ from found] at unmentioned
    cases unmentioned

/-- The files of some elements mention the values that the elements have alone. -/
theorem mentions_eq_map (alone : ∀ name ∈ names, load files directory [name] = .ok (effects name))
    (t : Traffic) (p : Property) :
    mentions files directory t p.name names =
      ((mentioning files directory t p.name names).map
        fun name ↦ ((effects name).on t).value p).map p.toJson := by
  induction names with
  | nil => rfl
  | cons name rest ih =>
    have ih := ih fun other ho ↦ alone other (.tail _ ho)
    rw [mentions, mentioning] at ih ⊢
    rw [List.filterMap_cons, List.filter_cons]
    rcases mention?_eq_none_or_of_load (alone name (.head _)) t p with ⟨hm, -⟩ | hm
    · simp only [hm, ih, Option.isSome_none, Bool.false_eq_true, if_false]
    · simp only [hm, ih, Option.isSome_some, if_true, List.map_cons]

/-- Elements that have effects alone have effects together: of each property, what the values of
those elements give together whose files mention it. -/
theorem exists_load_of_alone
    (alone : ∀ name ∈ names, load files directory [name] = .ok (effects name)) :
    ∃ whole, load files directory names = .ok whole ∧ ∀ t, ∀ p : Property,
      (whole.on t).value p = p.joinAll ((mentioning files directory t p.name names).map
        fun name ↦ ((effects name).on t).value p) := by
  have read (t : Traffic) (p : Property) := readOver_joinValues p
    ((mentioning files directory t p.name names).map fun name ↦ ((effects name).on t).value p)
  simp only [← mentions_eq_map alone] at read
  obtain ⟨whole, loaded⟩ := exists_load_iff.mpr
    ⟨fun name hn ↦ (load_singleton_eq_ok_iff.mp (alone name hn)).1, fun t p ↦ ⟨_, read t p⟩⟩
  refine ⟨whole, loaded, fun t p ↦ ?_⟩
  have value := (load_eq_ok_iff.mp loaded).2 t p
  rw [read] at value
  exact (Except.ok.inj value).symm

theorem joinAll_flag (f : Flag) (values : List Bool) :
    (Property.flag f).joinAll values = values.headD false := by
  cases values with
  | nil => cases f <;> rfl
  | cons b rest =>
    induction rest with
    | nil => rfl
    | cons b' rest ih => exact ih

theorem joinAll_set (a : Access) (sets : List FieldSet) :
    (Property.set a).joinAll sets = FieldSet.unionAll sets := by
  cases sets with
  | nil => cases a <;> rfl
  | cons s rest => rfl

/-- A flag of elements together is what the first file mentions of it. -/
theorem getD_findSome?_mention?
    (alone : ∀ name ∈ names, load files directory [name] = .ok (effects name)) (t : Traffic)
    (f : Flag) : (names.findSome? (mention? files directory t f.name)).getD (.bool false) =
      .bool (((mentioning files directory t f.name names).map
        fun name ↦ ((effects name).on t).flag f).headD false) := by
  have mentioned : mentions files directory t f.name names =
      ((mentioning files directory t f.name names).map
        fun name ↦ ((effects name).on t).flag f).map Json.bool :=
    mentions_eq_map alone t (.flag f)
  rw [← List.head?_filterMap, ← mentions, mentioned]
  cases (mentioning files directory t f.name names).map fun name ↦ ((effects name).on t).flag f <;>
    rfl

/-- Merged effects have the sets of those elements whose files mention them. -/
theorem fieldsOf_merged (alone : ∀ name ∈ names, load files directory [name] = .ok (effects name))
    (e : PathEffects) (t : Traffic) (a : Access) :
    ((names.map fun name ↦ (effects name).on t).foldl .merge e).fieldsOf a =
      ((mentioning files directory t a.name names).map
        fun name ↦ ((effects name).on t).fieldsOf a).foldl .union (e.fieldsOf a) := by
  rw [PathEffects.fieldsOf_foldl_merge, List.map_map]
  exact FieldSet.foldl_union_filter
    (fun name hn unmentioned ↦ fieldsOf_of_unmentioned (alone name hn) unmentioned) _

/-- The sets that files mention are united as the effects are merged, except that a merge takes out
what is repeated in the first of them, unless that is the set of the first element. -/
theorem unionAll_eq_fieldsOf_merged_iff {first : String} {rest : List String}
    (alone : ∀ name ∈ first :: rest, load files directory [name] = .ok (effects name))
    (t : Traffic) (a : Access) {sets : List FieldSet}
    (mentioned : sets = (mentioning files directory t a.name (first :: rest)).map
      fun name ↦ ((effects name).on t).fieldsOf a) :
    .unionAll sets =
        ((rest.map fun name ↦ (effects name).on t).foldl .merge ((effects first).on t)).fieldsOf a ↔
      (mention? files directory t a.name first).isSome ∨
        (sets.headD .empty).fields.Nodup ∨ .all ∈ sets.tail := by
  rw [fieldsOf_merged fun name hn ↦ alone name (.tail _ hn)]
  subst mentioned
  cases hm : (mention? files directory t a.name first).isSome with
  | true =>
    have more : mentioning files directory t a.name (first :: rest) =
        first :: mentioning files directory t a.name rest := List.filter_cons_of_pos hm
    rw [more]
    exact iff_of_true rfl (.inl rfl)
  | false =>
    have same : mentioning files directory t a.name (first :: rest) =
        mentioning files directory t a.name rest := List.filter_cons_of_neg (by simp [hm])
    -- The merge starts from a set without fields, to which the first set is added field by field.
    rw [same, fieldsOf_of_unmentioned (alone first (.head _)) hm, FieldSet.foldl_union_empty,
      eq_comm, FieldSet.empty_union_eq_iff, FieldSet.nodup_fields_unionAll_iff]
    exact (or_iff_right Bool.false_ne_true).symm

/-- Elements that have effects alone have effects together. On each kind of traffic a flag is what
the first file mentions that mentions it, and a set unites those that the files mention. So the sets
are those of the merged effects, unless the first file does not mention the set, the first one that
does lists a field twice, and no later one has the wildcard for it. -/
theorem load_fused {first : String} {rest : List String}
    (alone : ∀ name ∈ first :: rest, load files directory [name] = .ok (effects name)) :
    ∃ whole, load files directory (first :: rest) = .ok whole ∧ ∀ t,
      (∀ f : Flag, ((first :: rest).findSome? (mention? files directory t f.name)).getD
        (.bool false) = .bool ((whole.on t).flag f)) ∧
      ∀ a : Access, ∃ sets : List FieldSet,
        mentions files directory t a.name (first :: rest) = sets.map FieldSet.toJson ∧
        (whole.on t).fieldsOf a = .unionAll sets ∧
        ((whole.on t).fieldsOf a = ((rest.map fun name ↦ (effects name).on t).foldl .merge
            ((effects first).on t)).fieldsOf a ↔
          (mention? files directory t a.name first).isSome ∨
            (sets.headD .empty).fields.Nodup ∨ .all ∈ sets.tail) := by
  obtain ⟨whole, loaded, values⟩ := exists_load_of_alone alone
  refine ⟨whole, loaded, fun t ↦ ⟨fun f ↦ ?_, fun a ↦ ?_⟩⟩
  · rw [getD_findSome?_mention? alone]
    exact congrArg Json.bool ((values t (.flag f)).trans (joinAll_flag f _)).symm
  · have value : (whole.on t).fieldsOf a =
        .unionAll ((mentioning files directory t a.name (first :: rest)).map
          fun name ↦ ((effects name).on t).fieldsOf a) :=
      (values t (.set a)).trans (joinAll_set a _)
    refine ⟨_, mentions_eq_map alone t (.set a), value, ?_⟩
    rw [value]
    exact unionAll_eq_fieldsOf_merged_iff alone t a rfl

/-- The effects of an element that reads some fields of requests. -/
def reading (fields : List Field) : Effects := ⟨{ PathEffects.none with read := .only fields }, .none⟩

/-- The files of two elements, the second of which lists a field twice. -/
def repeatingFiles (text : String) : Files :=
  textFiles [("acl.yaml", text), ("log.yaml", "request:\n  read: [user, user]\n")]

/-- Behind a file that mentions the set, a field that is listed twice is read once. -/
theorem load_fused_mentioned :
    let files := repeatingFiles "request:\n  read: [kind]\n"
    let effects (name : String) := reading (if name = "acl" then ["kind"] else ["user", "user"])
    (∀ name ∈ ["acl", "log"], load files "" [name] = .ok (effects name)) ∧
      ∃ whole, load files "" ["acl", "log"] = .ok whole ∧
        whole.request.read = .only ["kind", "user"] := by
  have alone : ∀ name ∈ ["acl", "log"],
      load (repeatingFiles "request:\n  read: [kind]\n") "" [name] =
        .ok (reading (if name = "acl" then ["kind"] else ["user", "user"])) := by
    decide +kernel
  obtain ⟨whole, loaded, each⟩ := load_fused alone
  obtain ⟨sets, -, -, same⟩ := (each .request).2 .read
  exact ⟨alone, whole, loaded, same.mpr (.inl (by decide +kernel))⟩

/-- A field that is listed twice stays so behind a file that says nothing of the set. -/
theorem load_keeps_repeats :
    let files := repeatingFiles "request:\n"
    load files "" ["acl"] = .ok .none ∧
      load files "" ["log"] = .ok (reading ["user", "user"]) ∧
      load files "" ["acl", "log"] = .ok (reading ["user", "user"]) ∧
      Effects.none.merge (reading ["user", "user"]) = reading ["user"] := by
  decide +kernel

end Properties

end ChainPlan
