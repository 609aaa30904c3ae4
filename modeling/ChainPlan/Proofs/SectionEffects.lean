import ChainPlan.Proofs.Sections

/-! # Effects that sections write

A section writes effects property by property: what it says of one property neither helps nor
hinders another, and a property that it does not mention has its default. So the files of some
elements write effects together exactly if the values that they mention of each property, put
together, write one of its kind.
-/

namespace ChainPlan

/-! ### Properties of the effects on one kind of traffic -/

/-- The properties that are true or false. -/
inductive Flag where
  | drop
  | block
  | copy
  | probabilistic
  deriving DecidableEq, Repr

/-- The name of the field that writes the property. -/
def Flag.name : Flag → String
  | .drop => "drop"
  | .block => "block"
  | .copy => "copy"
  | .probabilistic => "probabilistic"

/-- The properties that a section can have. -/
inductive Property where
  | set (a : Access)
  | flag (f : Flag)
  deriving DecidableEq, Repr

namespace Property

/-- The name of the field that writes the property. -/
def name : Property → String
  | .set a => a.name
  | .flag f => f.name

/-- What a property can be. -/
def Value : Property → Type
  | .set _ => FieldSet
  | .flag _ => Bool

/-- The value that is written for a property. -/
def read : (p : Property) → Json → Except DecodeError p.Value
  | .set _ => FieldSet.decode
  | .flag _ => Decode.bool

/-- How a value of a property is written. -/
def toJson : (p : Property) → p.Value → Json
  | .set _ => FieldSet.toJson
  | .flag _ => Json.bool

theorem name_injective : Function.Injective name := by
  intro p q h
  rcases p with (_ | _ | _) | (_ | _ | _ | _) <;>
    rcases q with (_ | _ | _) | (_ | _ | _ | _) <;> first | rfl | exact absurd h (by decide)

end Property

theorem mapM_plainText_eq_ok_iff {items : List Json} {names : List String} :
    items.mapM Decode.plainText = .ok names ↔ items = names.map Json.str := by
  constructor
  · intro h
    induction items generalizing names with
    | nil =>
      cases h
      rfl
    | cons item items ih =>
      rw [List.mapM_cons] at h
      obtain ⟨name, read, h⟩ := exists_of_bind_eq_ok h
      obtain ⟨others, rest, h⟩ := exists_of_bind_eq_ok h
      cases h
      cases item with
      | str text =>
        cases read
        rw [ih rest, List.map_cons]
      | invalid | null | bool | num | arr | obj => cases read
  · rintro rfl
    exact mapM_map_eq_ok fun _ _ ↦ rfl

theorem FieldSet.decode_eq_ok_iff {v : Json} {s : FieldSet} :
    FieldSet.decode v = .ok s ↔ v = s.toJson := by
  constructor
  · intro h
    cases v with
    | str word =>
      simp only [decode, Document.view] at h
      split at h
      · next he =>
        cases h
        rw [he, toJson]
      · cases h
    | arr items =>
      obtain ⟨names, read, rfl⟩ := exists_of_map_eq_ok h
      rw [mapM_plainText_eq_ok_iff.mp read, toJson, Json.ofStrings]
    | invalid | null | bool | num | obj => cases h
  · rintro rfl
    exact decode_write Json.layout_id s

/-- A value is read exactly as it is written. -/
theorem Property.read_eq_ok_iff {p : Property} {v : Json} {x : p.Value} :
    p.read v = .ok x ↔ v = p.toJson x := by
  cases p with
  | set a => exact FieldSet.decode_eq_ok_iff
  | flag f =>
    constructor
    · intro h
      cases v with
      | bool b =>
        cases h
        rfl
      | invalid | null | num | str | arr | obj => cases h
    · rintro rfl
      rfl

namespace PathEffects

/-- Whether a property is true. -/
def flag (e : PathEffects) : Flag → Bool
  | .drop => e.drop
  | .block => e.block
  | .copy => e.copy
  | .probabilistic => e.probabilistic

/-- The value of a property. -/
def value (e : PathEffects) : (p : Property) → p.Value
  | .set a => e.fieldsOf a
  | .flag f => e.flag f

/-- The effects with another value of a property. -/
def put (e : PathEffects) : (p : Property) → p.Value → PathEffects
  | .set .read => fun s ↦ { e with read := s }
  | .set .write => fun s ↦ { e with write := s }
  | .set .record => fun s ↦ { e with record := s }
  | .flag .drop => fun b ↦ { e with drop := b }
  | .flag .block => fun b ↦ { e with block := b }
  | .flag .copy => fun b ↦ { e with copy := b }
  | .flag .probabilistic => fun b ↦ { e with probabilistic := b }

theorem value_put_self (e : PathEffects) (p : Property) (x : p.Value) :
    (e.put p x).value p = x := by
  rcases p with (_ | _ | _) | (_ | _ | _ | _) <;> rfl

theorem value_put_ne (e : PathEffects) {p q : Property} (h : q ≠ p) (x : p.Value) :
    (e.put p x).value q = e.value q := by
  rcases p with (_ | _ | _) | (_ | _ | _ | _) <;>
    rcases q with (_ | _ | _) | (_ | _ | _ | _) <;> first | rfl | exact absurd rfl h

theorem ext_value {a b : PathEffects} (h : ∀ p, a.value p = b.value p) : a = b := by
  obtain ⟨read, write, record, drop, block, copy, probabilistic⟩ := a
  have reads : read = b.read := h (.set .read)
  have writes : write = b.write := h (.set .write)
  have records : record = b.record := h (.set .record)
  have drops : drop = b.drop := h (.flag .drop)
  have blocks : block = b.block := h (.flag .block)
  have copies : copy = b.copy := h (.flag .copy)
  have draws : probabilistic = b.probabilistic := h (.flag .probabilistic)
  subst reads writes records drops blocks copies draws
  rfl

/-- The effects that have given values. -/
def ofValues (x : (p : Property) → p.Value) : PathEffects :=
  ⟨x (.set .read), x (.set .write), x (.set .record), x (.flag .drop), x (.flag .block),
    x (.flag .copy), x (.flag .probabilistic)⟩

theorem value_ofValues (x : (p : Property) → p.Value) (p : Property) :
    (ofValues x).value p = x p := by
  rcases p with (_ | _ | _) | (_ | _ | _ | _) <;> rfl

end PathEffects

/-! ### Reading a section -/

namespace Property

/-- The properties in the order in which they are listed. -/
def all : List Property :=
  [.set .read, .set .write, .set .record, .flag .drop, .flag .block, .flag .copy,
    .flag .probabilistic]

/-- The steps that read the effects on one kind of traffic. -/
def steps : List (String × Decode.FieldStep Json PathEffects) :=
  all.map fun p ↦ (p.name, Decode.into p.read fun e x ↦ e.put p x)

theorem lookup_steps (p : Property) :
    steps.lookup p.name = some (Decode.into p.read fun e x ↦ e.put p x) := by
  rcases p with (_ | _ | _) | (_ | _ | _ | _) <;> rfl

theorem lookup_steps_eq_none {key : String} (h : ∀ p : Property, p.name ≠ key) :
    steps.lookup key = none := by
  rw [List.lookup_eq_none_iff]
  intro step hs
  obtain ⟨p, -, rfl⟩ := List.mem_map.mp hs
  simpa using (h p).symm

/-- The value of a property that is read over other effects, which keep theirs if none is
written. -/
def readOver (p : Property) (e : PathEffects) : Option Json → Except DecodeError p.Value
  | none => .ok (e.value p)
  | some v => p.read v

section

variable {p q : Property} {e e' : PathEffects} {x : q.Value} {v : Json} {key : String}
  {rest fields : Properties.Section} {seen : List String}

theorem foldFields_known (unseen : q.name ∉ seen) :
    Decode.foldFields .ignored steps seen e ((q.name, v) :: rest) =
      q.read v >>= fun x ↦ Decode.foldFields .ignored steps (q.name :: seen) (e.put q x) rest := by
  have first : ¬ seen.contains q.name = true := by simpa using unseen
  simp only [Decode.foldFields, lookup_steps, if_neg first, Decode.into]
  cases q.read v <;> rfl

theorem foldFields_stranger (h : ∀ p : Property, p.name ≠ key) :
    Decode.foldFields .ignored steps seen e ((key, v) :: rest) =
      Decode.foldFields .ignored steps seen e rest := by
  simp only [Decode.foldFields, lookup_steps_eq_none h]

/-- A value that is put in is the one that is read, and hinders no other property. -/
theorem readOver_put (single : q.name ∉ rest.map Prod.fst) (read : q.read v = .ok x) :
    p.readOver (e.put q x) (rest.lookup p.name) =
      p.readOver e (((q.name, v) :: rest).lookup p.name) := by
  rw [Json.lookup_cons_eq]
  by_cases hp : p = q
  · subst hp
    rw [Json.lookup_eq_none_of_notMem single, if_pos rfl, readOver, readOver, read,
      PathEffects.value_put_self]
  · have apart : p.name ≠ q.name := fun he ↦ hp (name_injective he)
    rw [if_neg apart]
    cases rest.lookup p.name with
    | none => rw [readOver, readOver, PathEffects.value_put_ne e hp]
    | some w => rfl

/-- The fields of a record write effects property by property: what is left to read is read over
what has been put in so far. -/
theorem foldFields_eq_ok_iff (distinct : (fields.map Prod.fst).Nodup)
    (fresh : ∀ f ∈ fields, f.1 ∉ seen) :
    Decode.foldFields .ignored steps seen e fields = .ok e' ↔
      ∀ p : Property, p.readOver e (fields.lookup p.name) = .ok (e'.value p) := by
  induction fields generalizing seen e with
  | nil =>
    constructor
    · intro h p
      cases h
      rfl
    · exact fun h ↦ congrArg Except.ok (PathEffects.ext_value fun p ↦ Except.ok.inj (h p))
  | cons field rest ih =>
    obtain ⟨key, v⟩ := field
    obtain ⟨single, distinct_rest⟩ := List.nodup_cons.mp distinct
    have others : ∀ f ∈ rest, f.1 ∉ seen := fun f hf ↦ fresh f (.tail _ hf)
    by_cases known : ∃ q : Property, q.name = key
    · obtain ⟨q, rfl⟩ := known
      rw [foldFields_known (fresh _ (.head _))]
      cases read : q.read v with
      | error cause =>
        refine iff_of_false (by simp [bind, Except.bind]) fun h ↦ ?_
        have own := h q
        rw [List.lookup_cons_self, readOver, read] at own
        cases own
      | ok x =>
        have later := Decode.unseen_cons single others
        simp only [bind, Except.bind, ih distinct_rest later, readOver_put single read]
    · have stranger : ∀ p : Property, p.name ≠ key := fun p he ↦ known ⟨p, he⟩
      rw [foldFields_stranger stranger, ih distinct_rest others]
      refine forall_congr' fun p ↦ ?_
      rw [Json.lookup_cons_eq, if_neg (stranger p)]

end

end Property

theorem Decode.readRecord_obj {β : Type} {strangers : Strangers}
    (steps : List (String × FieldStep Json β)) (start : β) (fields : List (String × Json)) :
    readRecord strangers 0 steps start (Json.obj fields) =
      foldFields strangers steps [] start fields := by
  simp only [readRecord, Document.fields?]
  cases foldFields strangers steps [] start fields <;> rfl

/-- A section writes effects property by property. -/
theorem PathEffects.decode_obj_eq_ok_iff {fields : Properties.Section}
    (distinct : (fields.map Prod.fst).Nodup) {e : PathEffects} :
    PathEffects.decode (Json.obj fields) = .ok e ↔
      ∀ p : Property, p.readOver .none (fields.lookup p.name) = .ok (e.value p) := by
  have steps : (PathEffects.decode : Json → Except DecodeError PathEffects) =
      Decode.readRecord .ignored 0 Property.steps .none := rfl
  rw [steps, Decode.readRecord_obj, Property.foldFields_eq_ok_iff distinct (by simp)]

namespace Properties

/-- Both sections write the effects on their kind of traffic. -/
theorem decode_ofSections_eq_ok_iff {sections : Section × Section} {e : Effects} :
    Effects.decode (ofSections sections) = .ok e ↔
      ∀ t, PathEffects.decode (Json.obj (sectionOn sections t)) = .ok (e.on t) := by
  have both : Effects.decode (ofSections sections) = do
      let request ← PathEffects.decode (Json.obj sections.1)
      let response ← PathEffects.decode (Json.obj sections.2)
      return ⟨request, response⟩ := by
    rw [Effects.decode, ofSections, Decode.readRecord_obj]
    have step (t : Traffic) : Effects.steps.lookup (Spelled.name t) =
        some (Decode.into (PathEffects.decode (α := Json)) fun e x ↦ e.mapOn t fun _ ↦ x) := by
      cases t <;> rfl
    simp only [Decode.foldFields, step, Decode.into]
    cases PathEffects.decode (Json.obj sections.1) with
    | error => rfl
    | ok => cases PathEffects.decode (Json.obj sections.2) <;> rfl
  rw [both]
  constructor
  · intro h
    obtain ⟨request, hreq, h⟩ := exists_of_bind_eq_ok h
    obtain ⟨response, hresp, h⟩ := exists_of_bind_eq_ok h
    cases h
    intro t
    cases t with
    | request => exact hreq
    | response => exact hresp
  · intro h
    have request : PathEffects.decode (Json.obj sections.1) = .ok e.request := h .request
    have response : PathEffects.decode (Json.obj sections.2) = .ok e.response := h .response
    rw [request, response]
    rfl

variable {files : Files} {directory : String} {names : List String}

/-- Elements have effects together if their files have their sections, and the values that these
mention of each property write one of its kind. -/
theorem load_eq_ok_iff {e : Effects} :
    load files directory names = .ok e ↔
      (∀ name ∈ names, ∃ part, sectionsOf files directory name = .ok part) ∧
        ∀ t, ∀ p : Property, p.readOver .none (joinValues (mentions files directory t p.name names)) =
          .ok ((e.on t).value p) := by
  have written {merged : Section × Section}
      (h : mergeAll files directory names ([], []) = .ok merged) :
      Effects.decode (ofSections merged) = .ok e ↔ ∀ t, ∀ p : Property,
        p.readOver .none (joinValues (mentions files directory t p.name names)) =
          .ok ((e.on t).value p) := by
    rw [decode_ofSections_eq_ok_iff]
    refine forall_congr' fun t ↦ ?_
    rw [PathEffects.decode_obj_eq_ok_iff (keysAscend_of_mergeAll h t).nodup]
    simp only [lookup_of_mergeAll h]
  constructor
  · intro h
    obtain ⟨merged, hm, h⟩ := exists_of_bind_eq_ok h
    refine ⟨(mergeAll_eq_ok_iff.mp hm).1, (written hm).mp ?_⟩
    split at h
    · next decoded =>
      cases h
      exact decoded
    · cases h
  · rintro ⟨each, values⟩
    obtain ⟨merged, hm⟩ : ∃ merged, mergeAll files directory names ([], []) = .ok merged :=
      ⟨_, mergeAll_eq_ok_iff.mpr ⟨each, rfl⟩⟩
    rw [load, hm]
    simp only [bind, Except.bind, (written hm).mpr values]
    rfl

/-- Elements have effects together exactly if each of their properties has a value. -/
theorem exists_load_iff :
    (∃ e, load files directory names = .ok e) ↔
      (∀ name ∈ names, ∃ part, sectionsOf files directory name = .ok part) ∧
        ∀ t, ∀ p : Property, ∃ x,
          p.readOver .none (joinValues (mentions files directory t p.name names)) = .ok x := by
  constructor
  · rintro ⟨e, h⟩
    obtain ⟨each, values⟩ := load_eq_ok_iff.mp h
    exact ⟨each, fun t p ↦ ⟨_, values t p⟩⟩
  · rintro ⟨each, values⟩
    choose x hx using values
    refine ⟨⟨.ofValues (x .request), .ofValues (x .response)⟩,
      load_eq_ok_iff.mpr ⟨each, fun t p ↦ ?_⟩⟩
    cases t with
    | request => exact (hx .request p).trans (congrArg _ (PathEffects.value_ofValues _ p).symm)
    | response => exact (hx .response p).trans (congrArg _ (PathEffects.value_ofValues _ p).symm)

/-- An element has effects alone if its file has its sections, and what these mention of each
property is of its kind. -/
theorem load_singleton_eq_ok_iff {name : String} {e : Effects} :
    load files directory [name] = .ok e ↔
      (∃ part, sectionsOf files directory name = .ok part) ∧
        ∀ t, ∀ p : Property, p.readOver .none (mention? files directory t p.name name) =
          .ok ((e.on t).value p) := by
  have single (t : Traffic) (p : Property) :
      joinValues (mentions files directory t p.name [name]) =
        mention? files directory t p.name name := by
    rw [mentions, List.filterMap_cons]
    cases mention? files directory t p.name name <;> rfl
  simp only [load_eq_ok_iff, List.forall_mem_singleton, single]

end Properties

end ChainPlan
