/-! # Maps in first-write order

A finite map that lists its keys in the order in which they were first written: a key written
again takes the new value and keeps its place. `find?` is the view through which the operations
are specified. Two maps are compared by their views, so order does not count: `sameEntries`.
-/

namespace ChainPlan

/-- A finite map with its keys in first-write order. -/
structure OrderedMap (κ ν : Type) where
  /-- The keys with their values. -/
  entries : List (κ × ν)
  deriving DecidableEq, Repr

namespace OrderedMap

variable {κ ν : Type} [DecidableEq κ]

/-- The map without entries. -/
def empty : OrderedMap κ ν := ⟨[]⟩

/-- The keys, in first-write order. -/
def keys (m : OrderedMap κ ν) : List κ := m.entries.map Prod.fst

/-- The values, in the order of their keys. -/
def values (m : OrderedMap κ ν) : List ν := m.entries.map Prod.snd

/-- The value that a list of entries has for a key: that of the first entry with the key. -/
def valueIn? (k : κ) : List (κ × ν) → Option ν
  | [] => none
  | (k', v) :: rest => if k = k' then some v else valueIn? k rest

/-- The value of a key. -/
def find? (m : OrderedMap κ ν) (k : κ) : Option ν := valueIn? k m.entries

/-- The entries after a write: in place if the key is there, else at the end. -/
def insertEntry (k : κ) (v : ν) : List (κ × ν) → List (κ × ν)
  | [] => [(k, v)]
  | (k', v') :: rest => if k = k' then (k', v) :: rest else (k', v') :: insertEntry k v rest

/-- The map after a write. -/
def insert (m : OrderedMap κ ν) (k : κ) (v : ν) : OrderedMap κ ν := ⟨insertEntry k v m.entries⟩

/-- The map with the value of a key changed, if the key is there. -/
def modify (m : OrderedMap κ ν) (k : κ) (f : ν → ν) : OrderedMap κ ν :=
  ⟨m.entries.map fun e ↦ if e.1 = k then (e.1, f e.2) else e⟩

/-- The map that gives each of the keys the value of a function, in the order of the keys. -/
def ofKeys (ks : List κ) (f : κ → ν) : OrderedMap κ ν := ⟨ks.map fun k ↦ (k, f k)⟩

/-- Whether two maps have the same entries, in whatever order. -/
def sameEntries [DecidableEq ν] (m n : OrderedMap κ ν) : Bool :=
  m.entries.length == n.entries.length && m.entries.all fun e ↦ n.find? e.1 = some e.2

@[simp] theorem find?_empty (k : κ) : (empty : OrderedMap κ ν).find? k = none := rfl

private theorem valueIn?_insertEntry (k a : κ) (v : ν) (es : List (κ × ν)) :
    valueIn? a (insertEntry k v es) = if a = k then some v else valueIn? a es := by
  induction es with
  | nil => simp [insertEntry, valueIn?]
  | cons e rest ih =>
    obtain ⟨k', v'⟩ := e
    by_cases hk : k = k'
    · subst hk
      by_cases h : a = k <;> simp [insertEntry, valueIn?, h]
    · by_cases h : a = k'
      · subst h
        simp [insertEntry, valueIn?, hk, Ne.symm hk]
      · simp [insertEntry, valueIn?, hk, h, ih]

/-- A write sets the value of its key and of no other. -/
theorem find?_insert (m : OrderedMap κ ν) (k a : κ) (v : ν) :
    (m.insert k v).find? a = if a = k then some v else m.find? a :=
  valueIn?_insertEntry k a v m.entries

/-- A change in place sets the value of its key and of no other. -/
theorem find?_modify (m : OrderedMap κ ν) (k a : κ) (f : ν → ν) :
    (m.modify k f).find? a = if a = k then (m.find? a).map f else m.find? a := by
  obtain ⟨es⟩ := m
  simp only [find?, modify]
  induction es with
  | nil => simp [valueIn?]
  | cons e rest ih =>
    obtain ⟨k', v'⟩ := e
    by_cases hk : k' = k
    · subst hk
      by_cases h : a = k'
      · subst h; simp [valueIn?]
      · simpa [valueIn?, h] using ih
    · by_cases h : a = k'
      · subst h; simp [valueIn?, hk]
      · simpa [valueIn?, h, hk] using ih

/-- A change in place keeps the keys and their order. -/
theorem keys_modify (m : OrderedMap κ ν) (k : κ) (f : ν → ν) : (m.modify k f).keys = m.keys := by
  obtain ⟨es⟩ := m
  simp only [keys, modify, List.map_map]
  refine List.map_congr_left fun e _ ↦ ?_
  by_cases h : e.1 = k <;> simp [h]

private theorem mem_insertEntry_keys (k a : κ) (v : ν) (es : List (κ × ν)) :
    a ∈ (insertEntry k v es).map Prod.fst ↔ a = k ∨ a ∈ es.map Prod.fst := by
  induction es with
  | nil => simp [insertEntry]
  | cons e rest ih =>
    obtain ⟨k', v'⟩ := e
    by_cases hk : k = k'
    · subst hk
      simp [insertEntry]
    · simp only [insertEntry, if_neg hk, List.map_cons, List.mem_cons, ih]
      exact or_left_comm

/-- A write keeps the keys distinct. -/
theorem nodup_keys_insert {m : OrderedMap κ ν} (k : κ) (v : ν) (h : m.keys.Nodup) :
    (m.insert k v).keys.Nodup := by
  obtain ⟨es⟩ := m
  simp only [keys, insert] at h ⊢
  induction es with
  | nil => simp [insertEntry]
  | cons e rest ih =>
    obtain ⟨k', v'⟩ := e
    simp only [List.map_cons, List.nodup_cons] at h
    by_cases hk : k = k'
    · subst hk
      simpa [insertEntry] using h
    · simp only [insertEntry, if_neg hk, List.map_cons, List.nodup_cons, mem_insertEntry_keys]
      exact ⟨fun hm ↦ hm.elim (fun he ↦ hk he.symm) h.1, ih h.2⟩

private theorem length_insertEntry (k : κ) (v : ν) (es : List (κ × ν)) :
    (insertEntry k v es).length =
      if (valueIn? k es).isSome then es.length else es.length + 1 := by
  induction es with
  | nil => simp [insertEntry, valueIn?]
  | cons e rest ih =>
    obtain ⟨k', v'⟩ := e
    by_cases hk : k = k'
    · simp [insertEntry, valueIn?, hk]
    · by_cases hv : (valueIn? k rest).isSome = true
      · simp [insertEntry, valueIn?, hk, ih, hv]
      · simp [insertEntry, valueIn?, hk, ih, hv]

/-- A write adds an entry if its key is new. -/
theorem length_insert (m : OrderedMap κ ν) (k : κ) (v : ν) :
    (m.insert k v).entries.length =
      if (m.find? k).isSome then m.entries.length else m.entries.length + 1 :=
  length_insertEntry k v m.entries

/-- If the keys are distinct, the entries are the keys with their values. -/
theorem mem_entries_iff {m : OrderedMap κ ν} (h : m.keys.Nodup) (k : κ) (v : ν) :
    (k, v) ∈ m.entries ↔ m.find? k = some v := by
  obtain ⟨es⟩ := m
  simp only [keys, find?] at h ⊢
  induction es with
  | nil => simp [valueIn?]
  | cons e rest ih =>
    obtain ⟨k', v'⟩ := e
    simp only [List.map_cons, List.nodup_cons] at h
    by_cases hk : k = k'
    · subst hk
      have hm : (k, v) ∉ rest := fun hm ↦ h.1 (List.mem_map_of_mem hm)
      simp [valueIn?, hm, eq_comm]
    · simp [valueIn?, hk, ih h.2]

omit [DecidableEq κ] in
/-- A map built on keys has these keys, in their order. -/
@[simp] theorem keys_ofKeys (ks : List κ) (f : κ → ν) : (ofKeys ks f).keys = ks := by
  simp [keys, ofKeys, Function.comp_def]

/-- A map built on keys has the values of its function on them. -/
theorem find?_ofKeys (ks : List κ) (f : κ → ν) (k : κ) :
    (ofKeys ks f).find? k = if k ∈ ks then some (f k) else none := by
  simp only [find?, ofKeys]
  induction ks with
  | nil => simp [valueIn?]
  | cons k' rest ih =>
    by_cases h : k = k'
    · simp [valueIn?, h]
    · simp [valueIn?, h, ih]

end OrderedMap

end ChainPlan
