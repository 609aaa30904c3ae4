/-! # Fields and field sets

A field is a named piece of a message, or one of the three trace fields in which the dropping,
blocking and copying of messages is noted. A field set is a list of fields in insertion order, or
the wildcard, which stands for every field that the chain knows. Files written by hand may list a
field twice; `firstRepeated?` finds the field that does so first.
-/

namespace ChainPlan

/-- A named piece of a message. -/
abbrev Field := String

namespace Field

/-- The field that every dropping element writes. -/
def dropTrace : Field := "droptrace"

/-- The field that every blocking element writes. -/
def blockTrace : Field := "blocktrace"

/-- The field that every copying element writes. -/
def copyTrace : Field := "copytrace"

/-- The trace fields, in the order in which tables list them. -/
def traces : List Field := [dropTrace, blockTrace, copyTrace]

end Field

/-- The list with a member added at its end, unless it is there already. -/
def addNew {α : Type} [DecidableEq α] (xs : List α) (x : α) : List α :=
  if x ∈ xs then xs else xs ++ [x]

theorem mem_addNew {α : Type} [DecidableEq α] {xs : List α} {x y : α} :
    y ∈ addNew xs x ↔ y ∈ xs ∨ y = x := by
  unfold addNew
  split
  · constructor
    · exact Or.inl
    · rintro (h | rfl) <;> assumption
  · simp

theorem nodup_addNew {α : Type} [DecidableEq α] {xs : List α} (x : α) (h : xs.Nodup) :
    (addNew xs x).Nodup := by
  unfold addNew
  split
  · exact h
  · rename_i hx
    rw [List.nodup_append]
    refine ⟨h, by simp, ?_⟩
    intro a ha b hb
    simp only [List.mem_singleton] at hb
    subst hb
    rintro rfl
    exact hx ha

/-- The first member of a list that has stood in it, or in `seen`, before. -/
def firstRepeat? {α : Type} [DecidableEq α] (seen : List α) : List α → Option α
  | [] => none
  | x :: xs => if x ∈ seen then some x else firstRepeat? (x :: seen) xs

/-- A set of fields in insertion order, or every field that the chain knows. -/
inductive FieldSet where
  /-- Every known field. -/
  | all
  /-- The fields listed. -/
  | only (fields : List Field)
  deriving DecidableEq, Repr

namespace FieldSet

/-- The set without fields. -/
def empty : FieldSet := .only []

instance : Inhabited FieldSet := ⟨empty⟩

/-- Whether the set is the wildcard. -/
def isAll : FieldSet → Bool
  | .all => true
  | .only _ => false

/-- The fields that the set lists; the wildcard lists none. -/
def fields : FieldSet → List Field
  | .all => []
  | .only fs => fs

/-- Whether the set lists no field and is not the wildcard. -/
def isEmpty : FieldSet → Bool
  | .all => false
  | .only fs => fs.isEmpty

/-- Whether a field is in the set; the wildcard has every field. -/
def contains (s : FieldSet) (f : Field) : Bool := s.isAll || s.fields.contains f

/-- The set with a field added at the end, unless it is there already. -/
def insert : FieldSet → Field → FieldSet
  | .all, _ => .all
  | .only fs, f => .only (addNew fs f)

/-- The set with the fields of another added one by one; the wildcard absorbs. -/
def union (s : FieldSet) : FieldSet → FieldSet
  | .all => .all
  | .only fs => fs.foldl insert s

/-- The set of the fields of a list, each once, in the order of their first places. -/
def ofFields (fs : List Field) : FieldSet := fs.foldl insert empty

/-- The fields that the set stands for in a chain that knows the fields `known`. -/
def expand (s : FieldSet) (known : List Field) : List Field :=
  match s with
  | .all => known
  | .only fs => fs

/-- The first field that the set lists for a second time. -/
def firstRepeated? (s : FieldSet) : Option Field := firstRepeat? [] s.fields

/-- An insertion adds its field and no other. -/
theorem contains_insert (s : FieldSet) (f g : Field) :
    (s.insert f).contains g = true ↔ s.contains g = true ∨ g = f := by
  cases s with
  | all => simp [insert, contains, isAll]
  | only fs => simp [insert, contains, isAll, fields, mem_addNew]

/-- The wildcard stays the wildcard, and no field makes a list the wildcard. -/
@[simp] theorem isAll_insert (s : FieldSet) (f : Field) : (s.insert f).isAll = s.isAll := by
  cases s <;> rfl

end FieldSet

end ChainPlan
