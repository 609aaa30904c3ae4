import ChainPlan.FieldSet
import Std.Data.HashSet

/-! # Repetitions in long lists

Whether a member has stood in a list before is asked of a hash set here, so that long lists take no
more time for each member than short ones. The answers are those of `firstRepeat?` and `addNew`.
-/

namespace ChainPlan

variable {α : Type} [DecidableEq α] [Hashable α]

/-- The first member of a list that has stood in it, or in `seen`, before. -/
def firstRepeatIn? (seen : Std.HashSet α) : List α → Option α
  | [] => none
  | x :: xs => if x ∈ seen then some x else firstRepeatIn? (seen.insert x) xs

/-- The members of a list that have not stood in it, or in `seen`, before. -/
def distinctFrom (seen : Std.HashSet α) : List α → List α
  | [] => []
  | x :: xs => if x ∈ seen then distinctFrom seen xs else x :: distinctFrom (seen.insert x) xs

/-- The longest list whose members are compared one by one rather than hashed. -/
def shortLength : Nat := 12

/-- The first member of a list that has stood in it before. -/
def firstRepeatOf? (xs : List α) : Option α :=
  if xs.length ≤ shortLength then firstRepeat? [] xs else firstRepeatIn? ∅ xs

/-- A set with the members that stood before gives the repetition that their list gives. -/
theorem firstRepeatIn?_eq (seen : Std.HashSet α) (before xs : List α)
    (h : ∀ x, x ∈ seen ↔ x ∈ before) : firstRepeatIn? seen xs = firstRepeat? before xs := by
  induction xs generalizing seen before with
  | nil => rfl
  | cons x xs ih =>
    simp only [firstRepeatIn?, firstRepeat?, h]
    split
    · rfl
    · exact ih _ _ fun y ↦ by
        rw [Std.HashSet.mem_insert, h, List.mem_cons, beq_iff_eq, eq_comm]

/-- Hashing makes no difference to the first repetition. -/
theorem firstRepeatOf?_eq (xs : List α) : firstRepeatOf? xs = firstRepeat? [] xs := by
  unfold firstRepeatOf?
  split
  · rfl
  · exact firstRepeatIn?_eq ∅ [] xs (by simp)

/-- The new members of a list are those that one by one are added to what stood before. -/
theorem append_distinctFrom (seen : Std.HashSet α) (before xs : List α)
    (h : ∀ x, x ∈ seen ↔ x ∈ before) : before ++ distinctFrom seen xs = xs.foldl addNew before := by
  induction xs generalizing seen before with
  | nil => simp [distinctFrom]
  | cons x xs ih =>
    simp only [distinctFrom, List.foldl_cons, addNew, h]
    split
    · exact ih _ _ h
    · rw [← ih (seen.insert x) (before ++ [x]), List.append_assoc, List.singleton_append]
      intro y
      rw [Std.HashSet.mem_insert, h, List.mem_append, List.mem_singleton, beq_iff_eq, or_comm,
        eq_comm]

end ChainPlan
