/-! # Orders of a list

All orders of a list, in the lexicographic order of the positions that they take the members from.
A long search folds over them one by one: `foldOrders` never holds more than one of them.
-/

namespace ChainPlan

variable {α : Type}

/-- Each member of a list together with the other members, in order. -/
def picks : List α → List (α × List α)
  | [] => []
  | x :: xs => (x, xs) :: (picks xs).map fun p ↦ (p.1, x :: p.2)

/-- The ways to take the given number of members one after the other. -/
def arrangements : Nat → List α → List (List α)
  | 0, _ => [[]]
  | n + 1, xs => (picks xs).flatMap fun p ↦ (arrangements n p.2).map (p.1 :: ·)

/-- Every order of a list. -/
def orders (xs : List α) : List (List α) := arrangements xs.length xs

/-- The fold over the lists that begin with some members, taken in reverse order, and go on with the
given number of others. -/
@[specialize] def foldArrangements {σ : Type} {m : Type → Type} [Monad m] (f : σ → List α → m σ) :
    Nat → (taken : List α) → (left : List α) → σ → m σ
  | 0, taken, _, s => f s taken.reverse
  | n + 1, taken, left, s =>
    (picks left).foldlM (fun s p ↦ foldArrangements f n (p.1 :: taken) p.2 s) s

/-- The fold over every order of a list. -/
@[specialize] def foldOrders {σ : Type} {m : Type → Type} [Monad m] (f : σ → List α → m σ)
    (xs : List α) (s : σ) : m σ :=
  foldArrangements f xs.length [] xs s

/-- There is one pick for each member. -/
@[simp] theorem length_picks (xs : List α) : (picks xs).length = xs.length := by
  induction xs with
  | nil => rfl
  | cons x xs ih => simp [picks, ih]

/-- A pick leaves one member less. -/
theorem length_of_mem_picks {xs : List α} {p : α × List α} (h : p ∈ picks xs) :
    p.2.length + 1 = xs.length := by
  induction xs generalizing p with
  | nil => simp [picks] at h
  | cons x xs ih =>
    simp only [picks, List.mem_cons, List.mem_map] at h
    rcases h with rfl | ⟨q, hq, rfl⟩
    · rfl
    · simp [ih hq]

private theorem foldArrangements_eq {σ : Type} {m : Type → Type} [Monad m] [LawfulMonad m]
    (f : σ → List α → m σ) (n : Nat) (taken left : List α) (s : σ) :
    foldArrangements f n taken left s =
      ((arrangements n left).map (taken.reverse ++ ·)).foldlM f s := by
  induction n generalizing taken left s with
  | zero => simp [foldArrangements, arrangements]
  | succ n ih =>
    rw [foldArrangements, arrangements]
    generalize picks left = choices
    induction choices generalizing s with
    | nil => rfl
    | cons p rest step =>
      rw [List.flatMap_cons, List.map_append, List.foldlM_append, List.foldlM_cons, ih]
      simp only [step, List.map_map, List.reverse_cons, List.append_assoc, List.singleton_append,
        Function.comp_def]

/-- A fold over the orders is a fold over their list. -/
theorem foldOrders_eq {σ : Type} {m : Type → Type} [Monad m] [LawfulMonad m]
    (f : σ → List α → m σ) (xs : List α) (s : σ) :
    foldOrders f xs s = (orders xs).foldlM f s := by
  simp [foldOrders, orders, foldArrangements_eq]

end ChainPlan
