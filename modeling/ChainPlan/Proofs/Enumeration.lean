import ChainPlan.Orders
import Mathlib.Data.List.Permutation
import Mathlib.Data.Nat.Factorial.Basic

/-! # The enumeration of orders

The enumeration lists the permutations of a list and nothing else, each once for every way to take
the positions, and in the lexicographic order of the positions.
-/

namespace ChainPlan

section

variable {α β : Type}

/-- A pick splits a list around one member. -/
theorem mem_picks_iff {xs : List α} {x : α} {rest : List α} :
    (x, rest) ∈ picks xs ↔ ∃ front back, xs = front ++ x :: back ∧ rest = front ++ back := by
  induction xs generalizing rest with
  | nil => simp [picks]
  | cons y ys ih =>
    simp only [picks, List.mem_cons, Prod.mk.injEq, List.mem_map, Prod.exists]
    constructor
    · rintro (⟨rfl, rfl⟩ | ⟨z, others, hm, rfl, rfl⟩)
      · exact ⟨[], rest, rfl, rfl⟩
      · obtain ⟨front, back, rfl, rfl⟩ := ih.mp hm
        exact ⟨y :: front, back, rfl, rfl⟩
    · rintro ⟨front, back, hs, rfl⟩
      cases front with
      | nil =>
        obtain ⟨rfl, rfl⟩ := List.cons.inj hs
        exact .inl ⟨rfl, rfl⟩
      | cons z front =>
        obtain ⟨rfl, rfl⟩ := List.cons.inj hs
        exact .inr ⟨x, front ++ back, ih.mpr ⟨front, back, rfl, rfl⟩, rfl, rfl⟩

/-- The orders of a list are its permutations. -/
theorem mem_orders_iff {xs ys : List α} : ys ∈ orders xs ↔ xs.Perm ys := by
  rw [orders]
  generalize hn : xs.length = n
  induction n generalizing xs ys with
  | zero =>
    rw [List.length_eq_zero_iff.mp hn]
    simp [arrangements]
  | succ n ih =>
    simp only [arrangements, List.mem_flatMap, List.mem_map, Prod.exists]
    constructor
    · rintro ⟨x, rest, hp, zs, hz, rfl⟩
      have hl : rest.length = n := Nat.succ.inj ((length_of_mem_picks hp).trans hn)
      obtain ⟨front, back, rfl, rfl⟩ := mem_picks_iff.mp hp
      exact List.perm_middle.trans (((ih hl).mp hz).cons x)
    · intro h
      cases ys with
      | nil => simp [h.eq_nil] at hn
      | cons y ys =>
        obtain ⟨front, back, rfl⟩ := List.append_of_mem (h.mem_iff.mpr List.mem_cons_self)
        have hl : (front ++ back).length = n := by
          simp only [List.length_append, List.length_cons] at hn ⊢
          omega
        have hr : (front ++ back).Perm ys := (List.perm_middle.symm.trans h).cons_inv
        exact ⟨y, front ++ back, mem_picks_iff.mpr ⟨front, back, rfl, rfl⟩, ys,
          (ih hl).mpr hr, rfl⟩

/-- The members are picked in their order. -/
theorem map_fst_picks (xs : List α) : (picks xs).map Prod.fst = xs := by
  induction xs with
  | nil => rfl
  | cons x xs ih => simpa [picks, Function.comp_def] using ih

theorem picks_map (g : α → β) (xs : List α) :
    picks (xs.map g) = (picks xs).map fun p ↦ (g p.1, p.2.map g) := by
  induction xs with
  | nil => rfl
  | cons x xs ih => simp [picks, ih]

private theorem arrangements_map (g : α → β) (n : Nat) (xs : List α) :
    arrangements n (xs.map g) = (arrangements n xs).map (List.map g) := by
  induction n generalizing xs with
  | zero => rfl
  | succ n ih =>
    simp [arrangements, picks_map, ih, List.flatMap_map, List.map_flatMap, Function.comp_def]

/-- To order images is to take the images of the orders. -/
theorem orders_map (g : α → β) (xs : List α) :
    orders (xs.map g) = (orders xs).map (List.map g) := by
  rw [orders, List.length_map, arrangements_map, orders]

/-- There are as many orders as the factorial of the length says. -/
theorem length_orders (xs : List α) : (orders xs).length = xs.length.factorial := by
  rw [orders]
  generalize hn : xs.length = n
  induction n generalizing xs with
  | zero => rfl
  | succ n ih =>
    have hp : ∀ p ∈ picks xs,
        ((arrangements n p.2).map (p.1 :: ·)).length = n.factorial := by
      intro p hp
      rw [List.length_map]
      exact ih p.2 (Nat.succ.inj ((length_of_mem_picks hp).trans hn))
    rw [arrangements, List.length_flatMap, List.map_congr_left hp, List.map_const',
      List.sum_replicate_nat, length_picks, hn, Nat.factorial_succ]

/-- The orders of a sorted list are listed in lexicographic order. -/
theorem pairwise_orders {r : α → α → Prop} {xs : List α} (h : xs.Pairwise r) :
    (orders xs).Pairwise (List.Lex r) := by
  rw [orders]
  generalize xs.length = n
  induction n generalizing xs with
  | zero => simp [arrangements]
  | succ n ih =>
    rw [arrangements, List.pairwise_flatMap]
    constructor
    · rintro ⟨x, rest⟩ hp
      -- the same first member, and the others in the order of the rest
      obtain ⟨front, back, rfl, rfl⟩ := mem_picks_iff.mp hp
      have hs : (front ++ back).Sublist (front ++ x :: back) :=
        (List.sublist_cons_self x back).append_left front
      exact List.pairwise_map.mpr ((ih (h.sublist hs)).imp List.Lex.cons)
    · -- different first members, in the order of the list
      have hf : (picks xs).Pairwise fun p q ↦ r p.1 q.1 := by
        rw [← List.pairwise_map (f := Prod.fst), map_fst_picks]
        exact h
      refine hf.imp fun {p q} hr ys hy zs hz ↦ ?_
      obtain ⟨ys, -, rfl⟩ := List.mem_map.mp hy
      obtain ⟨zs, -, rfl⟩ := List.mem_map.mp hz
      exact .rel hr

/-- The members of a list at some positions, in the order of the positions. -/
def atIndices (xs : List α) (indices : List Nat) : List α := indices.filterMap fun i ↦ xs[i]?

/-- To order a list is to order its positions. -/
theorem orders_eq_map_atIndices (xs : List α) :
    orders xs = (orders (List.range xs.length)).map (atIndices xs) := by
  have hx : xs.map some = (List.range xs.length).map fun i ↦ xs[i]? := by
    apply List.ext_getElem
    · simp
    · intro i hi hj
      simp
  have hm := congrArg (List.map (List.filterMap id)) (congrArg orders hx)
  rw [orders_map, orders_map, List.map_map, List.map_map] at hm
  have hi : (List.filterMap id ∘ List.map fun i ↦ xs[i]?) = atIndices xs := by
    funext indices
    simp [atIndices, List.filterMap_map]
  rw [hi] at hm
  simpa [Function.comp_def] using hm

/-- Every order of the positions of a list gives an order of the list. -/
theorem perm_atIndices {xs : List α} {indices : List Nat}
    (h : (List.range xs.length).Perm indices) : xs.Perm (atIndices xs indices) := by
  rw [← mem_orders_iff, orders_eq_map_atIndices]
  exact List.mem_map_of_mem (mem_orders_iff.mpr h)

/-- Every order of a list is its order at some order of its positions. -/
theorem exists_atIndices_of_perm {xs ys : List α} (h : xs.Perm ys) :
    ∃ indices, (List.range xs.length).Perm indices ∧ atIndices xs indices = ys := by
  rw [← mem_orders_iff, orders_eq_map_atIndices, List.mem_map] at h
  obtain ⟨indices, hm, he⟩ := h
  exact ⟨indices, mem_orders_iff.mp hm, he⟩

/-- The orders of the first positions are listed as words in a dictionary. -/
theorem pairwise_orders_range (n : Nat) : (orders (List.range n)).Pairwise (· < ·) :=
  pairwise_orders List.pairwise_lt_range

/-- Each order of the first positions is listed once. -/
theorem orders_range_perm (n : Nat) :
    (orders (List.range n)).Perm (List.range n).permutations := by
  have hd : (orders (List.range n)).Nodup := by
    refine List.nodup_iff_pairwise_ne.mpr ((pairwise_orders_range n).imp fun {a b} h he ↦ ?_)
    exact List.lt_irrefl a (he ▸ h)
  refine (List.perm_ext_iff_of_nodup hd (List.nodup_permutations _ List.nodup_range)).mpr
    fun indices ↦ ?_
  rw [mem_orders_iff, List.mem_permutations, List.perm_comm]

end

end ChainPlan
