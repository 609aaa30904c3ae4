import Mathlib.Data.List.Nodup
import Mathlib.Data.List.Perm.Subperm

/-! # The order of members of a list

In a list without repetition, `a` stands before `b` if `[a, b]` is a sublist. Orders of one list
that keep the order of related members are shuffles of each other: they differ by swaps of
unrelated neighbours.
-/

namespace ChainPlan

variable {α β : Type} {R : α → α → Prop}

/-- A member of a list without repetition stands behind those in front of it. -/
theorem pair_sublist_iff_mem {before rest : List α} {b : α} (h : (before ++ b :: rest).Nodup)
    (a : α) : [a, b].Sublist (before ++ b :: rest) ↔ a ∈ before := by
  constructor
  · intro hs
    obtain ⟨xs, ys, he, hx, hy⟩ := List.sublist_append_iff.mp hs
    have hb : b ∉ before := fun hb ↦
      (List.nodup_append.mp h).2.2 b hb b List.mem_cons_self rfl
    have hr : b ∉ rest := (List.nodup_cons.mp (List.nodup_append.mp h).2.1).1
    cases xs with
    | nil =>
      rw [List.nil_append] at he
      subst ys
      exact absurd ((List.sublist_cons_iff.mp hy).elim (fun h ↦ h.subset (by simp))
        fun ⟨r, hr, hs⟩ ↦ hs.subset (by simp [(List.cons.inj hr).2.symm])) hr
    | cons x xs =>
      rw [(List.cons.inj he).1]
      exact hx.subset List.mem_cons_self
  · intro ha
    have hs : [a].Sublist before := List.singleton_sublist.mpr ha
    have hr : [b].Sublist (b :: rest) := List.singleton_sublist.mpr List.mem_cons_self
    exact hs.append hr

/-- Two members of a list without repetition do not stand before each other. -/
theorem not_pair_sublist {xs : List α} (hd : xs.Nodup) {a b : α} (h : [a, b].Sublist xs) :
    ¬ [b, a].Sublist xs := by
  intro h'
  obtain ⟨before, rest, rfl⟩ := List.append_of_mem (h.subset (by simp : b ∈ [a, b]))
  have ha := (pair_sublist_iff_mem hd a).mp h
  obtain ⟨front, back, rfl⟩ := List.append_of_mem ha
  have hd' : (front ++ a :: (back ++ b :: rest)).Nodup := by simpa using hd
  have hb := (pair_sublist_iff_mem hd' b).mp (by simpa using h')
  exact (List.nodup_append.mp hd').2.2 b hb b (by simp) rfl

/-- The order of two members is that of their images, if no two members share one. -/
theorem pair_sublist_map_iff {g : α → β} {xs : List α} (hd : (xs.map g).Nodup) {a b : α}
    (ha : a ∈ xs) (hb : b ∈ xs) :
    [g a, g b].Sublist (xs.map g) ↔ [a, b].Sublist xs := by
  constructor
  · intro h
    obtain ⟨ys, hs, he⟩ := List.sublist_map_iff.mp h
    obtain ⟨c, d, rfl⟩ : ∃ c d, ys = [c, d] :=
      List.length_eq_two.mp (by simpa using (congrArg List.length he).symm)
    simp only [List.map_cons, List.map_nil, List.cons.injEq, and_true] at he
    have hc := List.inj_on_of_nodup_map hd ha (hs.subset (by simp)) he.1
    have hd := List.inj_on_of_nodup_map hd hb (hs.subset (by simp)) he.2
    rwa [hc, hd]
  · exact fun h ↦ h.map g

/-- A filter keeps the order of the members that pass it. -/
theorem pair_sublist_filter_iff {p : α → Bool} {xs : List α} {a b : α} (ha : p a = true)
    (hb : p b = true) : [a, b].Sublist (xs.filter p) ↔ [a, b].Sublist xs := by
  constructor
  · exact fun h ↦ h.trans List.filter_sublist
  · intro h
    have := h.filter p
    rwa [List.filter_cons_of_pos ha, List.filter_cons_of_pos hb, List.filter_nil] at this

/-- Two lists of the same members that are both in the order of a third are equal. -/
theorem eq_of_pair_sublist {xs ys zs : List α} (hd : zs.Nodup) (hp : xs.Perm ys)
    (hx : ∀ a b, [a, b].Sublist xs → [a, b].Sublist zs) (hy : ys.Sublist zs) : xs = ys := by
  have hx' : xs.Pairwise fun a b ↦ [a, b].Sublist zs :=
    List.pairwise_iff_forall_sublist.mpr fun h ↦ hx _ _ h
  have hy' : ys.Pairwise fun a b ↦ [a, b].Sublist zs :=
    List.pairwise_iff_forall_sublist.mpr fun h ↦ h.trans hy
  exact List.Perm.eq_of_pairwise
    (fun _ _ _ _ hab hba ↦ absurd hba (not_pair_sublist hd hab)) hx' hy' hp

/-- Related members stand in the same order in both lists. -/
def SameOrder (R : α → α → Prop) (xs ys : List α) : Prop :=
  ∀ a ∈ xs, ∀ b ∈ xs, a ≠ b → R a b → ([a, b].Sublist xs ↔ [a, b].Sublist ys)

/-- The lists differ by swaps of neighbours that are unrelated both ways. -/
inductive Shuffled (R : α → α → Prop) : List α → List α → Prop where
  | nil : Shuffled R [] []
  | cons (a : α) {xs ys : List α} (h : Shuffled R xs ys) : Shuffled R (a :: xs) (a :: ys)
  | swap (a b : α) (xs : List α) (hab : ¬ R a b) (hba : ¬ R b a) :
      Shuffled R (a :: b :: xs) (b :: a :: xs)
  | trans {xs ys zs : List α} (h : Shuffled R xs ys) (h' : Shuffled R ys zs) : Shuffled R xs zs

namespace Shuffled

theorem refl (R : α → α → Prop) (xs : List α) : Shuffled R xs xs := by
  induction xs with
  | nil => exact .nil
  | cons a xs ih => exact .cons a ih

/-- Shuffles have the same members. -/
theorem perm {xs ys : List α} (h : Shuffled R xs ys) : xs.Perm ys := by
  induction h with
  | nil => exact .nil
  | cons a _ ih => exact ih.cons a
  | swap a b xs _ _ => exact .swap b a xs
  | trans _ _ ih ih' => exact ih.trans ih'

theorem append_left {xs ys : List α} (front : List α) (h : Shuffled R xs ys) :
    Shuffled R (front ++ xs) (front ++ ys) := by
  induction front with
  | nil => exact h
  | cons a front ih => exact .cons a ih

/-- The first member may go behind others that it is unrelated to. -/
theorem sink {a : α} {before : List α} (h : ∀ b ∈ before, ¬ R a b ∧ ¬ R b a) (rest : List α) :
    Shuffled R (a :: (before ++ rest)) (before ++ a :: rest) := by
  induction before with
  | nil => exact .refl R _
  | cons b before ih =>
    have hb := h b List.mem_cons_self
    have hr := ih fun c hc ↦ h c (List.mem_cons_of_mem b hc)
    exact .trans (.swap a b _ hb.1 hb.2) (.cons b hr)

end Shuffled

theorem pair_sublist_cons_iff {a b c : α} {xs : List α} :
    [a, b].Sublist (c :: xs) ↔ [a, b].Sublist xs ∨ a = c ∧ b ∈ xs := by
  rw [List.sublist_cons_iff]
  simp [eq_comm]

/-- Shuffles keep the order of related members. -/
theorem Shuffled.sameOrder {xs ys : List α} (h : Shuffled R xs ys) : SameOrder R xs ys := by
  induction h with
  | nil => exact fun a ha ↦ nomatch ha
  | @cons c xs ys h ih =>
    intro a _ b _ hn hr
    have members (e : α) : e ∈ xs ↔ e ∈ ys := h.perm.mem_iff
    rw [pair_sublist_cons_iff, pair_sublist_cons_iff, members b]
    refine or_congr_left ⟨fun hs ↦ ?_, fun hs ↦ ?_⟩
    · exact (ih a (hs.subset (by simp)) b (hs.subset (by simp)) hn hr).mp hs
    · have ha : a ∈ xs := (members a).mpr (hs.subset (by simp))
      have hb : b ∈ xs := (members b).mpr (hs.subset (by simp))
      exact (ih a ha b hb hn hr).mpr hs
  | swap c d xs hcd hdc =>
    intro a _ b _ hn hr
    have forward : ¬ (a = c ∧ b = d) := fun ⟨ha, hb⟩ ↦ hcd (ha ▸ hb ▸ hr)
    have backward : ¬ (a = d ∧ b = c) := fun ⟨ha, hb⟩ ↦ hdc (ha ▸ hb ▸ hr)
    simp only [pair_sublist_cons_iff, List.mem_cons]
    tauto
  | @trans xs ys zs h _ ih ih' =>
    intro a ha b hb hn hr
    have members {e : α} (he : e ∈ xs) : e ∈ ys := h.perm.mem_iff.mp he
    exact (ih a ha b hb hn hr).trans (ih' a (members ha) b (members hb) hn hr)

/-- Orders of one list that keep the order of related members are shuffles of each other. -/
theorem shuffled_of_sameOrder {xs ys : List α} (hd : xs.Nodup) (hp : xs.Perm ys)
    (ho : SameOrder R xs ys) : Shuffled R xs ys := by
  induction xs generalizing ys with
  | nil =>
    rw [List.nil_perm.mp hp]
    exact .nil
  | cons x xs ih =>
    have hx := List.nodup_cons.mp hd
    obtain ⟨before, rest, rfl⟩ := List.append_of_mem (hp.mem_iff.mp List.mem_cons_self)
    have hd' := hp.nodup hd
    have hp' : xs.Perm (before ++ rest) := (hp.trans List.perm_middle).cons_inv
    -- whatever has come before the first member is unrelated to it
    have free : ∀ b ∈ before, ¬ R x b ∧ ¬ R b x := by
      intro b hb
      have hm : b ∈ xs := hp'.mem_iff.mpr (List.mem_append_left _ hb)
      have hn : x ≠ b := fun he ↦ hx.1 (he ▸ hm)
      have hxb : [x, b].Sublist (x :: xs) := (List.singleton_sublist.mpr hm).cons_cons x
      have hbx := (pair_sublist_iff_mem hd' b).mpr hb
      constructor
      · intro hr
        exact not_pair_sublist hd' hbx ((ho x (by simp) b (by simp [hm]) hn hr).mp hxb)
      · intro hr
        exact not_pair_sublist hd hxb ((ho b (by simp [hm]) x (by simp) hn.symm hr).mpr hbx)
    have ho' : SameOrder R xs (before ++ rest) := by
      intro a ha b hb hn hr
      have hne {c : α} (hc : c ∈ xs) : c ≠ x := fun he ↦ hx.1 (he ▸ hc)
      have hs := ho a (by simp [ha]) b (by simp [hb]) hn hr
      classical
      have hf : (before ++ x :: rest).filter (· ≠ x) = before ++ rest := by
        have hm : ∀ c ∈ before ++ rest, c ≠ x := fun c hc ↦ hne (hp'.mem_iff.mpr hc)
        rw [List.filter_append, List.filter_cons_of_neg (by simp), ← List.filter_append,
          List.filter_eq_self.mpr (by simpa using hm)]
      rw [← hf, pair_sublist_filter_iff (by simpa using hne ha) (by simpa using hne hb), ← hs]
      constructor
      · exact fun h ↦ h.cons x
      · intro h
        rcases pair_sublist_cons_iff.mp h with h | ⟨he, -⟩
        · exact h
        · exact absurd he (hne ha)
    exact .trans (.cons x (ih hx.2 hp' ho')) (.sink free rest)

end ChainPlan
