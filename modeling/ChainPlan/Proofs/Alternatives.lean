import ChainPlan.Proofs.Aliasing
import Mathlib.Data.List.Perm.Basic

/-! # Aliases of alternatives

The arms of a match are alternatives, but aliases are followed through them one after the other, so
an arm starts from the aliases of those written before it. What some assignments make of two sets of
aliases together is what they make of each: an alias that an arm makes comes from those before the
match or from those of one other arm. So the order of the arms makes no difference to the aliases
behind them as long as it makes none for any two of the arms.
-/

namespace ChainPlan

namespace Aliases

variable {a b c : Aliases} {x : String × Expr} {xs ys : List (String × Expr)} {n : String}
  {v w : Expr}

/-! ### Assignments that can be analysed -/

/-- The aliases after an assignment that can be analysed. -/
def grow (a : Aliases) (x : String × Expr) : Aliases :=
  if x.2.sources.any a.has && !a.has x.1 then a.add x.1 x.2 else a

/-- The aliases after some assignments that can be analysed. -/
def after (a : Aliases) (xs : List (String × Expr)) : Aliases := xs.foldl grow a

@[simp] theorem after_nil : a.after [] = a := rfl

@[simp] theorem after_cons : a.after (x :: xs) = (a.grow x).after xs := rfl

theorem after_append : a.after (xs ++ ys) = (a.after xs).after ys := List.foldl_append

theorem grow_of_assign {name : String} {value : Expr} (h : a.assign name value = .ok b) :
    a.grow (name, value) = b := by
  rw [assign] at h
  cases hr : value.refers a.has with
  | error problem =>
    rw [hr] at h
    cases h
  | ok refers =>
    rw [hr] at h
    rw [grow, Expr.any_sources_of_refers hr]
    exact Except.ok.inj h

/-- The aliases that assignments are followed to are those after all of them. -/
theorem after_of_follows (h : a.Follows xs b) : a.after xs = b := by
  induction xs generalizing a with
  | nil => exact follows_nil_iff.mp h
  | cons x rest ih =>
    obtain ⟨next, ha, hf⟩ := follows_cons_iff.mp h
    rw [after_cons, grow_of_assign ha, ih hf]

/-- An assignment makes a variable an alias. -/
def Starts (a : Aliases) (x : String × Expr) : Prop :=
  x.1 ∉ a.names ∧ ∃ m ∈ x.2.sources, m ∈ a.names

theorem grow_of_starts (h : a.Starts x) : a.grow x = a.add x.1 x.2 := by
  obtain ⟨fresh, m, hm, known⟩ := h
  have refers : x.2.sources.any a.has = true :=
    List.any_eq_true.mpr ⟨m, hm, (a.has_iff m).mpr known⟩
  have new : a.has x.1 = false := by simpa [has] using fresh
  rw [grow, refers, new]
  rfl

theorem grow_of_not_starts (h : ¬ a.Starts x) : a.grow x = a := by
  rw [grow, if_neg]
  simpa [Starts, has, and_comm, List.any_eq_true] using h

theorem mem_names_grow_iff : n ∈ (a.grow x).names ↔ n ∈ a.names ∨ n = x.1 ∧ a.Starts x := by
  by_cases h : a.Starts x
  · rw [grow_of_starts h, add, List.mem_append, List.mem_singleton, and_iff_left h]
  · rw [grow_of_not_starts h]
    simp [h]

theorem mem_derived_grow_iff : n ∈ (a.grow x).derived ↔
    n ∈ a.derived ∨ n = x.1 ∧ a.Starts x ∧ x.2.ident? = none := by
  by_cases h : a.Starts x
  · rw [grow_of_starts h, add]
    cases hi : x.2.ident? <;> simp [h]
  · rw [grow_of_not_starts h]
    simp [h]

/-! ### Where an alias comes from -/

/-- Some assignments make a variable an alias, by assigning the value to it. -/
def Enters (a : Aliases) : List (String × Expr) → String → Expr → Prop
  | [], _, _ => False
  | x :: rest, n, v => x = (n, v) ∧ a.Starts x ∨ (a.grow x).Enters rest n v

theorem not_mem_of_enters (h : a.Enters xs n v) : n ∉ a.names := by
  induction xs generalizing a with
  | nil => exact h.elim
  | cons x rest ih =>
    rcases h with ⟨rfl, starts⟩ | h
    · exact starts.1
    · exact fun hn ↦ ih h (mem_names_grow_iff.mpr (.inl hn))

theorem not_enters_grow (h : a.Starts x) : ¬ (a.grow x).Enters xs x.1 v :=
  fun he ↦ not_mem_of_enters he (mem_names_grow_iff.mpr (.inr ⟨rfl, h⟩))

/-- A variable becomes an alias once. -/
theorem Enters.unique (h : a.Enters xs n v) (h' : a.Enters xs n w) : v = w := by
  induction xs generalizing a with
  | nil => exact h.elim
  | cons x rest ih =>
    rcases h with ⟨rfl, starts⟩ | h
    · rcases h' with ⟨he, -⟩ | h'
      · exact (Prod.mk.inj he).2
      · exact absurd h' (not_enters_grow starts)
    · rcases h' with ⟨rfl, starts⟩ | h'
      · exact absurd h (not_enters_grow starts)
      · exact ih h h'

theorem mem_names_after_iff : n ∈ (a.after xs).names ↔ n ∈ a.names ∨ ∃ v, a.Enters xs n v := by
  induction xs generalizing a with
  | nil => simp [Enters]
  | cons x rest ih =>
    rw [after_cons, ih, mem_names_grow_iff, or_assoc]
    refine or_congr_right ?_
    constructor
    · rintro (⟨rfl, starts⟩ | ⟨v, h⟩)
      · exact ⟨x.2, .inl ⟨rfl, starts⟩⟩
      · exact ⟨v, .inr h⟩
    · rintro ⟨v, ⟨rfl, starts⟩ | h⟩
      · exact .inl ⟨rfl, starts⟩
      · exact .inr ⟨v, h⟩

theorem mem_derived_after_iff : n ∈ (a.after xs).derived ↔
    n ∈ a.derived ∨ ∃ v, a.Enters xs n v ∧ v.ident? = none := by
  induction xs generalizing a with
  | nil => simp [Enters]
  | cons x rest ih =>
    rw [after_cons, ih, mem_derived_grow_iff, or_assoc]
    refine or_congr_right ?_
    constructor
    · rintro (⟨rfl, starts, hi⟩ | ⟨v, h, hi⟩)
      · exact ⟨x.2, .inl ⟨rfl, starts⟩, hi⟩
      · exact ⟨v, .inr h, hi⟩
    · rintro ⟨v, ⟨rfl, starts⟩ | h, hi⟩
      · exact .inl ⟨rfl, starts, hi⟩
      · exact .inr ⟨v, h, hi⟩

/-! ### Several sets of aliases at once -/

/-- The aliases are those of some sets taken together. -/
def IsUnion (a : Aliases) (bs : List Aliases) : Prop := ∀ n, n ∈ a.names ↔ ∃ b ∈ bs, n ∈ b.names

section

variable {bs : List Aliases}

theorem IsUnion.exists_starts (h : a.IsUnion bs) (hs : a.Starts x) : ∃ b ∈ bs, b.Starts x := by
  obtain ⟨fresh, m, hm, known⟩ := hs
  obtain ⟨b, hb, known⟩ := (h m).mp known
  exact ⟨b, hb, fun hn ↦ fresh ((h x.1).mpr ⟨b, hb, hn⟩), m, hm, known⟩

/-- An assignment makes of several sets together what it makes of each. -/
theorem IsUnion.grow (h : a.IsUnion bs) (x : String × Expr) :
    (a.grow x).IsUnion (bs.map fun b ↦ b.grow x) := by
  intro n
  simp only [List.mem_map, exists_exists_and_eq_and, mem_names_grow_iff]
  constructor
  · rintro (hn | ⟨rfl, starts⟩)
    · obtain ⟨b, hb, hn⟩ := (h n).mp hn
      exact ⟨b, hb, .inl hn⟩
    · obtain ⟨b, hb, starts⟩ := h.exists_starts starts
      exact ⟨b, hb, .inr ⟨rfl, starts⟩⟩
  · rintro ⟨b, hb, hn | ⟨rfl, -, m, hm, known⟩⟩
    · exact .inl ((h n).mpr ⟨b, hb, hn⟩)
    · by_cases old : x.1 ∈ a.names
      · exact .inl old
      · exact .inr ⟨rfl, old, m, hm, (h m).mpr ⟨b, hb, known⟩⟩

theorem IsUnion.after (h : a.IsUnion bs) (xs : List (String × Expr)) :
    (a.after xs).IsUnion (bs.map fun b ↦ b.after xs) := by
  induction xs generalizing a bs with
  | nil => simpa using h
  | cons x rest ih =>
    have step := ih (h.grow x)
    rwa [List.map_map] at step

/-- What makes a variable an alias behind several sets together makes it one behind one of them. -/
theorem IsUnion.exists_enters (h : a.IsUnion bs) (he : a.Enters xs n v) :
    ∃ b ∈ bs, b.Enters xs n v := by
  induction xs generalizing a bs with
  | nil => exact he.elim
  | cons x rest ih =>
    rcases he with ⟨hx, starts⟩ | he
    · obtain ⟨b, hb, starts⟩ := h.exists_starts starts
      exact ⟨b, hb, .inl ⟨hx, starts⟩⟩
    · obtain ⟨_, grown, he⟩ := ih (h.grow x) he
      obtain ⟨b, hb, rfl⟩ := List.mem_map.mp grown
      exact ⟨b, hb, .inr he⟩

/-- If what some assignments derive behind each of several sets is what that set has and what they
derive behind one of them, they derive the same behind all of them together. -/
theorem IsUnion.derived_after_iff (h : b.IsUnion bs)
    (hd : n ∈ b.derived ↔ ∃ c ∈ bs, n ∈ c.derived) (ha : a ∈ bs)
    (each : ∀ c ∈ bs, n ∈ (c.after xs).derived ↔ n ∈ c.derived ∨ n ∈ (a.after xs).derived) :
    n ∈ (b.after xs).derived ↔ n ∈ b.derived ∨ n ∈ (a.after xs).derived := by
  constructor
  · intro hn
    rcases mem_derived_after_iff.mp hn with hn | ⟨v, enters, hi⟩
    · exact .inl hn
    · obtain ⟨c, hc, enters⟩ := h.exists_enters enters
      rcases (each c hc).mp (mem_derived_after_iff.mpr (.inr ⟨v, enters, hi⟩)) with hn | hn
      · exact .inl (hd.mpr ⟨c, hc, hn⟩)
      · exact .inr hn
  · rintro (hn | hn)
    · exact mem_derived_after_iff.mpr (.inl hn)
    by_cases old : n ∈ b.derived
    · exact mem_derived_after_iff.mpr (.inl old)
    -- The variable becomes a derived alias behind each of the sets, so it does behind all of them.
    have derives (c : Aliases) (hc : c ∈ bs) : ∃ w, c.Enters xs n w ∧ w.ident? = none :=
      (mem_derived_after_iff.mp ((each c hc).mpr (.inr hn))).resolve_left
        fun known ↦ old (hd.mpr ⟨c, hc, known⟩)
    have fresh : n ∉ b.names := by
      intro known
      obtain ⟨c, hc, known⟩ := (h n).mp known
      obtain ⟨w, enters, -⟩ := derives c hc
      exact not_mem_of_enters enters known
    have reached : n ∈ (b.after xs).names := by
      obtain ⟨w, enters, -⟩ := derives a ha
      have alone : n ∈ (a.after xs).names := mem_names_after_iff.mpr (.inr ⟨w, enters⟩)
      exact (h.after xs n).mpr ⟨_, List.mem_map_of_mem ha, alone⟩
    obtain ⟨v, enters⟩ := (mem_names_after_iff.mp reached).resolve_left fresh
    obtain ⟨c, hc, behind⟩ := h.exists_enters enters
    obtain ⟨w, derived, hi⟩ := derives c hc
    exact mem_derived_after_iff.mpr (.inr ⟨v, enters, behind.unique derived ▸ hi⟩)

end

/-! ### The same aliases -/

/-- The same variables are aliases. -/
def SameNames (a b : Aliases) : Prop := ∀ n, n ∈ a.names ↔ n ∈ b.names

/-- The same variables are aliases, and the same of them are derived. -/
structure Same (a b : Aliases) : Prop where
  names : a.SameNames b
  derived : ∀ n, n ∈ a.derived ↔ n ∈ b.derived

theorem isUnion_singleton_iff : a.IsUnion [b] ↔ a.SameNames b := by
  simp [IsUnion, SameNames]

theorem SameNames.symm (h : a.SameNames b) : b.SameNames a := fun n ↦ (h n).symm

theorem Same.symm (h : a.Same b) : b.Same a := ⟨h.names.symm, fun n ↦ (h.derived n).symm⟩

theorem SameNames.after (h : a.SameNames b) (xs : List (String × Expr)) :
    (a.after xs).SameNames (b.after xs) :=
  isUnion_singleton_iff.mp ((isUnion_singleton_iff.mpr h).after xs)

theorem SameNames.enters (h : a.SameNames b) (he : a.Enters xs n v) : b.Enters xs n v := by
  obtain ⟨_, hb, he⟩ := (isUnion_singleton_iff.mpr h).exists_enters he
  rwa [List.mem_singleton.mp hb] at he

theorem Same.after (h : a.Same b) (xs : List (String × Expr)) : (a.after xs).Same (b.after xs) := by
  refine ⟨h.names.after xs, fun n ↦ ?_⟩
  rw [mem_derived_after_iff, mem_derived_after_iff, h.derived]
  exact or_congr_right (exists_congr fun v ↦
    and_congr_left fun _ ↦ ⟨h.names.enters, h.names.symm.enters⟩)

/-! ### Arms in a row -/

/-- The aliases of two sets taken together. -/
def join (a b : Aliases) : Aliases := ⟨a.names ++ b.names, a.derived ++ b.derived⟩

/-- No alias goes from one of two alternatives to the other: in a row, in either order, they make
aliases of the variables that they make aliases of separately. -/
def Apart (a : Aliases) (xs ys : List (String × Expr)) : Prop :=
  (a.after (xs ++ ys)).SameNames ((a.after xs).join (a.after ys)) ∧
    (a.after (ys ++ xs)).SameNames ((a.after ys).join (a.after xs))

/-- Two alternatives in a row, in either order, make aliases of the variables that they make aliases
of separately, and derived ones of those that they make derived ones. -/
def Independent (a : Aliases) (xs ys : List (String × Expr)) : Prop :=
  (a.after (xs ++ ys)).Same ((a.after xs).join (a.after ys)) ∧
    (a.after (ys ++ xs)).Same ((a.after ys).join (a.after xs))

section

variable {arms arms' : List (List (String × Expr))}

theorem mem_names_join_iff : n ∈ (a.join b).names ↔ n ∈ a.names ∨ n ∈ b.names := List.mem_append

theorem mem_derived_join_iff : n ∈ (a.join b).derived ↔ n ∈ a.derived ∨ n ∈ b.derived :=
  List.mem_append

theorem Independent.apart (h : a.Independent xs ys) : a.Apart xs ys := ⟨h.1.names, h.2.names⟩

/-- Behind arms of which no two share an alias, the aliases are those of each arm alone. -/
theorem isUnion_after_flatten (h : arms.Pairwise a.Apart) :
    (a.after arms.flatten).IsUnion (([] :: arms).map a.after) := by
  induction arms using List.reverseRecOn with
  | nil => simp [IsUnion]
  | append_singleton arms ys ih =>
    obtain ⟨earlier, -, apart⟩ := List.pairwise_append.mp h
    intro n
    have pair {xs : List (String × Expr)} (hx : xs ∈ [] :: arms) :
        n ∈ ((a.after xs).after ys).names ↔ n ∈ (a.after xs).names ∨ n ∈ (a.after ys).names := by
      rcases List.mem_cons.mp hx with rfl | hx
      · exact (or_iff_right_of_imp fun hn ↦ mem_names_after_iff.mpr (.inl hn)).symm
      · rw [← after_append, (apart xs hx ys (by simp)).1 n, mem_names_join_iff]
    calc n ∈ (a.after (arms ++ [ys]).flatten).names
        ↔ ∃ xs ∈ [] :: arms, n ∈ ((a.after xs).after ys).names := by
          rw [List.flatten_append, List.flatten_singleton, after_append, (ih earlier).after ys n]
          simp only [List.map_map, List.mem_map, exists_exists_and_eq_and, Function.comp_apply]
      _ ↔ ∃ xs ∈ [] :: arms, n ∈ (a.after xs).names ∨ n ∈ (a.after ys).names :=
          exists_congr fun xs ↦ and_congr_right pair
      _ ↔ ∃ xs ∈ [] :: (arms ++ [ys]), n ∈ (a.after xs).names := by grind
      _ ↔ ∃ b ∈ ([] :: (arms ++ [ys])).map a.after, n ∈ b.names := by
          simp only [List.mem_map, exists_exists_and_eq_and]

/-- If moreover no two of the arms differ in what they derive, the derived aliases are those of each
arm alone. -/
theorem mem_derived_after_flatten_iff (h : arms.Pairwise a.Independent) :
    n ∈ (a.after arms.flatten).derived ↔ ∃ xs ∈ [] :: arms, n ∈ (a.after xs).derived := by
  induction arms using List.reverseRecOn with
  | nil => simp
  | append_singleton arms ys ih =>
    obtain ⟨earlier, -, independent⟩ := List.pairwise_append.mp h
    have union := isUnion_after_flatten (earlier.imp Independent.apart)
    have each : ∀ c ∈ ([] :: arms).map a.after,
        n ∈ (c.after ys).derived ↔ n ∈ c.derived ∨ n ∈ (a.after ys).derived := by
      intro c hc
      obtain ⟨xs, hx, rfl⟩ := List.mem_map.mp hc
      rcases List.mem_cons.mp hx with rfl | hx
      · exact (or_iff_right_of_imp fun hn ↦ mem_derived_after_iff.mpr (.inl hn)).symm
      · rw [← after_append, (independent xs hx ys (by simp)).1.derived n, mem_derived_join_iff]
    have before : n ∈ (a.after arms.flatten).derived ↔
        ∃ c ∈ ([] :: arms).map a.after, n ∈ c.derived := by
      rw [ih earlier]
      simp only [List.mem_map, exists_exists_and_eq_and]
    calc n ∈ (a.after (arms ++ [ys]).flatten).derived
        ↔ n ∈ (a.after arms.flatten).derived ∨ n ∈ (a.after ys).derived := by
          rw [List.flatten_append, List.flatten_singleton, after_append]
          exact union.derived_after_iff before (.head _) each
      _ ↔ ∃ xs ∈ [] :: (arms ++ [ys]), n ∈ (a.after xs).derived := by
          rw [ih earlier]
          grind

/-- The order of arms of which no two share an alias makes no difference to the aliases. -/
theorem sameNames_after_flatten (h : arms.Pairwise a.Apart) (perm : arms.Perm arms') :
    (a.after arms.flatten).SameNames (a.after arms'.flatten) := by
  intro n
  have h' : arms'.Pairwise a.Apart := perm.pairwise h And.symm
  rw [isUnion_after_flatten h n, isUnion_after_flatten h' n]
  simp only [List.mem_map, exists_exists_and_eq_and, List.mem_cons, perm.mem_iff]

/-- If moreover no two of them differ in what they derive, it makes none to the derived aliases. -/
theorem same_after_flatten (h : arms.Pairwise a.Independent) (perm : arms.Perm arms') :
    (a.after arms.flatten).Same (a.after arms'.flatten) := by
  have h' : arms'.Pairwise a.Independent := perm.pairwise h And.symm
  refine ⟨sameNames_after_flatten (h.imp Independent.apart) perm, fun n ↦ ?_⟩
  rw [mem_derived_after_flatten_iff h, mem_derived_after_flatten_iff h']
  simp only [List.mem_cons, perm.mem_iff]

end

instance (a b : Aliases) : Decidable (a.SameNames b) :=
  decidable_of_iff (a.names ⊆ b.names ∧ b.names ⊆ a.names)
    ⟨fun h _ ↦ ⟨(h.1 ·), (h.2 ·)⟩, fun h ↦ ⟨fun n ↦ (h n).mp, fun n ↦ (h n).mpr⟩⟩

instance (a b : Aliases) : Decidable (a.Same b) :=
  decidable_of_iff (a.SameNames b ∧ a.derived ⊆ b.derived ∧ b.derived ⊆ a.derived)
    ⟨fun h ↦ ⟨h.1, fun _ ↦ ⟨(h.2.1 ·), (h.2.2 ·)⟩⟩,
      fun h ↦ ⟨h.names, fun n ↦ (h.derived n).mp, fun n ↦ (h.derived n).mpr⟩⟩

instance (a : Aliases) (xs ys : List (String × Expr)) : Decidable (a.Apart xs ys) :=
  inferInstanceAs (Decidable (_ ∧ _))

instance (a : Aliases) (xs ys : List (String × Expr)) : Decidable (a.Independent xs ys) :=
  inferInstanceAs (Decidable (_ ∧ _))

end Aliases

end ChainPlan
