import ChainPlan.Handler.Alias
import ChainPlan.Proofs.Runs
import Mathlib.Data.List.Induction

/-! # Aliases along runs

An assignment makes its variable an alias or leaves the aliases as they are, so they only grow. A
run makes its assignments in the order in which the aliases are followed, and leaves out some; so
whatever variable holds the message or data of it at some point of a run is an alias. An alias is a
name of the message if the assignment that made it one names another alias, and derived otherwise.
-/

namespace ChainPlan

namespace Aliases

variable {a b c : Aliases}

@[simp] theorem has_iff (a : Aliases) (name : String) : a.has name = true ↔ name ∈ a.names := by
  simp [has]

/-! ### One assignment -/

/-- The two things that an assignment can do to the aliases. -/
inductive Next (a : Aliases) (name : String) (value : Expr) : Aliases → Prop where
  /-- The value refers to no alias, or the variable is one already. -/
  | kept (h : value.refers a.has = .ok false ∨ name ∈ a.names) : Next a name value a
  | added (hr : value.refers a.has = .ok true) (hn : name ∉ a.names) :
      Next a name value (a.add name value)

theorem next_of_assign {name : String} {value : Expr} (h : a.assign name value = .ok b) :
    a.Next name value b := by
  rw [assign] at h
  cases hr : value.refers a.has with
  | error problem =>
    rw [hr] at h
    cases h
  | ok refers =>
    rw [hr, Except.map] at h
    by_cases hn : name ∈ a.names
    · obtain rfl : a = b := by simpa [has, hn] using h
      exact .kept (.inr hn)
    · cases refers with
      | false =>
        obtain rfl : a = b := by simpa using h
        exact .kept (.inl hr)
      | true =>
        obtain rfl : a.add name value = b := by simpa [hn, has] using h
        exact .added hr hn

/-- Aliases are never taken back. -/
theorem names_subset_of_assign {name : String} {value : Expr} (h : a.assign name value = .ok b) :
    a.names ⊆ b.names := by
  cases next_of_assign h with
  | kept => exact List.Subset.refl _
  | added => exact List.subset_append_left _ _

/-! ### Many assignments -/

/-- The assignments of a list are all followed, from some aliases to others. -/
def Follows (a : Aliases) (xs : List (String × Expr)) (b : Aliases) : Prop :=
  a.follow xs = (b, none)

theorem follows_nil_iff : a.Follows [] b ↔ a = b := by
  simp [Follows, follow]

theorem follows_cons_iff {name : String} {value : Expr} {rest : List (String × Expr)} :
    a.Follows ((name, value) :: rest) c ↔ ∃ b, a.assign name value = .ok b ∧ b.Follows rest c := by
  rw [Follows, follow]
  cases a.assign name value with
  | error problem => simp
  | ok b => simp [Follows]

theorem follows_append_iff {xs ys : List (String × Expr)} :
    a.Follows (xs ++ ys) c ↔ ∃ b, a.Follows xs b ∧ b.Follows ys c := by
  unfold Follows
  rw [follow_append]
  rcases a.follow xs with ⟨b, problem | problem⟩ <;> simp

theorem follows_concat_iff {xs : List (String × Expr)} {name : String} {value : Expr} :
    a.Follows (xs ++ [(name, value)]) c ↔ ∃ b, a.Follows xs b ∧ b.assign name value = .ok c := by
  simp only [follows_append_iff, follows_cons_iff, follows_nil_iff, exists_eq_right]

theorem follows_of_ofBlock {message : String} {block : Block}
    (h : ofBlock message block = .ok a) : (ofMessage message).Follows block.assigns a := by
  rw [ofBlock] at h
  split at h
  · cases h
  · next he =>
    cases h
    exact he

end Aliases

/-! ### Variables that hold something of the message -/

mutual

/-- The variables of which one has to be an alias for an expression to refer to one. -/
def Expr.sources : Expr → List String
  | .ident name => [name]
  | .literal _ | .error _ => []
  | .binary left _ right => left.sources ++ right.sources
  | .call _ args => Expr.sourcesOfAll args
  | .invoke (.ident name) .get _ => [name]
  | .invoke _ _ _ => []

/-- The variables of which one has to be an alias for one of the expressions to refer to one. -/
def Expr.sourcesOfAll : List Expr → List String
  | [] => []
  | e :: rest => e.sources ++ Expr.sourcesOfAll rest

end

/-- Whether one of two expressions refers to an alias is decided by the first one that does. -/
private theorem refers_or_eq_ok {x y : Except Problem Bool} {r : Bool}
    (h : (match x with
      | .ok false => y
      | decided => decided) = .ok r) :
    x = .ok true ∧ r = true ∨ x = .ok false ∧ y = .ok r := by
  match x with
  | .error problem => cases h
  | .ok true => exact .inl ⟨rfl, (Except.ok.inj h).symm⟩
  | .ok false => exact .inr ⟨rfl, h⟩

mutual

/-- If it can be told whether a value refers to an alias, it does exactly if one of its sources is
one. -/
theorem Expr.any_sources_of_refers {isAlias : String → Bool} :
    ∀ {e : Expr} {r : Bool}, e.refers isAlias = .ok r → e.sources.any isAlias = r
  | .ident name, r, h => by
    rw [Expr.refers] at h
    simpa [Expr.sources] using h
  | .literal _, r, h | .error _, r, h => Except.ok.inj h
  | .binary left op right, r, h => by
    rw [Expr.refers] at h
    rw [Expr.sources, List.any_append]
    rcases refers_or_eq_ok h with ⟨hl, rfl⟩ | ⟨hl, hr⟩
    · rw [Expr.any_sources_of_refers hl, Bool.true_or]
    · rw [Expr.any_sources_of_refers hl, Expr.any_sources_of_refers hr, Bool.false_or]
  | .call name args, r, h => Expr.any_sourcesOfAll_of_anyRefers h
  | .invoke object method args, r, h => by
    cases object with
    | ident name => cases method <;> simpa [Expr.refers, Expr.target, Except.map, sources] using h
    | literal | binary | call | invoke | error => cases h

theorem Expr.any_sourcesOfAll_of_anyRefers {isAlias : String → Bool} :
    ∀ {es : List Expr} {r : Bool}, Expr.anyRefers isAlias es = .ok r →
      (Expr.sourcesOfAll es).any isAlias = r
  | [], r, h => Except.ok.inj h
  | e :: rest, r, h => by
    rw [Expr.anyRefers] at h
    rw [Expr.sourcesOfAll, List.any_append]
    rcases refers_or_eq_ok h with ⟨he, rfl⟩ | ⟨he, hr⟩
    · rw [Expr.any_sources_of_refers he, Bool.true_or]
    · rw [Expr.any_sources_of_refers he, Expr.any_sourcesOfAll_of_anyRefers hr, Bool.false_or]

end

mutual

/-- A value holds something of the message exactly if one of its sources does. -/
theorem Expr.holding_ne_other_iff {locals : Locals} :
    ∀ {e : Expr}, e.holding locals ≠ .other ↔ ∃ n ∈ e.sources, locals n ≠ .other
  | .ident name => by simp [Expr.holding, Expr.sources]
  | .literal _ | .error _ => by simp [Expr.holding, Expr.sources]
  | .binary left op right => by
    rw [Expr.holding, Expr.sources, Holding.combine_ne_other_iff, Expr.holding_ne_other_iff,
      Expr.holding_ne_other_iff]
    simp only [List.mem_append, or_and_right, exists_or]
  | .call name args => by
    rw [Expr.holding, Expr.sources, Expr.holdingOfAll_ne_other_iff]
  | .invoke object method args => by
    cases object with
    | ident name =>
      -- Nothing but a `GET` on a variable gives something of the message.
      cases method <;> simp [Expr.holding, Expr.sources, Holding.combine_ne_other_iff]
    | literal | binary | call | invoke | error => simp [Expr.holding, Expr.sources]

theorem Expr.holdingOfAll_ne_other_iff {locals : Locals} :
    ∀ {es : List Expr},
      Expr.holdingOfAll locals es ≠ .other ↔ ∃ n ∈ Expr.sourcesOfAll es, locals n ≠ .other
  | [] => by simp [Expr.holdingOfAll, Expr.sourcesOfAll]
  | e :: rest => by
    rw [Expr.holdingOfAll, Expr.sourcesOfAll, Holding.combine_ne_other_iff,
      Expr.holding_ne_other_iff, Expr.holdingOfAll_ne_other_iff]
    simp only [List.mem_append, or_and_right, exists_or]

end

/-- A value that holds something of the message refers to an alias, if all variables that do are
aliases. -/
theorem Expr.refers_of_holding {locals : Locals} {isAlias : String → Bool}
    (h : ∀ n, locals n ≠ .other → isAlias n = true) {e : Expr} {r : Bool}
    (hr : e.refers isAlias = .ok r) (he : e.holding locals ≠ .other) : r = true := by
  obtain ⟨n, hn, hl⟩ := Expr.holding_ne_other_iff.mp he
  rw [← Expr.any_sources_of_refers hr]
  exact List.any_eq_true.mpr ⟨n, hn, h n hl⟩

/-- A value that refers to an alias holds something of the message, if all aliases do. -/
theorem Expr.holding_of_refers {locals : Locals} {isAlias : String → Bool}
    (h : ∀ n, isAlias n = true → locals n ≠ .other) {e : Expr}
    (hr : e.refers isAlias = .ok true) : e.holding locals ≠ .other := by
  obtain ⟨n, hn, ha⟩ := List.any_eq_true.mp (Expr.any_sources_of_refers hr)
  exact Expr.holding_ne_other_iff.mpr ⟨n, hn, h n ha⟩

namespace Aliases

variable {a b : Aliases}

/-- Every variable that holds something of the message is an alias. -/
def Covers (a : Aliases) (locals : Locals) : Prop := ∀ n, locals n ≠ .other → n ∈ a.names

theorem Covers.mono {locals : Locals} (h : a.Covers locals) (hs : a.names ⊆ b.names) :
    b.Covers locals := fun n hn ↦ hs (h n hn)

theorem covers_start (message : String) : (ofMessage message).Covers (.start message) := by
  intro n hn
  by_cases h : n = message
  · exact List.mem_singleton.mpr h
  · exact absurd (if_neg h) hn

/-- An assignment that a run makes keeps every variable that holds something of the message an
alias. -/
theorem Covers.assign {locals : Locals} {name : String} {value : Expr} (h : a.Covers locals)
    (ha : a.assign name value = .ok b) : b.Covers (locals.assign name value) := by
  intro n hn
  by_cases he : n = name
  · subst n
    rw [Locals.assign, if_pos rfl] at hn
    cases next_of_assign ha with
    | kept hk =>
      rcases hk with hr | hm
      · have refers := Expr.refers_of_holding (fun m hm ↦ (a.has_iff m).mpr (h m hm)) hr hn
        exact absurd refers (by simp)
      · exact hm
    | added => exact List.mem_append_right _ (List.mem_singleton_self name)
  · rw [Locals.assign, if_neg he] at hn
    exact names_subset_of_assign ha (h n hn)

/-- A run may leave out some of the assignments that are followed. -/
theorem Covers.foldl {locals : Locals} {done all : List (String × Expr)} (h : a.Covers locals)
    (hs : done.Sublist all) (hf : a.Follows all b) :
    b.Covers (done.foldl (fun l x ↦ l.assign x.1 x.2) locals) := by
  induction hs generalizing a locals with
  | slnil => exact follows_nil_iff.mp hf ▸ h
  | cons x _ ih =>
    obtain ⟨next, ha, hf⟩ := follows_cons_iff.mp hf
    exact ih (h.mono (names_subset_of_assign ha)) hf
  | cons_cons x _ ih =>
    obtain ⟨next, ha, hf⟩ := follows_cons_iff.mp hf
    exact ih (h.assign ha) hf

/-- At any point of any run of a block, every variable that holds something of the message is among
the aliases of the block. -/
theorem covers_of_runs {message : String} {block before after : Block}
    (h : ofBlock message block = .ok a) (hr : block.Runs (before ++ after)) :
    a.Covers ((Locals.start message).afterAll before) := by
  have plain : ∀ s ∈ before, s.IsPlain := fun s hs ↦ hr.isPlain s (List.mem_append_left _ hs)
  have sublist : before.assigns.Sublist block.assigns := by
    refine List.Sublist.trans ?_ hr.assigns_sublist
    rw [Block.assigns_append]
    exact List.sublist_append_left _ _
  rw [Locals.afterAll_eq _ plain]
  exact (covers_start message).foldl sublist (follows_of_ofBlock h)

/-! ### Names of the message -/

/-- The assignments first make the variable an alias as another name: it is the message itself, or
another alias is assigned to it as it is when it is none yet. -/
def NamedFirst (message name : String) (xs : List (String × Expr)) : Prop :=
  name = message ∨ ∃ done source rest a, xs = done ++ (name, .ident source) :: rest ∧
    (ofMessage message).Follows done a ∧ name ∉ a.names ∧ source ∈ a.names

section

variable {message name : String} {xs : List (String × Expr)}

theorem not_namedFirst (hm : name ≠ message) (h : ∀ source, (name, .ident source) ∉ xs) :
    ¬ NamedFirst message name xs := by
  rintro (rfl | ⟨done, source, rest, a, rfl, -⟩)
  · exact hm rfl
  · exact h source (by simp)

theorem Follows.eq (h : a.Follows xs b) (h' : a.Follows xs c) : b = c := by
  unfold Follows at h h'
  simpa [h] using h'

theorem namedFirst_concat_iff {other : String} {value : Expr}
    (h : (ofMessage message).Follows xs a) :
    NamedFirst message name (xs ++ [(other, value)]) ↔ NamedFirst message name xs ∨
      other = name ∧ ∃ source, value = .ident source ∧ name ∉ a.names ∧ source ∈ a.names := by
  constructor
  · rintro (hm | ⟨done, source, rest, b, he, hf, hn, hs⟩)
    · exact .inl (.inl hm)
    · rcases List.eq_nil_or_concat rest with rfl | ⟨rest, last, rfl⟩
      · obtain ⟨rfl, hl⟩ := List.append_inj' he rfl
        obtain ⟨rfl, rfl⟩ := Prod.mk.inj (List.singleton_inj.mp hl)
        exact .inr ⟨rfl, source, rfl, h.eq hf ▸ hn, h.eq hf ▸ hs⟩
      · rw [List.concat_eq_append, ← List.cons_append, ← List.append_assoc] at he
        exact .inl (.inr ⟨done, source, rest, b, (List.append_inj' he rfl).1, hf, hn, hs⟩)
  · rintro ((hm | ⟨done, source, rest, b, rfl, hf, hn, hs⟩) | ⟨rfl, source, rfl, hn, hs⟩)
    · exact .inl hm
    · exact .inr ⟨done, source, rest ++ [(other, value)], b, by simp, hf, hn, hs⟩
    · exact .inr ⟨xs, source, [], a, rfl, h, hn, hs⟩

/-- Every alias is either derived or first made one as another name. -/
theorem mem_derived_or_namedFirst (h : (ofMessage message).Follows xs a) :
    (name ∈ a.names ↔ name ∈ a.derived ∨ NamedFirst message name xs) ∧
      ¬ (name ∈ a.derived ∧ NamedFirst message name xs) := by
  induction xs using List.reverseRecOn generalizing a with
  | nil =>
    obtain rfl := follows_nil_iff.mp h
    simp [ofMessage, NamedFirst]
  | append_singleton xs x ih =>
    obtain ⟨other, value⟩ := x
    obtain ⟨before, hf, ha⟩ := follows_concat_iff.mp h
    obtain ⟨covers, apart⟩ := ih hf
    rw [namedFirst_concat_iff hf]
    cases next_of_assign ha with
    | kept hk =>
      have old : ¬ (other = name ∧ ∃ source, value = .ident source ∧ name ∉ a.names ∧
          source ∈ a.names) := by
        rintro ⟨rfl, source, rfl, hn, hs⟩
        rcases hk with hr | hm
        · rw [Expr.refers, (a.has_iff source).mpr hs] at hr
          cases hr
        · exact hn hm
      rw [or_iff_left old]
      exact ⟨covers, apart⟩
    | added hr hn =>
      by_cases he : other = name
      · subst other
        have fresh : name ∉ before.derived ∧ ¬ NamedFirst message name xs := by
          rw [← not_or, ← covers]
          exact hn
        cases value with
        | ident source =>
          have hs : source ∈ before.names := by simpa [Expr.refers] using hr
          simp [add, Expr.ident?, fresh.1, hn, hs]
        | _ => simp [add, Expr.ident?, fresh.2]
      · have names : name ∈ (before.add other value).names ↔ name ∈ before.names := by
          simp [add, Ne.symm he]
        have derived : name ∈ (before.add other value).derived ↔ name ∈ before.derived := by
          unfold add
          cases value.ident? <;> simp [Ne.symm he]
        have old : ¬ (other = name ∧ ∃ source, value = .ident source ∧ name ∉ before.names ∧
            source ∈ before.names) := fun h ↦ he h.1
        rw [names, derived, or_iff_left old]
        exact ⟨covers, apart⟩

theorem derived_subset_names (h : (ofMessage message).Follows xs a) : a.derived ⊆ a.names :=
  fun _ hn ↦ (mem_derived_or_namedFirst h).1.mpr (.inl hn)

end

end Aliases

end ChainPlan
