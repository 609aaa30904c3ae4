import ChainPlan.Proofs.Phrases

/-! # Legible handlers

A handler is legible if its variables and functions are called by names, which are words that are
not reserved, its numbers are digits, and its texts hold no quotes. Words are built of any
characters but the signs that the text of a handler has between them.
-/

namespace ChainPlan

/-! ### Names and literals -/

/-- The signs between the words of a text. -/
def signs : List Char :=
  [' ', '\n', '\x27', '(', ')', '.', ',', '\x7b', '\x7d', ':', '=', '!', '<', '>', '+', '-', '*', '/',
    '&', '|']

/-- A name is a word of characters other than signs that starts with no digit and is not
reserved. -/
structure IsName (reserved : List String) (s : String) : Prop where
  start : ∃ c ∈ s.toList.head?, c.isDigit = false
  plain : ∀ c ∈ s.toList, c ∉ signs
  free : s ∉ reserved

/-- The words that are reserved in expressions. -/
def expressionWords : List String := ["err", "true", "false"]

/-- A text has no quote in it, a number has digits only and at least one. -/
def Literal.IsLegible : Literal → Prop
  | .text value => '\x27' ∉ value.toList
  | .number digits => digits ≠ "" ∧ ∀ c ∈ digits.toList, c.isDigit = true
  | .flag _ => True

mutual

/-- The names of variables and functions in the expression are names, and its literals are
legible. -/
def Expr.IsLegible (reserved : List String) : Expr → Prop
  | .ident name => IsName reserved name
  | .literal value => value.IsLegible
  | .binary left _ right => left.IsLegible reserved ∧ right.IsLegible reserved
  | .call name args => IsName reserved name ∧ Expr.AreLegible reserved args
  | .invoke object _ args => object.IsLegible reserved ∧ Expr.AreLegible reserved args
  | .error payload => payload.IsLegible reserved

/-- All expressions of a list are legible. -/
def Expr.AreLegible (reserved : List String) : List Expr → Prop
  | [] => True
  | e :: rest => e.IsLegible reserved ∧ Expr.AreLegible reserved rest

end

-- The instances check the characters in a list only: there is also one that goes through all
-- characters there are.
instance (reserved : List String) (s : String) : Decidable (IsName reserved s) :=
  decidable_of_iff
    (s.toList.head?.any (!·.isDigit) = true ∧ s.toList.all (· ∉ signs) = true ∧ s ∉ reserved)
    ⟨fun h ↦ ⟨by simpa [Option.any_eq_true] using h.1, by simpa using h.2.1, h.2.2⟩,
      fun h ↦ ⟨by simpa [Option.any_eq_true] using h.start, by simpa using h.plain, h.free⟩⟩

instance : DecidablePred Literal.IsLegible
  | .text value => inferInstanceAs (Decidable ('\x27' ∉ value.toList))
  | .number digits =>
    decidable_of_iff (digits ≠ "" ∧ digits.toList.all Char.isDigit = true)
      (and_congr_right fun _ ↦ List.all_eq_true)
  | .flag _ => .isTrue trivial

mutual

/-- Decides whether an expression is legible. -/
def Expr.decideLegible (reserved : List String) : ∀ e : Expr, Decidable (e.IsLegible reserved)
  | .ident name => inferInstanceAs (Decidable (IsName reserved name))
  | .literal value => inferInstanceAs (Decidable value.IsLegible)
  | .binary left _ right =>
    @instDecidableAnd _ _ (left.decideLegible reserved) (right.decideLegible reserved)
  | .call _ args => @instDecidableAnd _ _ inferInstance (Expr.decideAllLegible reserved args)
  | .invoke object _ args =>
    @instDecidableAnd _ _ (object.decideLegible reserved) (Expr.decideAllLegible reserved args)
  | .error payload => payload.decideLegible reserved

/-- Decides whether expressions are legible. -/
def Expr.decideAllLegible (reserved : List String) :
    ∀ es : List Expr, Decidable (Expr.AreLegible reserved es)
  | [] => .isTrue trivial
  | e :: rest =>
    @instDecidableAnd _ _ (e.decideLegible reserved) (Expr.decideAllLegible reserved rest)

end

instance (reserved : List String) : DecidablePred (Expr.IsLegible reserved) :=
  Expr.decideLegible reserved

theorem not_mem_signs_of_isAlphanum {c : Char} (h : c.isAlphanum = true) : c ∉ signs := by
  intro hc
  have none : ∀ d ∈ signs, (!d.isAlphanum) = true := List.all_eq_true.mp (by decide)
  have sign := none c hc
  rw [h] at sign
  cases sign

theorem isDigit_eq_false_of_isAlpha {c : Char} (h : c.isAlpha = true) : c.isDigit = false := by
  apply Bool.eq_false_iff.mpr
  intro digit
  have low : c.val ≤ '9'.val := of_decide_eq_true (Bool.and_eq_true_iff.mp digit).2
  rcases Bool.or_eq_true_iff.mp h with upper | lower
  · have high : 'A'.val ≤ c.val := (of_decide_eq_true upper).1
    exact absurd (UInt32.le_trans high low) (by decide)
  · have high : 'a'.val ≤ c.val := of_decide_eq_true (Bool.and_eq_true_iff.mp lower).1
    exact absurd (UInt32.le_trans high low) (by decide)

/-- A word of letters and digits that starts with a letter is a name unless it is reserved. -/
theorem isName_of_isAlphanum {reserved : List String} {s : String}
    (start : ∃ c ∈ s.toList.head?, c.isAlpha = true)
    (plain : ∀ c ∈ s.toList, c.isAlphanum = true) (free : s ∉ reserved) : IsName reserved s := by
  obtain ⟨c, hc, letter⟩ := start
  exact ⟨⟨c, hc, isDigit_eq_false_of_isAlpha letter⟩,
    fun d hd ↦ not_mem_signs_of_isAlphanum (plain d hd), free⟩

theorem IsName.ne_empty {reserved : List String} {s : String} (h : IsName reserved s) :
    s ≠ "" := by
  rintro rfl
  obtain ⟨c, hc, -⟩ := h.start
  cases hc

theorem IsName.mono {reserved fewer : List String} {s : String} (h : IsName reserved s)
    (hs : fewer ⊆ reserved) : IsName fewer s :=
  ⟨h.start, h.plain, fun hf ↦ h.free (hs hf)⟩

mutual

theorem Expr.IsLegible.mono {reserved fewer : List String} (hs : fewer ⊆ reserved) :
    ∀ {e : Expr}, e.IsLegible reserved → e.IsLegible fewer
  | .ident _, h => IsName.mono h hs
  | .literal _, h => h
  | .binary _ _ _, ⟨hl, hr⟩ => ⟨hl.mono hs, hr.mono hs⟩
  | .call _ _, ⟨hn, ha⟩ => ⟨hn.mono hs, ha.mono hs⟩
  | .invoke _ _ _, ⟨ho, ha⟩ => ⟨ho.mono hs, ha.mono hs⟩
  | .error payload, h => Expr.IsLegible.mono (e := payload) hs h

theorem Expr.AreLegible.mono {reserved fewer : List String} (hs : fewer ⊆ reserved) :
    ∀ {es : List Expr}, Expr.AreLegible reserved es → Expr.AreLegible fewer es
  | [], _ => trivial
  | _ :: _, ⟨he, hr⟩ => ⟨he.mono hs, hr.mono hs⟩

end

/-! ### Handlers -/

/-- The words that are reserved in handlers. -/
def reservedWords : List String := ["START", "END", "pass", "match", "send"] ++ expressionWords

/-- The variables that are assigned to have names, and the expressions are legible. -/
structure Legible (assigns : List (String × Expr)) (exprs : List Expr) : Prop where
  names : ∀ a ∈ assigns, IsName reservedWords a.1
  exprs : ∀ e ∈ exprs, e.IsLegible reservedWords

/-- All variables and functions in the block have names, and its literals are legible. -/
def Block.IsLegible (b : Block) : Prop := Legible b.assigns b.exprs

instance (assigns : List (String × Expr)) (exprs : List Expr) : Decidable (Legible assigns exprs) :=
  decidable_of_iff
    ((∀ a ∈ assigns, IsName reservedWords a.1) ∧ ∀ e ∈ exprs, e.IsLegible reservedWords)
    ⟨fun h ↦ ⟨h.1, h.2⟩, fun h ↦ ⟨h.names, h.exprs⟩⟩

instance : DecidablePred Block.IsLegible :=
  fun b ↦ inferInstanceAs (Decidable (Legible b.assigns b.exprs))

namespace Legible

variable {as as' : List (String × Expr)} {es es' : List Expr}

theorem of_append (h : Legible (as ++ as') (es ++ es')) : Legible as es ∧ Legible as' es' := by
  obtain ⟨hn, hn'⟩ := List.forall_mem_append.mp h.names
  obtain ⟨he, he'⟩ := List.forall_mem_append.mp h.exprs
  exact ⟨⟨hn, he⟩, ⟨hn', he'⟩⟩

theorem of_cons {e : Expr} (h : Legible as (e :: es)) :
    e.IsLegible expressionWords ∧ Legible as es := by
  obtain ⟨he, hs⟩ := List.forall_mem_cons.mp h.exprs
  exact ⟨he.mono (List.subset_append_right _ _), h.names, hs⟩

end Legible

/-! ### Parts of expressions -/

/-- Whether the names and the literals in the atom are legible. -/
def Atom.IsLegible (a : Atom) : Prop := a.toExpr.IsLegible expressionWords

/-- Whether the names and the literals in the suffix are legible. -/
def Suffix.IsLegible : Suffix → Prop
  | .invoke _ args => Expr.AreLegible expressionWords args
  | .operand _ atom => atom.IsLegible

/-- The parts of a legible expression are legible. -/
theorem Expr.legible_parts : ∀ {e : Expr}, e.IsLegible expressionWords →
    e.head.IsLegible ∧ ∀ s ∈ e.suffixes, s.IsLegible
  | .ident _, h | .literal (.text _), h | .literal (.number _), h | .literal (.flag _), h
  | .call _ _, h | .error _, h => ⟨h, fun _ hs ↦ nomatch hs⟩
  | .binary left op right, ⟨hl, hr⟩ => by
    obtain ⟨first, goes⟩ := legible_parts hl
    obtain ⟨next, ends⟩ := legible_parts hr
    refine ⟨first, List.forall_mem_append.mpr ⟨goes, ?_⟩⟩
    exact List.forall_mem_cons.mpr ⟨next, ends⟩
  | .invoke object method args, ⟨ho, ha⟩ => by
    obtain ⟨first, goes⟩ := legible_parts ho
    refine ⟨first, List.forall_mem_append.mpr ⟨goes, ?_⟩⟩
    exact List.forall_mem_singleton.mpr ha

end ChainPlan
