import ChainPlan.Proofs.Legibility
import Mathlib.Data.List.Basic

/-! # Reading of expressions

The text of an expression is read from the left: an atom, and then as often as it goes on a call of
a method or an operator with another atom. An atom is a word, told apart from the others by how it
starts and by what follows it, or a text in quotes. So the text of an expression shows the
expression up to the grouping of its operators, and shows where it ends, if names and literals are
legible and what follows it does not go on with an operator.
-/

namespace ChainPlan

/-! ### Cuts -/

/-- A list is cut in one way only where a stretch of members ends that have a property. -/
theorem cut_unique {α : Type} {p : α → Prop} {u v r s : List α} (hu : ∀ a ∈ u, p a)
    (hv : ∀ a ∈ v, p a) (hr : ∀ a ∈ r.head?, ¬ p a) (hs : ∀ a ∈ s.head?, ¬ p a)
    (h : u ++ r = v ++ s) : u = v ∧ r = s := by
  -- If one stretch went on where the other ends, its next member would be the first of the rest.
  induction u generalizing v with
  | nil =>
    cases v with
    | nil => exact ⟨rfl, h⟩
    | cons b v =>
      rw [List.nil_append] at h
      exact (hr b (by rw [h]; rfl) (hv b (.head _))).elim
  | cons a u ih =>
    cases v with
    | nil =>
      rw [List.nil_append] at h
      exact (hs a (by rw [← h]; rfl) (hu a (.head _))).elim
    | cons b v =>
      obtain ⟨rfl, rest⟩ := List.cons.inj h
      obtain ⟨rfl, same⟩ := ih (fun a ha ↦ hu a (.tail _ ha)) (fun a ha ↦ hv a (.tail _ ha)) rest
      exact ⟨rfl, same⟩

/-- A list is cut in one way only at the first place of a member. -/
theorem cut_unique_at {α : Type} {d : α} {u v r s : List α} (hu : d ∉ u) (hv : d ∉ v)
    (h : u ++ d :: r = v ++ d :: s) : u = v ∧ r = s := by
  have stops (r : List α) : ∀ a ∈ (d :: r).head?, ¬ a ≠ d := by
    intro a ha
    cases ha
    exact not_not_intro rfl
  obtain ⟨same, rest⟩ := cut_unique (fun a ha ↦ ne_of_mem_of_not_mem ha hu)
    (fun a ha ↦ ne_of_mem_of_not_mem ha hv) (stops r) (stops s) h
  exact ⟨same, (List.cons.inj rest).2⟩

/-! ### Operators and methods -/

theorem Method.open_notMem_name (m : Method) : '(' ∉ m.name.toList := by
  cases m <;> decide

theorem Method.name_inj {m m' : Method} (h : m.name.toList = m'.name.toList) : m = m' := by
  revert h
  cases m <;> cases m' <;> decide

theorem BinaryOp.blank_notMem_symbol (op : BinaryOp) : ' ' ∉ op.symbol.toList := by
  cases op <;> decide

theorem BinaryOp.symbol_inj {op op' : BinaryOp} (h : op.symbol.toList = op'.symbol.toList) :
    op = op' := by
  revert h
  cases op <;> cases op' <;> decide

/-! ### Ends of expressions -/

/-- What follows an atom that is not the last word of a text. -/
def Breaks (r : List Char) : Prop := ∀ c ∈ r.head?, c ∈ [' ', ',', ')', '.', '\n']

/-- What follows an expression: it goes on with no method and no operator. -/
structure Ends (r : List Char) : Prop where
  head : ∀ c ∈ r.head?, c ∈ [' ', ',', ')', '\n']
  stops : ∀ op : BinaryOp, ¬ op.chars <+: r

/-- An expression can be read, up to the grouping of its operators, in front of whatever ends it. -/
def Expr.Reads (e : Expr) : Prop :=
  ∀ ⦃e' : Expr⦄ ⦃r r' : List Char⦄, e.IsLegible expressionWords → e'.IsLegible expressionWords →
    Ends r → Ends r' → e.chars ++ r = e'.chars ++ r' → e.regroup = e'.regroup ∧ r = r'

theorem Ends.breaks {r : List Char} (h : Ends r) : Breaks r := by
  have among : [' ', ',', ')', '\n'] ⊆ [' ', ',', ')', '.', '\n'] := by decide
  exact fun c hc ↦ among (h.head c hc)

theorem ends_of_blank {r : List Char} (h : ∀ op : BinaryOp, ¬ op.symbol.toList ++ [' '] <+: r) :
    Ends (' ' :: r) := by
  constructor
  · intro c hc
    cases hc
    exact .head _
  · intro op hp
    exact h op (List.cons_prefix_cons.mp hp).2

theorem ends_of_mem {c : Char} (hc : c ∈ [',', ')', '\n']) (r : List Char) : Ends (c :: r) := by
  constructor
  · intro d hd
    cases hd
    exact .tail _ hc
  · intro op hp
    rw [← (List.cons_prefix_cons.mp hp).1] at hc
    revert hc
    decide

theorem ends_moreChars (es : List Expr) (r : List Char) : Ends (moreChars es ++ ')' :: r) := by
  cases es with
  | nil => exact ends_of_mem (by decide) r
  | cons e rest => exact ends_of_mem (by decide) _

/-! ### First characters -/

namespace Atom

theorem plain_word {a : Atom} (h : a.IsLegible) : ∀ c ∈ a.word.toList, c ∉ signs := by
  cases a with
  | ident name => exact h.plain
  | text value => exact fun _ hc ↦ nomatch hc
  | number digits =>
    intro c hc
    exact not_mem_signs_of_isAlphanum (by rw [Char.isAlphanum, h.2 c hc, Bool.or_true])
  | flag value =>
    have letters : ∀ c ∈ (flag value).word.toList, c.isAlphanum = true :=
      List.all_eq_true.mp (by cases value <;> decide)
    exact fun c hc ↦ not_mem_signs_of_isAlphanum (letters c hc)
  | call name args => exact h.1.plain
  | error payload =>
    have letters : ∀ c ∈ "err".toList, c.isAlphanum = true := List.all_eq_true.mp (by decide)
    exact fun c hc ↦ not_mem_signs_of_isAlphanum (letters c hc)

theorem sign_of_mem_head? {a : Atom} {r : List Char} (hr : Breaks r) :
    ∀ c ∈ (a.afterWord ++ r).head?, ¬ c ∉ signs := by
  intro c hc
  apply Decidable.not_not.mpr
  cases a with
  | ident | number | flag =>
    have among : [' ', ',', ')', '.', '\n'] ⊆ signs := by decide
    exact among (hr c hc)
  | text | call | error =>
    cases hc
    decide

/-- The kinds of atoms. -/
inductive Kind where
  | ident | text | number | flag | call | error

/-- The kind of an atom. -/
def kind : Atom → Kind
  | .ident _ => .ident
  | .text _ => .text
  | .number _ => .number
  | .flag _ => .flag
  | .call _ _ => .call
  | .error _ => .error

/-- The kind of the atom that starts with a word, told from the word and what follows it. -/
def kindOf (word : String) (rest : List Char) : Kind :=
  if rest.head? = some '(' then
    if word = "err" then .error else .call
  else if word = "" then .text
  else if word = "true" ∨ word = "false" then .flag
  else if word.toList.head?.any Char.isDigit then .number
  else .ident

theorem word_ne_empty {a : Atom} (h : a.IsLegible) (hk : a.kind ≠ .text) : a.word ≠ "" := by
  cases a with
  | text value => exact (hk rfl).elim
  | ident name => exact h.ne_empty
  | number digits => exact h.1
  | flag value => cases value <;> decide
  | call name args => exact h.1.ne_empty
  | error payload =>
    show "err" ≠ ""
    decide

/-- The kind of an atom can be told from its text and what follows it. -/
theorem kindOf_word {a : Atom} {r : List Char} (h : a.IsLegible) (hr : Breaks r) :
    kindOf a.word (a.afterWord ++ r) = a.kind := by
  have closed : r.head? ≠ some '(' := by
    intro hp
    have among := hr '(' hp
    revert among
    decide
  cases a with
  | ident name =>
    obtain ⟨c, hc, start⟩ := h.start
    have first : name.toList.head? = some c := hc
    have free := h.free
    simp only [expressionWords, List.mem_cons, not_or] at free
    simp [kindOf, word, afterWord, kind, closed, free, h.ne_empty, first, start]
  | text value => rfl
  | number digits =>
    have first : digits.toList.head?.any Char.isDigit = true := by
      cases hd : digits.toList with
      | nil => exact (h.1 (String.toList_eq_nil_iff.mp hd)).elim
      | cons c rest => exact h.2 c (by rw [hd]; exact .head _)
    have unflagged : digits ≠ "true" ∧ digits ≠ "false" := by
      constructor <;> (rintro rfl; revert first; decide)
    simp [kindOf, word, afterWord, kind, closed, h.1, unflagged, first]
  | flag value => cases value <;> simp [word, afterWord, kindOf, kind, closed]
  | call name args =>
    have free : name ≠ "err" := fun err ↦ h.1.free (by rw [err]; exact .head _)
    simp [kindOf, word, afterWord, kind, argChars, free]
  | error payload => simp [word, afterWord, kindOf, kind]

/-- An atom starts with a quote or with no sign. -/
theorem exists_first {a : Atom} (h : a.IsLegible) :
    ∃ c t, a.chars = c :: t ∧ (c ∈ signs → c = '\x27') := by
  cases hw : a.word.toList with
  | cons c t =>
    have plain : c ∉ signs := plain_word h c (by rw [hw]; exact .head _)
    exact ⟨c, t ++ a.afterWord, by rw [chars, hw, List.cons_append], fun hs ↦ (plain hs).elim⟩
  | nil =>
    have none : a.word = "" := String.toList_eq_nil_iff.mp hw
    cases a with
    | text value => exact ⟨_, _, rfl, fun _ ↦ rfl⟩
    | ident | number | flag | call | error =>
      refine (word_ne_empty h ?_ none).elim
      intro kind
      cases kind

end Atom

namespace Expr

/-- An expression starts with a quote or with no sign. -/
theorem exists_first {e : Expr} (h : e.IsLegible expressionWords) :
    ∃ c t, e.chars = c :: t ∧ (c ∈ signs → c = '\x27') := by
  obtain ⟨c, t, hc, quote⟩ := Atom.exists_first (legible_parts h).1
  exact ⟨c, t ++ e.suffixes.flatMap Suffix.chars, by rw [chars_eq, hc, List.cons_append], quote⟩

end Expr

/-! ### Reading -/

theorem moreChars_inj {es es' : List Expr} {r r' : List Char} (reads : ∀ e ∈ es, e.Reads)
    (h : Expr.AreLegible expressionWords es) (h' : Expr.AreLegible expressionWords es')
    (same : moreChars es ++ ')' :: r = moreChars es' ++ ')' :: r') :
    Expr.regroupAll es = Expr.regroupAll es' ∧ r = r' := by
  induction es generalizing es' with
  | nil =>
    cases es' with
    | nil => exact ⟨rfl, (List.cons.inj same).2⟩
    | cons => exact nomatch (List.cons.inj same).1
  | cons e es ih =>
    cases es' with
    | nil => exact nomatch (List.cons.inj same).1
    | cons e' es' =>
      simp only [moreChars, List.flatMap_cons, List.cons_append, List.append_assoc,
        List.cons.injEq, true_and] at same
      obtain ⟨first, rest⟩ := reads e (.head _) h.1 h'.1 (ends_moreChars es r)
        (ends_moreChars es' r') same
      obtain ⟨others, ends⟩ := ih (fun x hx ↦ reads x (.tail _ hx)) h.2 h'.2 rest
      exact ⟨by rw [Expr.regroupAll, Expr.regroupAll, first, others], ends⟩

theorem argChars_inj {args args' : List Expr} {r r' : List Char} (reads : ∀ e ∈ args, e.Reads)
    (h : Expr.AreLegible expressionWords args) (h' : Expr.AreLegible expressionWords args')
    (same : argChars args ++ r = argChars args' ++ r') :
    Expr.regroupAll args = Expr.regroupAll args' ∧ r = r' := by
  -- A bracket that is closed at once is told from an argument by the first character.
  have empty {e : Expr} {rest : List Expr} {r s : List Char} (h : e.IsLegible expressionWords) :
      argChars [] ++ r ≠ argChars (e :: rest) ++ s := by
    intro same
    obtain ⟨c, t, hc, quote⟩ := Expr.exists_first h
    rw [argChars_nil, argChars_cons, hc] at same
    have closing : ')' = c := (List.cons.inj (List.cons.inj same).2).1
    rw [← closing] at quote
    exact absurd (quote (by decide)) (by decide)
  cases args with
  | nil =>
    cases args' with
    | nil => exact ⟨rfl, List.append_cancel_left same⟩
    | cons e' rest' => exact (empty h'.1 same).elim
  | cons e rest =>
    cases args' with
    | nil => exact (empty h.1 same.symm).elim
    | cons e' rest' =>
      simp only [argChars_cons, List.cons_append, List.append_assoc, List.cons.injEq, true_and,
        List.nil_append] at same
      obtain ⟨first, same⟩ := reads e (.head _) h.1 h'.1 (ends_moreChars rest r)
        (ends_moreChars rest' r') same
      obtain ⟨others, ends⟩ := moreChars_inj (fun x hx ↦ reads x (.tail _ hx)) h.2 h'.2 same
      exact ⟨by rw [Expr.regroupAll, Expr.regroupAll, first, others], ends⟩

/-- An atom can be read in front of whatever does not go on with its word. -/
theorem Atom.chars_inj {a a' : Atom} {r r' : List Char} (reads : ∀ e ∈ a.inner, e.Reads)
    (h : a.IsLegible) (h' : a'.IsLegible) (hr : Breaks r) (hr' : Breaks r')
    (same : a.chars ++ r = a'.chars ++ r') : a.regroup = a'.regroup ∧ r = r' := by
  rw [chars, chars, List.append_assoc, List.append_assoc] at same
  obtain ⟨words, after⟩ := cut_unique (plain_word h) (plain_word h') (sign_of_mem_head? hr)
    (sign_of_mem_head? hr') same
  replace words := String.toList_inj.mp words
  -- The words and what follows them are the same, so only atoms of one kind are left to compare.
  have kinds : a.kind = a'.kind := by rw [← kindOf_word h hr, ← kindOf_word h' hr', words, after]
  cases a with
  | ident name =>
    cases a' with
    | ident name' => exact ⟨congrArg ident words, after⟩
    | _ => cases kinds
  | text value =>
    cases a' with
    | text value' =>
      simp only [afterWord, List.cons_append, List.append_assoc, List.nil_append, List.cons.injEq,
        true_and] at after
      obtain ⟨values, rest⟩ := cut_unique_at h h' after
      exact ⟨congrArg text (String.toList_inj.mp values), rest⟩
    | _ => cases kinds
  | number digits =>
    cases a' with
    | number digits' => exact ⟨congrArg number words, after⟩
    | _ => cases kinds
  | flag value =>
    cases a' with
    | flag value' =>
      have flags : ∀ v v' : Bool, (flag v).word = (flag v').word → v = v' := by decide
      exact ⟨congrArg flag (flags value value' words), after⟩
    | _ => cases kinds
  | call name args =>
    cases a' with
    | call name' args' =>
      obtain ⟨all, rest⟩ : Expr.regroupAll args = Expr.regroupAll args' ∧ r = r' :=
        argChars_inj reads h.2 h'.2 after
      exact ⟨congrArg₂ call words all, rest⟩
    | _ => cases kinds
  | error payload =>
    cases a' with
    | error payload' =>
      simp only [afterWord, List.cons_append, List.append_assoc, List.nil_append, List.cons.injEq,
        true_and] at after
      have closing (r : List Char) : Ends (')' :: r) := ends_of_mem (by decide) r
      obtain ⟨payloads, rest⟩ : payload.regroup = payload'.regroup ∧ ')' :: r = ')' :: r' :=
        reads payload (.head _) h h' (closing r) (closing r') after
      exact ⟨congrArg error payloads, (List.cons.inj rest).2⟩
    | _ => cases kinds

/-- A suffix can be read in front of whatever does not go on with its last word. -/
theorem Suffix.chars_inj {x x' : Suffix} {r r' : List Char} (reads : ∀ e ∈ x.inner, e.Reads)
    (h : x.IsLegible) (h' : x'.IsLegible) (hr : Breaks r) (hr' : Breaks r')
    (same : x.chars ++ r = x'.chars ++ r') : x.regroup = x'.regroup ∧ r = r' := by
  cases x with
  | invoke method args =>
    cases x' with
    | operand op' atom' => exact absurd (List.cons.inj same).1 (by decide)
    | invoke method' args' =>
      simp only [chars, List.cons_append, List.append_assoc, List.cons.injEq, true_and] at same
      obtain ⟨names, after⟩ := cut_unique_at method.open_notMem_name method'.open_notMem_name same
      obtain ⟨all, rest⟩ : Expr.regroupAll args = Expr.regroupAll args' ∧ r = r' :=
        argChars_inj reads h h' (congrArg ('(' :: ·) after)
      exact ⟨congrArg₂ invoke (Method.name_inj names) all, rest⟩
  | operand op atom =>
    cases x' with
    | invoke method' args' => exact absurd (List.cons.inj same).1 (by decide)
    | operand op' atom' =>
      simp only [chars, BinaryOp.chars, List.cons_append, List.append_assoc, List.cons.injEq,
        true_and, List.nil_append] at same
      obtain ⟨symbols, same⟩ := cut_unique_at op.blank_notMem_symbol op'.blank_notMem_symbol same
      obtain ⟨atoms, rest⟩ := Atom.chars_inj reads h h' hr hr' same
      exact ⟨congrArg₂ operand (BinaryOp.symbol_inj symbols) atoms, rest⟩

/-- Nothing that ends an expression starts like a suffix. -/
theorem Suffix.not_ends (x : Suffix) (r : List Char) : ¬ Ends (x.chars ++ r) := by
  intro h
  cases x with
  | invoke method args =>
    have among := h.head '.' rfl
    revert among
    decide
  | operand op atom =>
    apply h.stops op
    rw [chars, List.append_assoc]
    exact List.prefix_append _ _

theorem breaks_suffixes {r : List Char} (hr : Ends r) (ss : List Suffix) :
    Breaks (ss.flatMap Suffix.chars ++ r) := by
  cases ss with
  | nil => exact hr.breaks
  | cons s rest =>
    intro c hc
    cases s with
    | invoke | operand =>
      cases hc
      decide

/-- The suffixes of an expression can be read in front of whatever ends the expression. -/
theorem suffixes_inj {ss ss' : List Suffix} {r r' : List Char}
    (reads : ∀ s ∈ ss, ∀ e ∈ s.inner, e.Reads) (h : ∀ s ∈ ss, s.IsLegible)
    (h' : ∀ s ∈ ss', s.IsLegible) (hr : Ends r) (hr' : Ends r')
    (same : ss.flatMap Suffix.chars ++ r = ss'.flatMap Suffix.chars ++ r') :
    ss.map Suffix.regroup = ss'.map Suffix.regroup ∧ r = r' := by
  induction ss generalizing ss' with
  | nil =>
    cases ss' with
    | nil => exact ⟨rfl, same⟩
    | cons s' ss' =>
      rw [List.flatMap_nil, List.nil_append, List.flatMap_cons, List.append_assoc] at same
      exact (s'.not_ends _ (same ▸ hr)).elim
  | cons s ss ih =>
    cases ss' with
    | nil =>
      rw [List.flatMap_nil, List.nil_append, List.flatMap_cons, List.append_assoc] at same
      exact (s.not_ends _ (same ▸ hr')).elim
    | cons s' ss' =>
      rw [List.flatMap_cons, List.flatMap_cons, List.append_assoc, List.append_assoc] at same
      obtain ⟨first, same⟩ := Suffix.chars_inj (reads s (.head _)) (h s (.head _))
        (h' s' (.head _)) (breaks_suffixes hr ss) (breaks_suffixes hr' ss') same
      obtain ⟨others, rest⟩ := ih (fun x hx ↦ reads x (.tail _ hx)) (fun x hx ↦ h x (.tail _ hx))
        (fun x hx ↦ h' x (.tail _ hx)) same
      exact ⟨by rw [List.map_cons, List.map_cons, first, others], rest⟩

namespace Expr

/-- An expression can be read if the expressions between its brackets can. -/
theorem reads_of_inner {e : Expr} (h : ∀ x ∈ e.inner, x.Reads) : e.Reads := by
  intro e' r r' he he' hr hr' same
  rw [inner_eq, List.forall_mem_append] at h
  obtain ⟨inHead, inSuffixes⟩ := h
  obtain ⟨first, goes⟩ := legible_parts he
  obtain ⟨first', goes'⟩ := legible_parts he'
  rw [chars_eq, chars_eq, List.append_assoc, List.append_assoc] at same
  obtain ⟨heads, same⟩ := Atom.chars_inj inHead first first' (breaks_suffixes hr e.suffixes)
    (breaks_suffixes hr' e'.suffixes) same
  obtain ⟨tails, rest⟩ := suffixes_inj
    (fun s hs x hx ↦ inSuffixes x (List.mem_flatMap.mpr ⟨s, hs, hx⟩)) goes goes' hr hr' same
  exact ⟨by rw [regroup_eq_foldl, regroup_eq_foldl, heads, tails], rest⟩

-- The recursion goes down to the brackets: an operation has the brackets of its operands.
mutual

theorem reads_inner : ∀ e : Expr, ∀ x ∈ e.inner, x.Reads
  | .ident _ | .literal _ => fun _ hx ↦ nomatch hx
  | .binary left _ right => List.forall_mem_append.mpr ⟨reads_inner left, reads_inner right⟩
  | .call _ args => reads_all args
  | .invoke object _ args => List.forall_mem_append.mpr ⟨reads_inner object, reads_all args⟩
  | .error payload => List.forall_mem_singleton.mpr (reads_of_inner (reads_inner payload))

theorem reads_all : ∀ es : List Expr, ∀ x ∈ es, x.Reads
  | [] => fun _ hx ↦ nomatch hx
  | e :: rest => List.forall_mem_cons.mpr ⟨reads_of_inner (reads_inner e), reads_all rest⟩

end

/-- The text of an expression shows the expression up to the grouping of its operators, and where
it ends. -/
theorem reads (e : Expr) : e.Reads := reads_of_inner (reads_inner e)

end Expr

end ChainPlan
