import ChainPlan.Proofs.Regrouping

/-! # Phrases

An expression as its text shows it: a first atom, and what the text goes on with, which is a call of
a method or an operator with another atom. Atoms are what has no operand in front of its brackets,
if it has brackets. The text of an expression is that of its parts one behind the other, and to
regroup an expression is to attach the parts one after the other.
-/

namespace ChainPlan

/-! ### Texts as lists of characters -/

/-- The characters of the text of an expression. -/
def Expr.chars (e : Expr) : List Char := e.render.toList

/-- The characters of arguments, in brackets. -/
def argChars (args : List Expr) : List Char :=
  '(' :: ((", ".intercalate (Expr.renderAll args)).toList ++ [')'])

/-- The characters of an operator, with the blanks around it. -/
def BinaryOp.chars (op : BinaryOp) : List Char := ' ' :: (op.symbol.toList ++ [' '])

/-- The characters of arguments behind the first one. -/
def moreChars (args : List Expr) : List Char := args.flatMap fun e ↦ ',' :: ' ' :: e.chars

theorem argChars_nil : argChars [] = ['(', ')'] := by
  rfl

theorem argChars_cons (e : Expr) (rest : List Expr) :
    argChars (e :: rest) = '(' :: (e.chars ++ (moreChars rest ++ [')'])) := by
  have list (e : Expr) : (", ".intercalate (Expr.renderAll (e :: rest))).toList =
      e.chars ++ moreChars rest := by
    rw [String.toList_intercalate]
    induction rest generalizing e with
    | nil => simp [Expr.renderAll, moreChars, Expr.chars]
    | cons next rest ih =>
      rw [Expr.renderAll, Expr.renderAll, List.map_cons, List.map_cons,
        List.intercalate_cons_cons, ← List.map_cons, ← Expr.renderAll, ih next]
      simp [moreChars, Expr.chars]
  rw [argChars, list, List.append_assoc]

/-! ### Parts of expressions -/

/-- What an expression starts with. -/
inductive Atom where
  | ident (name : String)
  | text (value : String)
  | number (digits : String)
  | flag (value : Bool)
  | call (name : String) (args : List Expr)
  | error (payload : Expr)

/-- What an expression goes on with. -/
inductive Suffix where
  | invoke (method : Method) (args : List Expr)
  | operand (op : BinaryOp) (atom : Atom)

namespace Atom

/-- The expression that is the atom alone. -/
def toExpr : Atom → Expr
  | .ident name => .ident name
  | .text value => .literal (.text value)
  | .number digits => .literal (.number digits)
  | .flag value => .literal (.flag value)
  | .call name args => .call name args
  | .error payload => .error payload

/-- The atom with the expressions in it regrouped. -/
def regroup : Atom → Atom
  | .call name args => .call name (Expr.regroupAll args)
  | .error payload => .error payload.regroup
  | a => a

/-- The word that the text of the atom starts with, if it is not in quotes. -/
def word : Atom → String
  | .ident name => name
  | .text _ => ""
  | .number digits => digits
  | .flag value => if value then "true" else "false"
  | .call name _ => name
  | .error _ => "err"

/-- What follows the word in the text of the atom. -/
def afterWord : Atom → List Char
  | .text value => '\x27' :: (value.toList ++ ['\x27'])
  | .call _ args => argChars args
  | .error payload => '(' :: (payload.chars ++ [')'])
  | _ => []

/-- The characters of the atom. -/
def chars (a : Atom) : List Char := a.word.toList ++ a.afterWord

/-- The expressions between the brackets of the atom. -/
def inner : Atom → List Expr
  | .call _ args => args
  | .error payload => [payload]
  | _ => []

theorem chars_toExpr (a : Atom) : a.toExpr.chars = a.chars := by
  cases a <;>
    simp [toExpr, Expr.chars, Expr.render, Literal.render, chars, word, afterWord, argChars]

theorem isBinary_toExpr (a : Atom) : a.toExpr.isBinary = false := by
  cases a <;> rfl

end Atom

namespace Suffix

/-- The characters of the suffix. -/
def chars : Suffix → List Char
  | .invoke method args => '.' :: (method.name.toList ++ argChars args)
  | .operand op atom => op.chars ++ atom.chars

/-- The suffix with the expressions in it regrouped. -/
def regroup : Suffix → Suffix
  | .invoke method args => .invoke method (Expr.regroupAll args)
  | .operand op atom => .operand op atom.regroup

/-- The expression with the suffix behind it, grouped to the left. -/
def attach (e : Expr) : Suffix → Expr
  | .invoke method args => e.invokeLast method args
  | .operand op atom => .binary e op atom.toExpr

/-- The expressions between the brackets of the suffix. -/
def inner : Suffix → List Expr
  | .invoke _ args => args
  | .operand _ atom => atom.inner

end Suffix

namespace Expr

/-- The first atom of the expression. -/
def head : Expr → Atom
  | .ident name => .ident name
  | .literal (.text value) => .text value
  | .literal (.number digits) => .number digits
  | .literal (.flag value) => .flag value
  | .binary left _ _ => left.head
  | .call name args => .call name args
  | .invoke object _ _ => object.head
  | .error payload => .error payload

/-- What follows the first atom of the expression. -/
def suffixes : Expr → List Suffix
  | .binary left op right => left.suffixes ++ .operand op right.head :: right.suffixes
  | .invoke object method args => object.suffixes ++ [.invoke method args]
  | .ident _ | .literal _ | .call _ _ | .error _ => []

/-- The outermost expressions between brackets. -/
def inner : Expr → List Expr
  | .binary left _ right => left.inner ++ right.inner
  | .call _ args => args
  | .invoke object _ args => object.inner ++ args
  | .error payload => [payload]
  | .ident _ | .literal _ => []

theorem chars_binary (left : Expr) (op : BinaryOp) (right : Expr) :
    (Expr.binary left op right).chars = left.chars ++ (op.chars ++ right.chars) := by
  simp [chars, render, BinaryOp.chars]

theorem chars_invoke (object : Expr) (method : Method) (args : List Expr) :
    (Expr.invoke object method args).chars =
      object.chars ++ '.' :: (method.name.toList ++ argChars args) := by
  simp [chars, render, argChars]

/-- The text of an expression is that of its parts. -/
theorem chars_eq : ∀ e : Expr, e.chars = e.head.chars ++ e.suffixes.flatMap Suffix.chars
  | .ident _ | .literal (.text _) | .literal (.number _) | .literal (.flag _) | .call _ _
  | .error _ => by
    rw [suffixes, List.flatMap_nil, List.append_nil, ← Atom.chars_toExpr]
    rfl
  | .binary left op right => by
    rw [chars_binary, chars_eq left, chars_eq right, head, suffixes, List.flatMap_append,
      List.flatMap_cons, Suffix.chars]
    simp only [List.append_assoc]
  | .invoke object method args => by
    rw [chars_invoke, chars_eq object, head, suffixes, List.flatMap_append, List.flatMap_singleton,
      Suffix.chars, List.append_assoc]

/-- The brackets in an expression are those in its parts. -/
theorem inner_eq : ∀ e : Expr, e.inner = e.head.inner ++ e.suffixes.flatMap Suffix.inner
  | .ident _ | .literal (.text _) | .literal (.number _) | .literal (.flag _) => rfl
  | .call _ _ | .error _ => by rw [suffixes, List.flatMap_nil, List.append_nil]; rfl
  | .binary left op right => by
    rw [inner, inner_eq left, inner_eq right, head, suffixes, List.flatMap_append,
      List.flatMap_cons, Suffix.inner]
    simp only [List.append_assoc]
  | .invoke object method args => by
    rw [inner, inner_eq object, head, suffixes, List.flatMap_append, List.flatMap_singleton,
      Suffix.inner, List.append_assoc]

/-- A suffix goes to the last operand of a chain. -/
theorem joinLeft_attach (left : Expr) (op : BinaryOp) (e : Expr) (s : Suffix) :
    left.joinLeft op (s.attach e) = s.attach (left.joinLeft op e) := by
  cases s with
  | operand => rfl
  | invoke method args => cases e <;> rfl

theorem joinLeft_foldl_attach (left : Expr) (op : BinaryOp) (e : Expr) (ss : List Suffix) :
    left.joinLeft op (ss.foldl Suffix.attach e) =
      ss.foldl Suffix.attach (left.joinLeft op e) := by
  induction ss generalizing e with
  | nil => rfl
  | cons s ss ih => rw [List.foldl_cons, List.foldl_cons, ih, joinLeft_attach]

/-- An expression is regrouped by attaching its suffixes one after the other. -/
theorem regroup_eq_foldl : ∀ e : Expr,
    e.regroup = (e.suffixes.map Suffix.regroup).foldl Suffix.attach e.head.regroup.toExpr
  | .ident _ | .literal (.text _) | .literal (.number _) | .literal (.flag _) | .call _ _
  | .error _ => rfl
  | .binary left op right => by
    -- The suffixes of the right operand go on with the chain of the left one.
    have single : right.head.regroup.toExpr.isBinary = false := right.head.regroup.isBinary_toExpr
    rw [regroup, regroup_eq_foldl left, regroup_eq_foldl right, joinLeft_foldl_attach,
      joinLeft_of_not_isBinary _ op single, head, suffixes, List.map_append, List.map_cons,
      List.foldl_append, List.foldl_cons]
    rfl
  | .invoke object method args => by
    rw [regroup, regroup_eq_foldl object, head, suffixes, List.map_append, List.foldl_append]
    rfl

end Expr

end ChainPlan
