import ChainPlan.Text.Blank

/-! # Closed lists of words

A setting with a fixed list of values is written the same way in configuration files, in chain
files and on the command line: by a canonical name or by one of its aliases. `ofText?` wants the
exact spelling. `ofLooseText?` is the reading of files: white space at the ends is dropped, and a
word that is no spelling as it stands is tried once more in lower case.
-/

namespace ChainPlan

/-- The values of a setting, in order, each with its canonical name and its other spellings. -/
class Spelled (α : Type) where
  /-- Every value, in the order in which they are listed to the user. -/
  all : List α
  /-- The canonical name. -/
  name : α → String
  /-- The other accepted spellings. -/
  aliases : α → List String

namespace Spelled

variable {α : Type} [Spelled α]

/-- The accepted spellings of a value, the canonical name first. -/
def spellings (a : α) : List String := name a :: aliases a

/-- The canonical names of all values. -/
def names (α : Type) [Spelled α] : List String := (all : List α).map name

/-- The value with exactly this spelling. -/
def ofText? (s : String) : Option α := all.find? fun a ↦ (spellings a).contains s

/-- The value with this spelling, up to the case of ASCII letters. -/
def ofTextAnyCase? (s : String) : Option α :=
  all.find? fun a ↦ ((spellings a).map String.toLower).contains s.toLower

/-- The value that a file means by this text: trimmed, then exact, then in lower case. -/
def ofLooseText? (s : String) : Option α :=
  let word := trimBlank s
  (ofText? word).or (ofText? word.toLower)

/-- An exact reading gives a listed value, and the text is one of its spellings. -/
theorem mem_spellings_of_ofText? {s : String} {a : α} (h : ofText? s = some a) :
    a ∈ (all : List α) ∧ s ∈ spellings a := by
  refine ⟨List.mem_of_find?_eq_some h, ?_⟩
  have := List.find?_some h
  simpa using this

end Spelled

end ChainPlan
