import ChainPlan.Json.Basic
import ChainPlan.Spelling
import ChainPlan.Text.Decimal

/-! # Reading values from documents

Settings, elements and plans are read from documents of more than one format. A document shows what
it is (`view`), and answers what it is where a text, a list or a record is wanted, which formats
decide differently. Records are read field by field in the order in which they are written, and the
first error counts; a field that is not written keeps its default.
-/

namespace ChainPlan

/-- A cause for which a document does not write the value that is wanted. -/
inductive DecodeError where
  /-- A word is no spelling of a setting. -/
  | unknownWord (given : String) (known : List String)
  /-- A record has a field that does not belong to it. -/
  | unknownField (name : String)
  /-- A record lacks a field that has no default. -/
  | missingField (name : String)
  /-- A record has a field twice. -/
  | repeatedField (name : String)
  /-- A text stands where a set of fields is wanted and is not the wildcard. -/
  | noFieldSet (found : String)
  /-- A side of a plan has more than one element. -/
  | crowdedSide (count : Nat)
  /-- The value is of the wrong kind. -/
  | wrongKind
  deriving DecidableEq, Repr

/-- A text as it stands in messages. -/
def ticked (s : String) : String := "\x60" ++ s ++ "\x60"

/-- Alternatives as they stand in messages. -/
def alternatives : List String → String
  | [] => "there are none"
  | [a] => "expected " ++ ticked a
  | [a, b] => "expected " ++ ticked a ++ " or " ++ ticked b
  | many => "expected one of " ++ ", ".intercalate (many.map ticked)

/-- The wording of an error of reading. -/
def DecodeError.message : DecodeError → String
  | .unknownWord given known => s!"unknown variant {ticked given}, {alternatives known}"
  | .unknownField name => s!"unknown field {ticked name}"
  | .missingField name => s!"missing field {ticked name}"
  | .repeatedField name => s!"duplicate field {ticked name}"
  | .noFieldSet found => "expected a list of fields or \"*\", found \"" ++ found ++ "\""
  | .crowdedSide count => s!"invalid length {count}, expected at most one element"
  | .wrongKind => "unexpected kind of value"

/-- What a document is. -/
inductive View (α : Type) where
  /-- Something that stands for no value, or a record whose keys are no names. -/
  | invalid
  | null
  | bool (value : Bool)
  | num (value : Number)
  | str (value : String)
  | list (items : List α)
  | record (fields : List (String × α))

/-- The names of the fields of a record: those that have to be there, which come first, and those
that may be left out. -/
structure FieldNames where
  required : List String
  optional : List String

namespace FieldNames

/-- Every name, in order. -/
def all (names : FieldNames) : List String := names.required ++ names.optional

end FieldNames

/-- The fields that a document writes where a record is wanted. -/
structure WrittenFields (α : Type) where
  fields : List (String × α)
  /-- Whether the record has a place for all that is written, and all that it needs has one. -/
  fitsRecord : Bool

/-- A format in which values are written. -/
class Document (α : Type) where
  /-- What the document is. -/
  view : α → View α
  /-- The text that the document is where a text is wanted. -/
  text? : α → Option String
  /-- The items that the document is where a list is wanted. -/
  items? : α → Option (List α)
  /-- The fields that the document is where a record with these names is wanted. -/
  fields? : FieldNames → α → Option (WrittenFields α)

/-- The fields that a list writes by their positions: none of the required ones is left out, and
there are no more than all. -/
def positionalFields {α : Type} (names : FieldNames) (items : List α) : WrittenFields α where
  fields := names.all.zip items
  fitsRecord := names.required.length ≤ items.length && items.length ≤ names.all.length

/-- JSON values are taken as they are, and a record may be written as a list of its values. -/
instance : Document Json where
  view
    | .invalid => .invalid
    | .null => .null
    | .bool b => .bool b
    | .num n => .num n
    | .str s => .str s
    | .arr items => .list items
    | .obj fields => .record fields
  text?
    | .str s => some s
    | _ => none
  items?
    | .arr items => some items
    | _ => none
  fields? names
    | .obj fields => some ⟨fields, true⟩
    | .arr items => some (positionalFields names items)
    | _ => none

namespace Decode

variable {α : Type} [Document α]

/-- A truth value. -/
def bool (d : α) : Except DecodeError Bool :=
  match Document.view d with
  | .bool b => .ok b
  | _ => .error .wrongKind

/-- A text. -/
def text (d : α) : Except DecodeError String :=
  match Document.text? d with
  | some s => .ok s
  | none => .error .wrongKind

/-- A text that may be left empty by writing null. -/
def textOrNull (d : α) : Except DecodeError (Option String) :=
  match Document.view d with
  | .null => .ok none
  | _ => (text d).map some

/-- A text that is written as a text, whatever the format takes for one elsewhere. -/
def plainText (d : α) : Except DecodeError String :=
  match Document.view d with
  | .str s => .ok s
  | _ => .error .wrongKind

/-- A natural number. -/
def natural (d : α) : Except DecodeError Nat :=
  match Document.view d with
  | .num (.int (.ofNat n)) => .ok n
  | _ => .error .wrongKind

/-- A number of any kind. -/
def real (d : α) : Except DecodeError Float :=
  match Document.view d with
  | .num (.int n) => .ok (Decimal.toFloat ⟨n < 0, n.natAbs, 0⟩)
  | .num (.real x) => .ok x
  | _ => .error .wrongKind

/-- A word of a setting, read loosely. -/
def word {β : Type} [Spelled β] (d : α) : Except DecodeError β := do
  let s ← text d
  match Spelled.ofLooseText? s with
  | some b => return b
  | none => throw (.unknownWord (trimBlank s) (Spelled.names β))

/-- A list of values. -/
def list {β : Type} (item : α → Except DecodeError β) (d : α) : Except DecodeError (List β) :=
  match Document.items? d with
  | some items => items.mapM item
  | none => .error .wrongKind

/-- How one field of a record changes the value read so far. -/
abbrev FieldStep (α β : Type) := β → α → Except DecodeError β

/-- The step that reads a value and puts it in. -/
def into {β γ : Type} (read : α → Except DecodeError γ) (put : β → γ → β) : FieldStep α β :=
  fun b d ↦ (read d).map (put b)

/-- What is done with fields that do not belong to a record. -/
inductive Strangers where
  | ignored
  | refused
  deriving DecidableEq, Repr

/-- The value after reading fields one by one; no field that belongs to it may come twice. -/
def foldFields {β : Type} (strangers : Strangers) (steps : List (String × FieldStep α β)) :
    List String → β → List (String × α) → Except DecodeError β
  | _, b, [] => .ok b
  | seen, b, (name, d) :: rest =>
    match steps.lookup name with
    | some step =>
      if seen.contains name then .error (.repeatedField name)
      else
        match step b d with
        | .ok b' => foldFields strangers steps (name :: seen) b' rest
        | .error e => .error e
    | none =>
      match strangers with
      | .ignored => foldFields strangers steps seen b rest
      | .refused => .error (.unknownField name)

/-- The first required field that is not among some fields. -/
def firstMissing? (names : FieldNames) (fields : List (String × α)) : Option String :=
  names.required.find? fun n ↦ !(fields.map Prod.fst).contains n

/-- A record read by a step for each of its fields, the first `required` of which have to be there,
starting from the value that has all defaults. -/
def readRecord {β : Type} (strangers : Strangers) (required : Nat)
    (steps : List (String × FieldStep α β)) (start : β) (d : α) : Except DecodeError β :=
  let names : FieldNames :=
    ⟨(steps.take required).map Prod.fst, (steps.drop required).map Prod.fst⟩
  match Document.fields? names d with
  | none => .error .wrongKind
  | some written => do
    let b ← foldFields strangers steps [] start written.fields
    if !written.fitsRecord then throw .wrongKind
    match firstMissing? names written.fields with
    | some name => throw (.missingField name)
    | none => return b

end Decode

end ChainPlan
