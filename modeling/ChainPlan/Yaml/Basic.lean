import ChainPlan.Document

/-! # YAML values

The part of YAML that configuration files use: lists, records, and scalars, quoted or plain. Any
value may be a key, but only a scalar names a field. A plain scalar keeps its text, since its
meaning hangs on what is wanted: it is a text where a text is wanted, and else what the core schema
takes it for, so that `0x1F` is a number and `yes` a text. Nothing at all is null, and also an empty
list or record where one is wanted.
-/

namespace ChainPlan

/-- A YAML value. -/
inductive Yaml where
  /-- A scalar without quotes; the empty text is a value that is left out. -/
  | plain (text : String)
  | quoted (text : String)
  | list (items : List Yaml)
  | record (fields : List (Yaml × Yaml))
  deriving Repr

/-- What the core schema takes a plain scalar for. -/
inductive PlainMeaning where
  | null
  | bool (value : Bool)
  | int (value : Int)
  | real (value : Float)
  | text

namespace PlainMeaning

/-- The value of a digit in bases up to sixteen. -/
def digitValue? (c : Char) : Option Nat :=
  if c.isDigit then some (c.toNat - '0'.toNat)
  else if 'a' ≤ c && c ≤ 'f' then some (c.toNat - 'a'.toNat + 10)
  else if 'A' ≤ c && c ≤ 'F' then some (c.toNat - 'A'.toNat + 10)
  else none

/-- The number that a text of digits writes in a base. -/
def natInBase? (base : Nat) (cs : List Char) : Option Nat :=
  if !cs.isEmpty && cs.all fun c ↦ (digitValue? c).any fun d ↦ d < base then
    some (Decimal.ofDigits base (fun c ↦ (digitValue? c).getD 0) cs)
  else none

/-- The number that a text without sign writes, with the mark of a base or in decimal; zeros in
front of decimal digits make it a text. -/
def magnitude? (cs : List Char) : Option Nat :=
  match cs with
  | '0' :: 'x' :: rest => natInBase? 16 rest
  | '0' :: 'o' :: rest => natInBase? 8 rest
  | '0' :: 'b' :: rest => natInBase? 2 rest
  | '0' :: _ :: _ => none
  | _ => natInBase? 10 cs

/-- The whole number that a text writes; decimal digits that do not fit 128 bits write none. -/
def int? (cs : List Char) : Option Int :=
  let value :=
    match cs with
    | '+' :: rest => (magnitude? rest).map fun n ↦ (n : Int)
    | '-' :: rest => (magnitude? rest).map fun n ↦ -(n : Int)
    | _ => (magnitude? cs).map fun n ↦ (n : Int)
  value.filter fun n ↦ -(Nat.pow 2 127 : Int) ≤ n && n < Nat.pow 2 128

/-- Whether a text is a zero with more digits behind it, up to a sign. -/
def isZeroPadded (cs : List Char) : Bool :=
  match cs with
  | '+' :: '0' :: d :: rest | '-' :: '0' :: d :: rest => (d :: rest).all Char.isDigit
  | '0' :: d :: rest => (d :: rest).all Char.isDigit
  | _ => false

/-- The finite real number that a text without sign writes. -/
def unsignedReal? (negative : Bool) (cs : List Char) : Option Float :=
  let (whole, fraction, rest) := Decimal.split cs
  let digits := fraction.getD []
  if whole.isEmpty && digits.isEmpty then none
  else
    (Decimal.exponent? rest).bind fun e ↦
      let x := (Decimal.ofParts negative whole digits e).toFloat
      if x.isFinite then some x else none

/-- The real number that a text writes, which may be infinite or no number by name. -/
def real? (cs : List Char) : Option Float :=
  let infinities := [".inf", ".Inf", ".INF"]
  let s := String.ofList cs
  if infinities.contains s || (infinities.map ("+" ++ ·)).contains s then some (1 / 0)
  else if (infinities.map ("-" ++ ·)).contains s then some (-1 / 0)
  else if [".nan", ".NaN", ".NAN"].contains s then some (0 / 0)
  else
    match cs with
    | '+' :: rest => unsignedReal? false rest
    | '-' :: rest => unsignedReal? true rest
    | _ => unsignedReal? false cs

/-- The meaning of a plain scalar. -/
def ofText (s : String) : PlainMeaning :=
  if ["", "null", "Null", "NULL", "~"].contains s then .null
  else if ["true", "True", "TRUE"].contains s then .bool true
  else if ["false", "False", "FALSE"].contains s then .bool false
  else
    match int? s.toList with
    | some n => .int n
    | none =>
      if isZeroPadded s.toList then .text
      else
        match real? s.toList with
        | some x => .real x
        | none => .text

end PlainMeaning

namespace Yaml

/-- The text of a scalar. -/
def text? : Yaml → Option String
  | .plain s => some s
  | .quoted s => some s
  | _ => none

/-- The fields of a record by their names, if every key names a field. -/
def namedFields? (fields : List (Yaml × Yaml)) : Option (List (String × Yaml)) :=
  fields.mapM fun (key, v) ↦ key.text?.map fun name ↦ (name, v)

end Yaml

/-- A scalar is a text where a text is wanted; nothing is an empty list or record where one is. -/
instance : Document Yaml where
  view
    | .plain s =>
      match PlainMeaning.ofText s with
      | .null => .null
      | .bool b => .bool b
      | .int n => .num (.int n)
      | .real x => .num (.real x)
      | .text => .str s
    | .quoted s => .str s
    | .list items => .list items
    | .record fields =>
      match Yaml.namedFields? fields with
      | some named => .record named
      | none => .invalid
  text? := Yaml.text?
  items?
    | .list items => some items
    | .plain "" => some []
    | _ => none
  fields? _
    | .record fields => (Yaml.namedFields? fields).map fun named ↦ ⟨named, true⟩
    | .plain "" => some ⟨[], true⟩
    | _ => none

/-- What is wrong with a text that is no YAML, or writes more than is wanted. -/
inductive YamlFault where
  | controlCharacter
  | unexpectedEnd
  | unexpectedText
  | misplacedKey
  | misplacedItem
  | badIndentation
  | unsupported
  | badEscape
  | severalDocuments
  | tooDeep
  | numberOutOfRange
  | unnamedField
  deriving DecidableEq, Repr

/-- The wording of a fault. -/
def YamlFault.message : YamlFault → String
  | .controlCharacter => "control characters are not allowed"
  | .unexpectedEnd => "unexpected end of text"
  | .unexpectedText => "unexpected text behind a value"
  | .misplacedKey => "a key is not allowed here"
  | .misplacedItem => "a list item is not allowed here"
  | .badIndentation => "a line is indented like nothing above it"
  | .unsupported => "found a character that cannot start a value"
  | .badEscape => "unknown escape in quoted text"
  | .severalDocuments => "more than one document"
  | .tooDeep => "nested too deeply"
  | .numberOutOfRange => "number out of range"
  | .unnamedField => "a key is no text"

namespace Yaml

/-- The whole number as a JSON value, if it fits 64 bits. -/
def jsonInt (n : Int) : Except YamlFault Json :=
  if -(Nat.pow 2 63 : Int) ≤ n && n < Nat.pow 2 64 then .ok (.num (.int n))
  else .error .numberOutOfRange

/-- The scalar as a JSON value, which has no numbers that are not finite. -/
def jsonPlain (s : String) : Except YamlFault Json :=
  match PlainMeaning.ofText s with
  | .null => .ok .null
  | .bool b => .ok (.bool b)
  | .int n => jsonInt n
  | .real x => .ok (if x.isFinite then .num (.real x) else .null)
  | .text => .ok (.str s)

mutual

/-- The JSON value that the YAML value writes, with containers nested at most `depth` deep. -/
def toJson (depth : Nat) : Yaml → Except YamlFault Json
  | .plain s => jsonPlain s
  | .quoted s => .ok (.str s)
  | .list items =>
    if depth = 0 then .error .tooDeep else (toJsonItems (depth - 1) items).map .arr
  | .record fields =>
    if depth = 0 then .error .tooDeep else (toJsonFields (depth - 1) fields).map .obj

/-- The JSON values that some values write. -/
def toJsonItems (depth : Nat) : List Yaml → Except YamlFault (List Json)
  | [] => .ok []
  | v :: rest => do
    let item ← v.toJson depth
    let items ← toJsonItems depth rest
    return item :: items

/-- The JSON fields that some fields write. -/
def toJsonFields (depth : Nat) : List (Yaml × Yaml) → Except YamlFault (List (String × Json))
  | [] => .ok []
  | (key, v) :: rest =>
    match key.text? with
    | none => .error .unnamedField
    | some name => do
      let value ← v.toJson depth
      let fields ← toJsonFields depth rest
      return (name, value) :: fields

end

end Yaml

end ChainPlan
