import ChainPlan.Json.Basic
import ChainPlan.Text.Shortest

/-! # Text of JSON values

The compact text without blanks, and the text indented by two spaces in which an empty list or
object stays on its line. A real number is written with its shortest digits, and always with a
point or an exponent, so that it reads back as a real number.
-/

namespace ChainPlan

/-- A hexadecimal digit. -/
def hexDigit (n : Nat) : Char := (Nat.digitChar n)

/-- A character as it stands inside quotes. -/
def escapeChar (c : Char) : String :=
  if c = '\x22' then "\\\""
  else if c = '\\' then "\\\\"
  else if c = '\n' then "\\n"
  else if c = '\r' then "\\r"
  else if c = '\t' then "\\t"
  else if c.toNat = 8 then "\\b"
  else if c.toNat = 12 then "\\f"
  else if c.toNat < 32 then
    "\\u00" ++ String.ofList [hexDigit (c.toNat / 16), hexDigit (c.toNat % 16)]
  else c.toString

/-- A text in quotes. -/
def quote (s : String) : String := "\"" ++ String.join (s.toList.map escapeChar) ++ "\""

/-- Where the notation of a number turns from positional to one with an exponent, and how that is
written. -/
structure RealFormat where
  /-- The largest number of digits in front of the point. -/
  maxWhole : Int
  /-- The largest number of zeros between the point and the first digit. -/
  maxZeros : Int
  /-- The sign in front of an exponent that is not negative. -/
  plus : String

/-- Real numbers are positional up to sixteen whole digits and with at most four leading zeros;
every exponent has a sign. -/
def Json.realFormat : RealFormat := ⟨16, 4, "+"⟩

/-- The text of decimal digits in a format. -/
def DecimalDigits.render (format : RealFormat) (d : DecimalDigits) : String :=
  let digits := Nat.toDigits 10 d.digits
  let point := (digits.length : Int) + d.exponent
  let zeros (n : Int) : List Char := List.replicate n.toNat '0'
  if 0 ≤ d.exponent && point ≤ format.maxWhole then
    String.ofList (digits ++ zeros d.exponent) ++ ".0"
  else if 0 < point && point ≤ format.maxWhole then
    String.ofList (digits.take point.toNat ++ '.' :: digits.drop point.toNat)
  else if -format.maxZeros ≤ point && point ≤ 0 then
    "0." ++ String.ofList (zeros (-point) ++ digits)
  else
    let head := String.ofList (digits.take 1)
    let tail := digits.drop 1
    let fraction := if tail.isEmpty then "" else "." ++ String.ofList tail
    head ++ fraction ++ "e" ++ (if 0 < point then format.plus else "") ++ toString (point - 1)

namespace Json

/-- The text of a real number; JSON has none for numbers that are not finite. -/
def renderReal (x : Float) : String :=
  if x.isFinite then
    let sign := if x.toBits ≥ 0x8000000000000000 then "-" else ""
    if x == 0 then sign ++ "0.0" else sign ++ (DecimalDigits.ofBits x.toBits).render realFormat
  else "null"

/-- The text of a number. -/
def renderNumber : Number → String
  | .int value => toString value
  | .real value => renderReal value

mutual

/-- The text of a value without blanks; what stands for no value has that of null. -/
def render : Json → String
  | .invalid | .null => "null"
  | .bool b => if b then "true" else "false"
  | .num n => renderNumber n
  | .str s => quote s
  | .arr items => "[" ++ ",".intercalate (renderItems items) ++ "]"
  | .obj fields => "\x7b" ++ ",".intercalate (renderFields fields) ++ "\x7d"

/-- The texts of values. -/
def renderItems : List Json → List String
  | [] => []
  | v :: rest => v.render :: renderItems rest

/-- The texts of fields. -/
def renderFields : List (String × Json) → List String
  | [] => []
  | (k, v) :: rest => (quote k ++ ":" ++ v.render) :: renderFields rest

end

/-- Texts on lines of their own between two brackets, at a level of nesting. -/
def block (opening closing : String) (depth : Nat) (texts : List String) : String :=
  let indent (n : Nat) := "\n" ++ String.ofList (List.replicate (2 * n) ' ')
  match texts with
  | [] => opening ++ closing
  | _ =>
    opening ++ indent (depth + 1) ++ ("," ++ indent (depth + 1)).intercalate texts ++
      indent depth ++ closing

mutual

/-- The indented text of a value at a level of nesting. -/
def renderPretty (depth : Nat) : Json → String
  | .arr items => block "[" "]" depth (renderPrettyItems (depth + 1) items)
  | .obj fields => block "\x7b" "\x7d" depth (renderPrettyFields (depth + 1) fields)
  | .invalid => render .invalid
  | .null => render .null
  | .bool b => render (.bool b)
  | .num n => render (.num n)
  | .str s => render (.str s)

/-- The indented texts of values. -/
def renderPrettyItems (depth : Nat) : List Json → List String
  | [] => []
  | v :: rest => v.renderPretty depth :: renderPrettyItems depth rest

/-- The indented texts of fields. -/
def renderPrettyFields (depth : Nat) : List (String × Json) → List String
  | [] => []
  | (k, v) :: rest =>
    (quote k ++ ": " ++ v.renderPretty depth) :: renderPrettyFields depth rest

end

end Json

end ChainPlan
