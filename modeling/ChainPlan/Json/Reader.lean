import ChainPlan.Json.Number

/-! # Reading JSON

Text is read one character at a time by a machine that holds the containers it is inside of, so
that deep nesting needs no deep recursion. The machine is strict: no comments, and no commas at the
end of a list. Unpaired surrogates and numbers beyond the doubles stand for no value; a text with
them is refused, or read loosely. The nesting of containers may be limited.
-/

namespace ChainPlan

/-- What is wrong with a text that is no JSON. -/
inductive JsonFault where
  | unexpectedChar (c : Char)
  | unexpectedEnd
  | badWord (text : String)
  | badText
  | tooDeep
  | noValue
  deriving DecidableEq, Repr

/-- The wording of a fault. -/
def JsonFault.message : JsonFault → String
  | .unexpectedChar c => s!"unexpected character {c}"
  | .unexpectedEnd => "unexpected end of text"
  | .badWord text => s!"neither a number nor a literal: {text}"
  | .badText => "malformed text in quotes"
  | .tooDeep => "nested too deeply"
  | .noValue => "a number or a text that stands for no value"

namespace Json

/-- A container that has been opened, with what it holds so far in reverse order. -/
inductive Frame where
  | list (items : List Json)
  /-- An object is sound if all of its keys are. -/
  | record (fields : List (String × Json)) (key : Option String) (sound : Bool)

/-- A text in quotes so far, with its characters in reverse order. It is sound if surrogates come in
pairs. -/
structure OpenText where
  isKey : Bool
  chars : List Char
  sound : Bool

namespace OpenText

/-- The text after one more character. -/
def add (t : OpenText) (c : Char) : OpenText := { t with chars := c :: t.chars }

/-- The text after half a character. -/
def spoil (t : OpenText) : OpenText := { t with sound := false }

end OpenText

/-- What the machine is in the middle of. -/
inductive Mode where
  /-- A value has to come. -/
  | value
  /-- A value or the end of the list has to come. -/
  | firstItem
  /-- A key or the end of the object has to come. -/
  | firstKey
  /-- A key has to come. -/
  | key
  /-- The colon behind a key has to come. -/
  | colon
  /-- A value is complete. -/
  | after
  /-- Inside quotes. -/
  | text (t : OpenText)
  /-- Behind a backslash. -/
  | escape (t : OpenText)
  /-- In the hexadecimal digits of a code unit, with the high surrogate in front of it, if any. -/
  | unit (t : OpenText) (high : Option Nat) (count value : Nat)
  /-- Behind a high surrogate, where a backslash and the letter of a code unit should come. -/
  | surrogate (t : OpenText) (high : Nat) (slash : Bool)
  /-- In a bare word. -/
  | word (chars : List Char)

/-- The machine: what it is in the middle of, the open containers, the value read, and whether all
that is written stands for a value. -/
structure Machine where
  mode : Mode
  frames : List Frame
  depth : Nat
  result : Option Json
  sound : Bool

namespace Machine

/-- The machine at the start of a text. -/
def initial : Machine := ⟨.value, [], 0, none, true⟩

/-- The four characters that may stand between tokens. -/
def isSpace (c : Char) : Bool := c = ' ' || c = '\n' || c = '\t' || c = '\r'

/-- The characters of numbers and literals. -/
def isWordChar (c : Char) : Bool := c.isAlphanum || c = '+' || c = '-' || c = '.'

/-- The machine after a complete value. -/
def complete (m : Machine) (v : Json) : Machine :=
  match m.frames with
  | [] => { m with mode := .after, result := some v }
  | .list items :: rest => { m with mode := .after, frames := .list (v :: items) :: rest }
  | .record fields key sound :: rest =>
    { m with mode := .after, frames := .record ((key.getD "", v) :: fields) none sound :: rest }

/-- The machine after a complete text in quotes. -/
def completeText (m : Machine) (t : OpenText) : Machine :=
  let s := String.ofList t.chars.reverse
  let m := { m with sound := m.sound && t.sound }
  if t.isKey then
    match m.frames with
    | .record fields _ sound :: rest =>
      { m with mode := .colon, frames := .record fields (some s) (sound && t.sound) :: rest }
    | _ => m
  else m.complete (if t.sound then .str s else .invalid)

/-- The machine after a complete bare word, whose characters are in reverse order. -/
def completeWord (m : Machine) (chars : List Char) : Except JsonFault Machine :=
  match word? chars.reverse with
  | none => .error (.badWord (String.ofList chars.reverse))
  | some .invalid => .ok ({ m with sound := false }.complete .invalid)
  | some v => .ok (m.complete v)

/-- The machine after the opening of a container. -/
def openFrame (limit : Option Nat) (m : Machine) (frame : Frame) (mode : Mode) :
    Except JsonFault Machine :=
  if limit.any fun n ↦ n ≤ m.depth then .error .tooDeep
  else .ok { m with mode, frames := frame :: m.frames, depth := m.depth + 1 }

/-- The machine after the closing of its innermost container. -/
def closeFrame (m : Machine) (c : Char) : Except JsonFault Machine :=
  match m.frames, c with
  | .list items :: rest, ']' =>
    .ok ({ m with frames := rest, depth := m.depth - 1 }.complete (.arr items.reverse))
  | .record fields _ sound :: rest, '\x7d' =>
    let value := if sound then .obj fields.reverse else .invalid
    .ok ({ m with frames := rest, depth := m.depth - 1 }.complete value)
  | _, _ => .error (.unexpectedChar c)

/-- The machine after the first character of a value. -/
def beginValue (limit : Option Nat) (m : Machine) (c : Char) : Except JsonFault Machine :=
  if c = '\x22' then .ok { m with mode := .text ⟨false, [], true⟩ }
  else if c = '[' then m.openFrame limit (.list []) .firstItem
  else if c = '\x7b' then m.openFrame limit (.record [] none true) .firstKey
  else if isWordChar c then .ok { m with mode := .word [c] }
  else .error (.unexpectedChar c)

/-- The machine after a character behind a complete value. -/
def continueAfter (m : Machine) (c : Char) : Except JsonFault Machine :=
  if isSpace c then .ok m
  else if c = ',' then
    match m.frames with
    | .list _ :: _ => .ok { m with mode := .value }
    | .record _ _ _ :: _ => .ok { m with mode := .key }
    | [] => .error (.unexpectedChar c)
  else m.closeFrame c

/-- The character that an escape of one letter stands for. -/
def escaped? (c : Char) : Option Char :=
  if c = '\x22' || c = '\\' || c = '/' then some c
  else if c = 'b' then some '\x08'
  else if c = 'f' then some '\x0c'
  else if c = 'n' then some '\n'
  else if c = 'r' then some '\r'
  else if c = 't' then some '\t'
  else none

/-- The value of a hexadecimal digit. -/
def hexValue? (c : Char) : Option Nat :=
  if c.isDigit then some (c.toNat - '0'.toNat)
  else if 'a' ≤ c && c ≤ 'f' then some (c.toNat - 'a'.toNat + 10)
  else if 'A' ≤ c && c ≤ 'F' then some (c.toNat - 'A'.toNat + 10)
  else none

/-- The mode after a complete code unit: surrogates come in pairs, or spoil the text. -/
def afterUnit (t : OpenText) (high : Option Nat) (unit : Nat) : Mode :=
  let isLow := 0xDC00 ≤ unit && unit < 0xE000
  let isHigh := 0xD800 ≤ unit && unit < 0xDC00
  match high with
  | some h =>
    if isLow then
      .text (t.add (Char.ofNat (0x10000 + (h - 0xD800) * 0x400 + (unit - 0xDC00))))
    else .text t.spoil
  | none =>
    if isHigh then .surrogate t unit false
    else if isLow then .text t.spoil
    else .text (t.add (Char.ofNat unit))

/-- The machine after one more character inside quotes. -/
def continueText (m : Machine) (t : OpenText) (c : Char) : Except JsonFault Machine :=
  if c = '\x22' then .ok (m.completeText t)
  else if c = '\\' then .ok { m with mode := .escape t }
  else if c.toNat < 32 then .error .badText
  else .ok { m with mode := .text (t.add c) }

/-- The machine after the character behind a backslash. -/
def continueEscape (m : Machine) (t : OpenText) (c : Char) : Except JsonFault Machine :=
  if c = 'u' then .ok { m with mode := .unit t none 0 0 }
  else
    match escaped? c with
    | some e => .ok { m with mode := .text (t.add e) }
    | none => .error .badText

/-- The machine after one more character. -/
def step (limit : Option Nat) (m : Machine) (c : Char) : Except JsonFault Machine :=
  match m.mode with
  | .value => if isSpace c then .ok m else m.beginValue limit c
  | .firstItem =>
    if isSpace c then .ok m
    else if c = ']' then m.closeFrame c
    else m.beginValue limit c
  | .firstKey =>
    if isSpace c then .ok m
    else if c = '\x7d' then m.closeFrame c
    else if c = '\x22' then .ok { m with mode := .text ⟨true, [], true⟩ }
    else .error (.unexpectedChar c)
  | .key =>
    if isSpace c then .ok m
    else if c = '\x22' then .ok { m with mode := .text ⟨true, [], true⟩ }
    else .error (.unexpectedChar c)
  | .colon =>
    if isSpace c then .ok m
    else if c = ':' then .ok { m with mode := .value }
    else .error (.unexpectedChar c)
  | .after => m.continueAfter c
  | .text t => m.continueText t c
  | .escape t => m.continueEscape t c
  | .unit t high count value =>
    match hexValue? c with
    | none => .error .badText
    | some d =>
      let value := value * 16 + d
      let mode := if count < 3 then .unit t high (count + 1) value else afterUnit t high value
      .ok { m with mode }
  | .surrogate t high slash =>
    if !slash && c = '\\' then .ok { m with mode := .surrogate t high true }
    else if slash && c = 'u' then .ok { m with mode := .unit t (some high) 0 0 }
    else if slash then m.continueEscape t.spoil c
    else m.continueText t.spoil c
  | .word chars =>
    if isWordChar c then .ok { m with mode := .word (c :: chars) }
    else m.completeWord chars >>= fun m ↦ m.continueAfter c

/-- The machine at the end of a text. -/
def finish (m : Machine) : Except JsonFault Machine :=
  match m.mode, m.frames with
  | .word chars, [] => m.completeWord chars
  | .after, [] => .ok m
  | _, _ => .error .unexpectedEnd

end Machine

/-- The machine behind a text, with containers nested at most as deep as the limit. -/
def run (limit : Option Nat) (s : String) : Except JsonFault Machine := do
  let m ← s.toList.foldlM (Machine.step limit) .initial
  m.finish

/-- The value that a text writes, with containers nested at most as deep as the limit. -/
def parse (limit : Option Nat) (s : String) : Except JsonFault Json := do
  let m ← run limit s
  if m.sound then
    match m.result with
    | some v => return v
    | none => throw .unexpectedEnd
  else throw .noValue

/-- The value that a text writes, in which what stands for no value is kept as such. -/
def parseLoosely (s : String) : Except JsonFault Json := do
  let m ← run none s
  match m.result with
  | some v => return v
  | none => throw .unexpectedEnd

end Json

end ChainPlan
