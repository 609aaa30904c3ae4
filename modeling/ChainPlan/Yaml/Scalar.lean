import ChainPlan.Yaml.Basic
import ChainPlan.Yaml.Cursor

/-! # Scalars of YAML

Reading of one scalar, quoted or plain, from a place in a text. White space at the ends of lines is
dropped, one line break counts as a blank, and more of them as one less. A plain scalar ends in
front of a colon that a blank follows, a comment, a line that is indented less than its collection,
and in flow collections in front of their marks.
-/

namespace ChainPlan

namespace Yaml

/-- White space inside a scalar: blanks on one line, or line breaks. The first break may not count,
when a backslash hides it. -/
inductive Gap where
  | blanks (reversed : List Char)
  | breaks (first : Option Char) (moreReversed : List Char)

namespace Gap

/-- No white space. -/
def none : Gap := .blanks []

/-- The gap after a blank. -/
def addBlank (c : Char) : Gap → Gap
  | .blanks cs => .blanks (c :: cs)
  | .breaks first more => .breaks first more

/-- The gap after a line break. -/
def addBreak (c : Char) : Gap → Gap
  | .blanks _ => .breaks (some c) []
  | .breaks first more => .breaks first (c :: more)

/-- Whether the gap has line breaks. -/
def isBroken : Gap → Bool
  | .blanks _ => false
  | .breaks _ _ => true

/-- Whether there is any white space. -/
def isEmpty : Gap → Bool
  | .blanks cs => cs.isEmpty
  | .breaks _ _ => false

/-- What the gap adds to a scalar, in reverse order: a first line feed is a blank or, in front of
more breaks, nothing, and every other break stands for itself. -/
def folded : Gap → List Char
  | .blanks cs => cs
  | .breaks (some '\n') [] => [' ']
  | .breaks (some '\n') more => more
  | .breaks first more => more ++ first.toList

end Gap

/-- A scalar that has been read: its text, and the place behind it. -/
structure ReadScalar where
  text : String
  next : Cursor

/-- A scalar in progress: its characters in reverse order, and the white space behind them. -/
structure Progress where
  chars : List Char
  gap : Gap

namespace Progress

/-- The start of a scalar. -/
def start : Progress := ⟨[], .none⟩

/-- The scalar with its gap folded in. -/
def fold (p : Progress) : Progress := ⟨p.gap.folded ++ p.chars, .none⟩

/-- The scalar after a character that is no white space. -/
def add (p : Progress) (c : Char) : Progress := ⟨c :: p.fold.chars, .none⟩

/-- The scalar after a blank or a line break. -/
def addSpace (p : Progress) (c : Char) : Progress :=
  { p with gap := if isBreak c then p.gap.addBreak c else p.gap.addBlank c }

/-- The scalar that ends at a place, without what stands in its gap. -/
def finish (p : Progress) (next : Cursor) : ReadScalar := ⟨String.ofList p.chars.reverse, next⟩

end Progress

/-- Whether a plain scalar ends in front of a character that some text follows, behind a gap. -/
def endsPlain (flow : Bool) (minColumn : Nat) (c : Char) (rest : List Char) (position : Position)
    (gap : Gap) : Bool :=
  (gap.isBroken && ((!flow && position.column < minColumn) ||
      (position.column == 0 && startsMarker (c :: rest)))) ||
    (c = '#' && !gap.isEmpty) || (c = ':' && startsBlank rest) || (flow && isFlowMark c)

/-- The rest of a plain scalar with a number of brackets open, whose lines have to reach at least a
column; inside brackets only their tabs have to. -/
def readPlain (depth minColumn : Nat) :
    List Char → Position → Progress → Except YamlFault ReadScalar
  | [], position, p => .ok (p.finish ⟨[], position, p.gap.isBroken, depth⟩)
  | c :: rest, position, p =>
    let flow := depth != 0
    let next := position.after c
    if c = '\t' && p.gap.isBroken && position.column < minColumn then .error .badIndentation
    else if isLineBlank c || isBreak c then readPlain depth minColumn rest next (p.addSpace c)
    else if endsPlain flow minColumn c rest position p.gap then
      .ok (p.finish ⟨c :: rest, position, p.gap.isBroken, depth⟩)
    else if flow && c = ':' && rest.head?.any fun x ↦ isFlowMark x || x = '?' then
      .error .misplacedKey
    else readPlain depth minColumn rest next (p.add c)

/-- The rest of a scalar in single quotes with a number of brackets open; `closing` tells that a
quote has just been read, which ends the scalar unless it is doubled. -/
def readSingle (depth : Nat) :
    List Char → Position → (closing : Bool) → Progress → Except YamlFault ReadScalar
  | [], position, closing, p =>
    if closing then .ok (p.fold.finish ⟨[], position, false, depth⟩) else .error .unexpectedEnd
  | c :: rest, position, closing, p =>
    let next := position.after c
    if c = '\x27' then
      if closing then readSingle depth rest next false (p.add c)
      else readSingle depth rest next true p
    else if closing then .ok (p.fold.finish ⟨c :: rest, position, false, depth⟩)
    else if isLineBlank c || isBreak c then readSingle depth rest next false (p.addSpace c)
    else if position.column == 0 && startsMarker (c :: rest) then .error .unexpectedEnd
    else readSingle depth rest next false (p.add c)

/-- The character that an escape of one letter stands for in double quotes. -/
def escaped? (c : Char) : Option Char :=
  ([('0', 0), ('a', 7), ('b', 8), ('t', 9), ('\t', 9), ('n', 10), ('v', 11), ('f', 12), ('r', 13),
    ('e', 27), (' ', 32), ('\x22', 34), ('/', 47), ('\\', 92), ('N', 0x85), ('_', 0xA0),
    ('L', 0x2028), ('P', 0x2029)].lookup c).map Char.ofNat

/-- The number of hexadecimal digits behind the letter of an escape. -/
def escapeLength? (c : Char) : Option Nat := [('x', 2), ('u', 4), ('U', 8)].lookup c

/-- What the reading of a scalar in double quotes is in the middle of. -/
inductive QuoteMode where
  | plain
  /-- Behind a backslash. -/
  | escape
  /-- In hexadecimal digits, with the number of digits still to come. -/
  | code (left value : Nat)

/-- The rest of a scalar in double quotes with a number of brackets open. -/
def readDouble (depth : Nat) :
    List Char → Position → QuoteMode → Progress → Except YamlFault ReadScalar
  | [], _, _, _ => .error .unexpectedEnd
  | c :: rest, position, mode, p =>
    let next := position.after c
    match mode with
    | .code left value =>
      match PlainMeaning.digitValue? c with
      | none => .error .badEscape
      | some d =>
        let code := value * 16 + d
        if 1 < left then readDouble depth rest next (.code (left - 1) code) p
        else if code.isValidChar then readDouble depth rest next .plain (p.add (Char.ofNat code))
        else .error .badEscape
    | .escape =>
      if isBreak c then readDouble depth rest next .plain { p.fold with gap := .breaks none [] }
      else
        match escapeLength? c with
        | some count => readDouble depth rest next (.code count 0) p
        | none =>
          match escaped? c with
          | some e => readDouble depth rest next .plain (p.add e)
          | none => .error .badEscape
    | .plain =>
      if c = '\x22' then .ok (p.fold.finish ⟨rest, next, false, depth⟩)
      else if c = '\\' then readDouble depth rest next .escape p
      else if isLineBlank c || isBreak c then readDouble depth rest next .plain (p.addSpace c)
      else if position.column == 0 && startsMarker (c :: rest) then .error .unexpectedEnd
      else readDouble depth rest next .plain (p.add c)

/-- Whether a plain scalar may begin with a character that some text follows. -/
def startsPlain (flow : Bool) (c : Char) (rest : List Char) : Bool :=
  if c = '-' then !startsBlank rest
  else if c = '?' || c = ':' then !flow && !startsBlank rest
  else if isLineBlank c || isBreak c then false
  else !([',', '[', ']', '\x7b', '\x7d', '#', '&', '*', '!', '|', '>', '\x27', '\x22', '%', '@',
    '\x60'].contains c)

end Yaml

end ChainPlan
