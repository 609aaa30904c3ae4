/-! # Places in a YAML text

A cursor stands at a place in a text and knows its line and column, since in YAML indentation has a
meaning and a key may not go over the end of its line, and how many brackets are open, since inside
brackets indentation has none. Between tokens it passes over blanks, comments and line breaks. Lines
end at a line feed, and at the separators of lines and paragraphs.
-/

namespace ChainPlan

namespace Yaml

/-- Whether a character ends a line. -/
def isBreak (c : Char) : Bool := c = '\n' || c = '\u2028' || c = '\u2029'

/-- Whether a character is a blank inside a line. -/
def isLineBlank (c : Char) : Bool := c = ' ' || c = '\t'

/-- Whether a text begins with a blank, a line break, or its end. -/
def startsBlank : List Char → Bool
  | [] => true
  | c :: _ => isLineBlank c || isBreak c

/-- Whether a text begins with the mark of the start or the end of a document. -/
def startsMarker : List Char → Bool
  | '-' :: '-' :: '-' :: rest => startsBlank rest
  | '.' :: '.' :: '.' :: rest => startsBlank rest
  | _ => false

/-- The marks of flow collections. -/
def isFlowMark (c : Char) : Bool := c = ',' || c = '[' || c = ']' || c = '\x7b' || c = '\x7d'

/-- A line and a column, both counted from zero. -/
structure Position where
  line : Nat
  column : Nat

namespace Position

/-- The position after a character. -/
def after (p : Position) (c : Char) : Position :=
  if isBreak c then ⟨p.line + 1, 0⟩ else ⟨p.line, p.column + 1⟩

end Position

/-- A place in a text: what comes next, its position, whether a block collection may begin
there, as it may at the first token of a line, and the number of open brackets. -/
structure Cursor where
  rest : List Char
  position : Position
  fresh : Bool
  depth : Nat

namespace Cursor

/-- The line of the place. -/
def line (c : Cursor) : Nat := c.position.line

/-- The column of the place. -/
def column (c : Cursor) : Nat := c.position.column

/-- Whether the place is inside brackets. -/
def inFlow (c : Cursor) : Bool := c.depth != 0

/-- Whether the text ends here, or the document does. -/
def atEnd (c : Cursor) : Bool := c.rest.isEmpty || (c.column == 0 && startsMarker c.rest)

/-- Whether a list item in block form begins at a place. -/
def atItem (c : Cursor) : Bool :=
  match c.rest with
  | '-' :: rest => startsBlank rest
  | _ => false

/-- Whether a question mark stands at a place that announces a key: outside of brackets only one
with a blank behind it. -/
def atKey (c : Cursor) : Bool :=
  match c.rest with
  | '?' :: rest => c.inFlow || startsBlank rest
  | _ => false

/-- Whether a colon stands at a place that announces a value: outside of brackets only one with a
blank behind it. -/
def atValue (c : Cursor) : Bool :=
  match c.rest with
  | ':' :: rest => c.inFlow || startsBlank rest
  | _ => false

/-- Whether one of some marks stands at a place. -/
def atMark (c : Cursor) (marks : List Char) : Bool := c.rest.head?.any marks.contains

/-- The place some characters further on the same line. -/
def drop (c : Cursor) (n : Nat) : Cursor :=
  { c with rest := c.rest.drop n, position := ⟨c.line, c.column + n⟩, fresh := false }

/-- The place behind the mark at a place, which may open or close a bracket. -/
def pass (c : Cursor) : Cursor :=
  if c.atMark ['[', '\x7b'] then { c.drop 1 with depth := c.depth + 1 }
  else if c.atMark [']', '\x7d'] then { c.drop 1 with depth := c.depth - 1 }
  else c.drop 1

/-- The place behind the mark of a key, a value or an item in block form, where a block collection
may begin on the same line. -/
def passFresh (c : Cursor) : Cursor := { c.drop 1 with fresh := true }

/-- The mark of byte order, which may stand at the start of a line. -/
def byteOrderMark : Char := '\ufeff'

/-- The place of the next token behind blanks, comments and line breaks. A tab is no indentation. -/
def skip (depth : Nat) : (comment : Bool) → List Char → Position → (fresh : Bool) → Cursor
  | _, [], position, fresh => ⟨[], position, fresh, depth⟩
  | comment, c :: rest, position, fresh =>
    let next := position.after c
    if isBreak c then skip depth false rest next true
    else if comment || c = '#' then skip depth true rest next fresh
    else if c = byteOrderMark && position.column = 0 then skip depth false rest next fresh
    else if c = ' ' || (c = '\t' && (depth != 0 || !fresh)) then skip depth false rest next fresh
    else ⟨c :: rest, position, fresh, depth⟩

/-- The place of the next token. -/
def toToken (c : Cursor) : Cursor := skip c.depth false c.rest c.position c.fresh

/-- The place behind the blanks on the same line. -/
def overBlanks (c : Cursor) : Cursor :=
  let blanks := (c.rest.takeWhile isLineBlank).length
  { c with rest := c.rest.drop blanks, position := ⟨c.line, c.column + blanks⟩ }

/-- The longest key with the blanks behind it, in bytes. -/
def maxKeyBytes : Nat := 1024

/-- Whether what stands between two places may be a key: it is on one line and not too long. -/
def spansKey (start colon : Cursor) : Bool :=
  start.line == colon.line &&
    (start.rest.take (colon.column - start.column)).foldr (·.utf8Size + ·) 0 ≤ maxKeyBytes

end Cursor

end Yaml

end ChainPlan
