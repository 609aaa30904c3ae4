import ChainPlan.Yaml.Scalar

/-! # Reading YAML

A value is read from the place of its first token. Block collections are held together by the
column in which their items or keys stand; the value of a key may be a list in the column of the
key itself. A key stands in front of its colon on one line, or is announced by a question mark and
then may be of any form. Every call of a reader takes at least one character or ends, so a count of
steps a few times the length of the text is never used up.
-/

namespace ChainPlan

namespace Yaml

/-- A value that has been read, and the place behind it. -/
abbrev ReadValue := Except YamlFault (Yaml × Cursor)

/-- A field that has been read, and the place behind it. -/
abbrev ReadField := Except YamlFault ((Yaml × Yaml) × Cursor)

/-- Values that have been read, and the place behind them. -/
abbrev ReadValues := Except YamlFault (List Yaml × Cursor)

/-- Fields that have been read, and the place behind them. -/
abbrev ReadFields := Except YamlFault (List (Yaml × Yaml) × Cursor)

/-- The scalar at a place, whose lines have to reach at least a column. -/
def readScalar (minColumn : Nat) (c : Cursor) : ReadValue :=
  match c.rest with
  | [] => .error .unexpectedEnd
  | first :: rest =>
    let behind := c.position.after first
    if first = '\x27' then
      (readSingle c.depth rest behind false .start).map fun s ↦ (.quoted s.text, s.next)
    else if first = '\x22' then
      (readDouble c.depth rest behind .plain .start).map fun s ↦ (.quoted s.text, s.next)
    else if startsPlain c.inFlow first rest then
      (readPlain c.depth minColumn c.rest c.position .start).map fun s ↦ (.plain s.text, s.next)
    else .error .unsupported

/-- The value that is left out. -/
def nothing : Yaml := .plain ""

mutual

/-- The value in a flow collection inside a block whose lines have to reach at least a column. -/
def readFlow : (steps : Nat) → (minColumn : Nat) → Cursor → ReadValue
  | 0, _, _ => .error .tooDeep
  | steps + 1, minColumn, c =>
    if c.atEnd then .error .unexpectedEnd
    else
      match c.rest with
      | '[' :: _ => do
        let (items, next) ← readFlowItems steps minColumn [] c.pass
        return (.list items, next)
      | '\x7b' :: _ => do
        let (fields, next) ← readFlowFields steps minColumn [] c.pass
        return (.record fields, next)
      | _ => readScalar minColumn c

/-- The key or the value behind its mark in a flow collection, where another mark stands if it is
left out. -/
def readFlowPart : (steps : Nat) → (minColumn : Nat) → Cursor → ReadValue
  | 0, _, _ => .error .tooDeep
  | steps + 1, minColumn, c =>
    let c := c.toToken
    if c.rest.isEmpty then .error .unexpectedEnd
    else if c.atMark [',', ':', ']', '\x7d'] then .ok (nothing, c)
    else readFlow steps minColumn c

/-- The field behind a question mark in a flow collection, with its colon inside the same brackets.
In a list a key that is left out takes the mark behind it along, even if it is the bracket that
would close the list. -/
def readFlowField : (steps : Nat) → (inList : Bool) → (minColumn : Nat) → Cursor → ReadField
  | 0, _, _, _ => .error .tooDeep
  | steps + 1, inList, minColumn, c => do
    let c := c.toToken
    let (key, next) ←
      if inList && c.atMark [',', ':', ']'] then pure (nothing, c.pass)
      else readFlowPart steps minColumn c
    let next := next.toToken
    if next.depth = c.depth && next.atValue then do
      let (value, next) ← readFlowPart steps minColumn next.pass
      return ((key, value), next)
    else return ((key, nothing), next)

/-- The rest of a flow list, with its items so far in reverse order. -/
def readFlowItems : (steps : Nat) → (minColumn : Nat) → List Yaml → Cursor → ReadValues
  | 0, _, _, _ => .error .tooDeep
  | steps + 1, minColumn, items, c =>
    let c := c.toToken
    if c.atMark [']'] then .ok (items.reverse, c.pass)
    else do
      let (item, next) ←
        if c.inFlow && c.atKey then do
          let (field, next) ← readFlowField steps true minColumn c.pass
          pure (Yaml.record [field], next)
        else do
          let (key, next) ← readFlow steps minColumn c
          let colon := next.overBlanks
          if colon.inFlow && colon.atValue then
            if c.spansKey colon then do
              let (value, next) ← readFlowPart steps minColumn colon.pass
              pure (Yaml.record [(key, value)], next)
            else throw .misplacedKey
          else pure (key, next)
      let next := next.toToken
      if next.rest.isEmpty then throw .unexpectedEnd
      else if next.atMark [','] then readFlowItems steps minColumn (item :: items) next.pass
      else if next.atMark [']'] then return ((item :: items).reverse, next.pass)
      else throw .unexpectedText

/-- The rest of a flow record, with its fields so far in reverse order. -/
def readFlowFields : (steps : Nat) → (minColumn : Nat) → List (Yaml × Yaml) →
    Cursor → ReadFields
  | 0, _, _, _ => .error .tooDeep
  | steps + 1, minColumn, fields, c =>
    let c := c.toToken
    if c.atMark ['\x7d'] then .ok (fields.reverse, c.pass)
    else do
      let (field, next) ←
        if c.inFlow && c.atKey then readFlowField steps false minColumn c.pass
        else do
          let (key, next) ← readFlow steps minColumn c
          let colon := next.overBlanks
          if colon.inFlow && colon.atValue then
            if c.spansKey colon then do
              let (value, next) ← readFlowPart steps minColumn colon.pass
              pure ((key, value), next)
            else throw .misplacedKey
          else pure ((key, nothing), next)
      let next := next.toToken
      if next.rest.isEmpty then throw .unexpectedEnd
      else if next.atMark [','] then readFlowFields steps minColumn (field :: fields) next.pass
      else if next.atMark ['\x7d'] then return ((field :: fields).reverse, next.pass)
      else throw .unexpectedText

end

/-- The scalar or flow collection at a place in a block. -/
def readLeaf (steps minColumn : Nat) (c : Cursor) : ReadValue :=
  if c.atMark ['[', '\x7b'] then readFlow steps minColumn c else readScalar minColumn c

mutual

/-- The value at a token, all of whose lines have to reach at least a column. A colon on a line of
its own is not that of the value. -/
def readBlock : (steps : Nat) → (minColumn : Nat) → Cursor → ReadValue
  | 0, _, _ => .error .tooDeep
  | steps + 1, minColumn, c =>
    if c.atEnd then .ok (nothing, c)
    else if c.atItem then
      if c.fresh then do
        let (items, next) ← readItems steps c.column false [] c
        return (.list items, next)
      else .error .misplacedItem
    else if c.atKey then
      if c.fresh then do
        let (fields, next) ← readFields steps c.column [] c
        return (.record fields, next)
      else .error .misplacedKey
    else do
      let (value, next) ← readLeaf steps minColumn c
      let colon := next.overBlanks
      if !colon.atValue || colon.fresh then return (value, next)
      else if c.fresh && c.spansKey colon then
        let (fields, next) ← readFields steps c.column [] c
        return (.record fields, next)
      else throw .misplacedKey

/-- The rest of a block list in a column, with its items so far in reverse order. A list in the
column of its key ends in front of the next key. -/
def readItems : (steps : Nat) → (column : Nat) → (inKeyColumn : Bool) → List Yaml →
    Cursor → ReadValues
  | 0, _, _, _, _ => .error .tooDeep
  | steps + 1, column, inKeyColumn, items, c => do
    let value := c.passFresh.toToken
    let (item, next) ←
      if value.atEnd || value.column ≤ column then pure (nothing, value)
      else readBlock steps (column + 1) value
    let next := next.toToken
    if next.atEnd || (next.fresh && next.column < column) then
      return ((item :: items).reverse, next)
    else if !next.fresh then throw .unexpectedText
    else if column < next.column then throw .badIndentation
    else if next.atItem then readItems steps column inKeyColumn (item :: items) next
    else if inKeyColumn then return ((item :: items).reverse, next)
    else throw .badIndentation

/-- The key or the value behind its mark in a block record in a column, where it may be left out or
be a list in the same column. -/
def readPart : (steps : Nat) → (column : Nat) → Cursor → ReadValue
  | 0, _, _ => .error .tooDeep
  | steps + 1, column, c => do
    let c := c.toToken
    if c.atEnd || (c.fresh && c.column < column) then return (nothing, c)
    else if c.fresh && c.column = column then
      if c.atItem then do
        let (items, next) ← readItems steps column true [] c
        return (.list items, next)
      else return (nothing, c)
    else readBlock steps (column + 1) c

/-- The field of a block record in a column at the place of its key or its question mark. -/
def readField : (steps : Nat) → (column : Nat) → Cursor → ReadField
  | 0, _, _ => .error .tooDeep
  | steps + 1, column, c => do
    if c.atKey then
      let (key, next) ← readPart steps column c.passFresh
      let next := next.toToken
      if next.fresh && next.column = column && next.atValue then do
        let (value, next) ← readPart steps column next.passFresh
        return ((key, value), next)
      else return ((key, nothing), next)
    else
      let (key, next) ← readLeaf steps (column + 1) c
      let colon := next.overBlanks
      if !colon.atValue || !c.spansKey colon then throw .misplacedKey
      let (value, next) ← readPart steps column (colon.drop 1)
      return ((key, value), next)

/-- The rest of a block record in a column, with its fields so far in reverse order. -/
def readFields : (steps : Nat) → (column : Nat) → List (Yaml × Yaml) → Cursor → ReadFields
  | 0, _, _, _ => .error .tooDeep
  | steps + 1, column, fields, c => do
    let (field, next) ← readField steps column c
    let next := next.toToken
    let fields := field :: fields
    if next.atEnd || (next.fresh && next.column < column) then return (fields.reverse, next)
    else if !next.fresh then throw .unexpectedText
    else if column < next.column then throw .badIndentation
    else if next.atItem then throw .misplacedItem
    else readFields steps column fields next

end

/-- Whether a character may stand in a YAML text. -/
def isAllowed (c : Char) : Bool :=
  let n := c.toNat
  n == 0x09 || n == 0x0A || n == 0x0D || (0x20 ≤ n && n ≤ 0x7E) || n == 0x85 ||
    (0xA0 ≤ n && n ≤ 0xFFFD) || 0x10000 ≤ n

/-- The text with line feeds for the line breaks that fold like them. -/
def unifyBreaks : List Char → List Char
  | '\r' :: '\n' :: rest => '\n' :: unifyBreaks rest
  | '\r' :: rest => '\n' :: unifyBreaks rest
  | '\u0085' :: rest => '\n' :: unifyBreaks rest
  | c :: rest => c :: unifyBreaks rest
  | [] => []

/-- The first token of the document behind the mark of its start, if there is one. A text does not
begin with the mark of an end. -/
def documentStart (c : Cursor) : Except YamlFault Cursor :=
  match c.rest with
  | '-' :: _ => .ok (if c.atEnd then (c.drop 3).toToken else c)
  | '.' :: _ => if c.atEnd then .error .unexpectedText else .ok c
  | _ => .ok c

/-- Whether nothing but comments and marks of the end of the document stands behind a value. -/
def checkEnd : (steps : Nat) → Cursor → Except YamlFault Unit
  | 0, _ => .error .tooDeep
  | steps + 1, c =>
    let c := c.toToken
    match c.rest with
    | [] => .ok ()
    | x :: _ =>
      if !c.atEnd then .error (if c.fresh then .badIndentation else .unexpectedText)
      else if x = '.' then
        let behind := (c.drop 3).toToken
        if behind.rest.isEmpty || behind.fresh then checkEnd steps behind
        else .error .unexpectedText
      else .error .severalDocuments

/-- The value that a text writes; a text without a value writes null. -/
def parse (s : String) : Except YamlFault Yaml :=
  if !s.toList.all isAllowed then .error .controlCharacter
  else do
    let text := unifyBreaks s.toList
    let steps := 4 * text.length + 8
    let start ← documentStart (Cursor.toToken ⟨text, ⟨0, 0⟩, true, 0⟩)
    let (value, next) ← readBlock steps 0 start
    checkEnd steps next
    return value

end Yaml

end ChainPlan
