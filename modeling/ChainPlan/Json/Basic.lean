/-! # JSON values

Values with their fields in the order in which they are written, which may repeat a key. `sorted`
gives the value its usual meaning: of a repeated key the last field counts, and order does not. What
is written like a value may stand for none, and does no harm where nobody asks for it.
-/

namespace ChainPlan

/-- A number: whole numbers and others are told apart by the way they are written. -/
inductive Number where
  | int (value : Int)
  | real (value : Float)
  deriving Repr

/-- A JSON value. -/
inductive Json where
  /-- A number beyond the doubles, a text with half a character, or an object with such a key. -/
  | invalid
  | null
  | bool (value : Bool)
  | num (value : Number)
  | str (value : String)
  | arr (items : List Json)
  | obj (fields : List (String × Json))
  deriving Repr

namespace Json

/-- A list of texts. -/
def ofStrings (texts : List String) : Json := .arr (texts.map .str)

/-- A natural number. -/
def ofNat (n : Nat) : Json := .num (.int n)

/-- Fields in the order of their keys, with one more; a field with the same key is replaced. -/
def insertSorted (key : String) (value : Json) : List (String × Json) → List (String × Json)
  | [] => [(key, value)]
  | (k, v) :: rest =>
    if key = k then (key, value) :: rest
    else if key < k then (key, value) :: (k, v) :: rest
    else (k, v) :: insertSorted key value rest

mutual

/-- The value with the fields of every object in the order of their keys, the last one of each. -/
def sorted : Json → Json
  | .arr items => .arr (sortedItems items)
  | .obj fields => .obj ((sortedFields fields).foldl (fun fs f ↦ insertSorted f.1 f.2 fs) [])
  | .invalid => .invalid
  | .null => .null
  | .bool b => .bool b
  | .num n => .num n
  | .str s => .str s

/-- The values of a list, sorted one by one. -/
def sortedItems : List Json → List Json
  | [] => []
  | v :: rest => v.sorted :: sortedItems rest

/-- The fields of an object with their values sorted one by one. -/
def sortedFields : List (String × Json) → List (String × Json)
  | [] => []
  | (k, v) :: rest => (k, v.sorted) :: sortedFields rest

end

/-- The first field of an object with a key. -/
def field? (v : Json) (key : String) : Option Json :=
  match v with
  | .obj fields => (fields.find? fun f ↦ f.1 == key).map Prod.snd
  | _ => none

end Json

end ChainPlan
