import ChainPlan.Settings

/-! # Paths

Relative and absolute paths as texts with slashes, how a path is joined to a directory, and the
format that the name of a file announces.
-/

namespace ChainPlan

namespace Path

/-- The pieces of a text between the occurrences of a character. -/
def splitAt (separator : Char) : List Char → List (List Char)
  | [] => [[]]
  | c :: rest =>
    if c = separator then [] :: splitAt separator rest
    else
      match splitAt separator rest with
      | piece :: pieces => (c :: piece) :: pieces
      | [] => [[c]]

/-- The pieces of a path between its slashes. -/
def pieces (path : String) : List String := (splitAt '/' path.toList).map String.ofList

/-- Whether a path starts at the root. -/
def isAbsolute (path : String) : Bool := path.toList.head? == some '/'

/-- The path of a name inside a directory; an absolute name stands for itself. -/
def join (directory name : String) : String :=
  if isAbsolute name then name
  else
    match directory.toList.getLast? with
    | none => name
    | some '/' => directory ++ name
    | some _ => directory ++ "/" ++ name

/-- The name at the end of a path: the last piece that is not empty or a dot, unless it goes up. -/
def fileName? (path : String) : Option String :=
  match (pieces path).reverse.find? fun p ↦ p != "" && p != "." with
  | some ".." => none
  | other => other

/-- What stands behind the last dot of a file name, if something stands in front of it. -/
def extension? (path : String) : Option String :=
  match fileName? path with
  | none => none
  | some name =>
    let reversed := name.toList.reverse
    match reversed.dropWhile (· != '.') with
    | _ :: _ :: _ => some (String.ofList (reversed.takeWhile (· != '.')).reverse)
    | _ => none

end Path

/-- The format of a file by its extension in lower case; JSON if that names none. -/
def FileFormat.ofPath (path : String) : FileFormat :=
  ((Path.extension? path).bind fun e ↦ Spelled.ofText? e.toLower).getD .json

end ChainPlan
