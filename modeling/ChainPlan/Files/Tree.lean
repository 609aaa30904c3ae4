import ChainPlan.Files.Path

/-! # Files

What a run reads: a path leads to a file, to a directory, or to nothing for a reason. A tree of
files gives these answers for every path inside it.
-/

namespace ChainPlan

/-- A cause for which a file cannot be read. -/
inductive ReadFault where
  /-- No file of this name was found by looking for it. -/
  | notFound
  /-- The path leads nowhere. -/
  | noSuchFile
  /-- The path goes on behind a file. -/
  | notADirectory
  /-- The path leads to a directory. -/
  | isADirectory
  /-- The path or a piece of it is too long. -/
  | nameTooLong
  /-- The path has a null character. -/
  | nulInPath
  /-- The contents are not text in UTF-8. -/
  | notUtf8
  /-- Any other cause, as the system words it. -/
  | other (text : String)
  deriving DecidableEq, Repr

/-- The wording of a fault. -/
def ReadFault.message : ReadFault → String
  | .notFound => "entity not found"
  | .noSuchFile => "No such file or directory (os error 2)"
  | .notADirectory => "Not a directory (os error 20)"
  | .isADirectory => "Is a directory (os error 21)"
  | .nameTooLong => "File name too long (os error 36)"
  | .nulInPath => "file name contained an unexpected NUL byte"
  | .notUtf8 => "stream did not contain valid UTF-8"
  | .other text => text

/-- What a path leads to. -/
inductive Entry where
  | file (contents : ByteArray)
  | directory
  | absent (fault : ReadFault)

/-- The files that a run can see: what each path leads to. -/
structure Files where
  entry : String → Entry

namespace Files

/-- Whether a path leads to a file. -/
def isFile (files : Files) (path : String) : Bool :=
  match files.entry path with
  | .file _ => true
  | _ => false

/-- The text of a file. -/
def read (files : Files) (path : String) : Except ReadFault String :=
  match files.entry path with
  | .absent fault => .error fault
  | .directory => .error .isADirectory
  | .file contents =>
    match String.fromUTF8? contents with
    | some text => .ok text
    | none => .error .notUtf8

end Files

/-- The files and directories below one directory, by the pieces of their paths. -/
structure FileTree where
  /-- The files with their contents. -/
  files : List (List String × ByteArray)
  /-- The directories, with every directory on the way to a file or directory. -/
  directories : List (List String)

namespace FileTree

/-- The tree without files. -/
def empty : FileTree := ⟨[], [[]]⟩

/-- The pieces of a path that name something. -/
def names (path : String) : List String := (Path.pieces path).filter fun p ↦ p != "" && p != "."

/-- Every beginning of a list, the list itself included. -/
def beginnings (pieces : List String) : List (List String) :=
  (List.range (pieces.length + 1)).map pieces.take

/-- The tree with a directory, and the directories on its way. -/
def addDirectory (tree : FileTree) (path : String) : FileTree :=
  { tree with directories := beginnings (names path) ++ tree.directories }

/-- The tree with a file, and the directories on its way. -/
def addFile (tree : FileTree) (path : String) (contents : ByteArray) : FileTree where
  files := (names path, contents) :: tree.files
  directories := beginnings (names path).dropLast ++ tree.directories

/-- What stands at the place of some names. -/
def at? (tree : FileTree) (place : List String) : Option Entry :=
  match tree.files.lookup place with
  | some contents => some (.file contents)
  | none => if tree.directories.contains place then some .directory else none

/-- The longest name of a file, in bytes. -/
def maxNameBytes : Nat := 255

/-- What the remaining pieces of a path lead to from a directory above the tree: other directories
above, up to the root, and nothing else that is known. -/
def walkAbove : List String → Entry
  | [] => .directory
  | name :: rest =>
    if name = "" || name = "." || name = ".." then walkAbove rest
    else if maxNameBytes < name.utf8ByteSize then .absent .nameTooLong
    else .absent .noSuchFile

/-- What the remaining pieces of a path lead to from a directory. -/
def walk (tree : FileTree) (place : List String) : List String → Entry
  | [] => .directory
  | "" :: rest => walk tree place rest
  | "." :: rest => walk tree place rest
  | ".." :: rest => if place.isEmpty then walkAbove rest else walk tree place.dropLast rest
  | name :: rest =>
    if maxNameBytes < name.utf8ByteSize then .absent .nameTooLong
    else
      match tree.at? (place ++ [name]) with
      | none => .absent .noSuchFile
      | some .directory => walk tree (place ++ [name]) rest
      | some found => if rest.isEmpty then found else .absent .notADirectory

/-- The longest path, in bytes. -/
def maxPathBytes : Nat := 4095

/-- What a path leads to. -/
def entry (tree : FileTree) (path : String) : Entry :=
  if path.toList.contains (Char.ofNat 0) then .absent .nulInPath
  else if maxPathBytes < path.utf8ByteSize then .absent .nameTooLong
  else if path.isEmpty then .absent .noSuchFile
  else if Path.isAbsolute path then walkAbove (Path.pieces path)
  else tree.walk [] (Path.pieces path)

/-- The files of a tree. -/
def toFiles (tree : FileTree) : Files := ⟨tree.entry⟩

end FileTree

end ChainPlan
