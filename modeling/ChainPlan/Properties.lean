import ChainPlan.Codec.Element
import ChainPlan.Files.Tree
import ChainPlan.Json.Printer
import ChainPlan.Json.Reader
import ChainPlan.Yaml.Reader

/-! # Property files

The effects of library elements may lie ready in files, one for each element, named after it. A
file has a section for each kind of traffic. The sections of several files are put together before
they are read as effects: the first file that mentions a property decides it, but lists of fields
are joined without repeats, and a text takes the place of a list, so that the wildcard absorbs it.
-/

namespace ChainPlan

/-- What is wrong with the properties of an element. -/
inductive PropertyFault where
  /-- The file does not hold a record. -/
  | noRecord
  /-- A section is not a record; its text is given. -/
  | badSection (traffic : Traffic) (found : String)
  /-- The sections do not write effects. -/
  | badEffects (cause : DecodeError)
  deriving DecidableEq, Repr

/-- The wording of a fault in properties. -/
def PropertyFault.message : PropertyFault → String
  | .noRecord => "expected a mapping with \x60request\x60 and \x60response\x60 keys"
  | .badSection traffic found =>
    s!"{ticked (Spelled.name traffic)} must be a mapping, found " ++ found
  | .badEffects cause => cause.message

/-- What is wrong with a text in one of the file formats. -/
inductive TextFault where
  | json (fault : JsonFault)
  | yaml (fault : YamlFault)
  | shape (fault : DecodeError)
  deriving DecidableEq, Repr

/-- The wording of a fault of a text. -/
def TextFault.message : TextFault → String
  | .json fault => fault.message
  | .yaml fault => fault.message
  | .shape fault => fault.message

/-- A cause for which the properties of an element cannot be loaded. -/
inductive PropertyError where
  | unreadable (path : String) (fault : ReadFault)
  | unparsable (path : String) (format : FileFormat) (fault : TextFault)
  | invalid (element : String) (fault : PropertyFault)
  deriving DecidableEq, Repr

/-- The wording of an error of loading properties. -/
def PropertyError.message : PropertyError → String
  | .unreadable path fault => s!"couldn't read {path}: {fault.message}"
  | .unparsable path _ fault => s!"couldn't parse {path}: {fault.message}"
  | .invalid element fault => s!"invalid properties for {ticked element}: {fault.message}"

namespace Properties

/-- The deepest nesting of containers in a property file in JSON. -/
def jsonDepth : Nat := 127

/-- The deepest nesting of containers in a property file in YAML. -/
def yamlDepth : Nat := 128

/-- The value that a text in a format writes, with its fields sorted. -/
def parse (format : FileFormat) (text : String) : Except TextFault Json :=
  match format with
  | .json =>
    match Json.parse (some jsonDepth) text with
    | .ok value => .ok value.sorted
    | .error fault => .error (.json fault)
  | .yaml =>
    match Yaml.parse text >>= Yaml.toJson yamlDepth with
    | .ok value => .ok value.sorted
    | .error fault => .error (.yaml fault)

/-- The value of one property file. -/
def valueOfFile (files : Files) (path : String) : Except PropertyError Json :=
  match files.read path with
  | .error fault => .error (.unreadable path fault)
  | .ok text =>
    match parse (.ofPath path) text with
    | .error fault => .error (.unparsable path (.ofPath path) fault)
    | .ok value => .ok value

/-- The extensions of property files, the preferred ones first. -/
def extensions : List String := ["yaml", "yml", "json"]

/-- The path of the property file of an element with an extension. -/
def pathOf (directory name extension : String) : String :=
  Path.join directory (name ++ "." ++ extension)

/-- The path of the property file of an element. -/
def findFile (files : Files) (directory name : String) : Except PropertyError String :=
  match (extensions.map (pathOf directory name)).find? files.isFile with
  | some path => .ok path
  | none => .error (.unreadable (pathOf directory name "yaml") .notFound)

/-- The fields of a section. -/
abbrev Section := List (String × Json)

/-- Whether a list holds a text. -/
def holdsText (items : List Json) (s : String) : Bool :=
  items.any fun
    | .str t => t == s
    | _ => false

/-- The items of a list with another one at the end, unless it is a text that is there already. -/
def addItem (items : List Json) : Json → List Json
  | .str s => if holdsText items s then items else items ++ [.str s]
  | other => items ++ [other]

/-- The value of a property that an earlier and a later file mention. -/
def mergeValue : Json → Json → Json
  | .arr items, .arr more => .arr (more.foldl addItem items)
  | .arr _, .str s => .str s
  | first, _ => first

/-- The section with one more property, in the order of the names of properties. -/
def mergeField (fields : Section) (field : String × Json) : Section :=
  match fields.lookup field.1 with
  | some first => Json.insertSorted field.1 (mergeValue first field.2) fields
  | none => Json.insertSorted field.1 field.2 fields

/-- The section of a kind of traffic in the value of a file; it may be left out. -/
def section? (name : String) (t : Traffic) (fields : Section) : Except PropertyError Section :=
  match fields.lookup (Spelled.name t) with
  | none | some .null => .ok []
  | some (.obj properties) => .ok properties
  | some other => .error (.invalid name (.badSection t other.render))

/-- The sections of both kinds of traffic after one more file. -/
def mergeFile (name : String) (sections : Section × Section) (value : Json) :
    Except PropertyError (Section × Section) :=
  match value with
  | .obj fields => do
    let request ← section? name .request fields
    let response ← section? name .response fields
    return (request.foldl mergeField sections.1, response.foldl mergeField sections.2)
  | _ => .error (.invalid name .noRecord)

/-- The sections after the files of some elements. -/
def mergeAll (files : Files) (directory : String) :
    List String → Section × Section → Except PropertyError (Section × Section)
  | [], sections => .ok sections
  | name :: rest, sections => do
    let path ← findFile files directory name
    let value ← valueOfFile files path
    let sections ← mergeFile name sections value
    mergeAll files directory rest sections

/-- Both sections as one value. -/
def ofSections (sections : Section × Section) : Json :=
  .obj
    [(Spelled.name Traffic.request, .obj sections.1),
     (Spelled.name Traffic.response, .obj sections.2)]

/-- The effects of an element that is made of the library elements of the given names. -/
def load (files : Files) (directory : String) (names : List String) :
    Except PropertyError Effects := do
  let sections ← mergeAll files directory names ([], [])
  match Effects.decode (ofSections sections) with
  | .ok effects => return effects
  | .error cause => throw (.invalid ("+".intercalate names) (.badEffects cause))

end Properties

end ChainPlan
