import ChainPlan.Properties

/-! # Chain files

A chain file lists the elements of a chain in order, the network among them. An element without
properties of its own gets them from property files, unless it is the network, which needs none.
Nothing that is unknown may stand in a chain file or an element beside what is known, and what is
unknown in their parts need not even stand for a value.
-/

namespace ChainPlan

/-- An element as a chain file gives it. -/
structure ElementSpec where
  names : List String
  partner : Option String
  site : Site
  state : ElementState
  properties : Option Effects
  deriving DecidableEq, Repr

/-- A cause for which a chain cannot be loaded. -/
inductive LoadError where
  | unreadable (path : String) (fault : ReadFault)
  | unparsable (path : String) (format : FileFormat) (fault : TextFault)
  /-- An element has no name, or an empty one. -/
  | unnamed
  /-- An element has no properties, and there is no directory to look for them. -/
  | missingProperties (element : String)
  | properties (cause : PropertyError)
  deriving DecidableEq, Repr

/-- The wording of an error of loading a chain. -/
def LoadError.message : LoadError → String
  | .unreadable path fault => s!"couldn't read {path}: {fault.message}"
  | .unparsable path _ fault => s!"couldn't parse {path}: {fault.message}"
  | .unnamed => "invalid chain: element names must not be empty"
  | .missingProperties element =>
    s!"no properties for {ticked element}: pass \x60--property-dir\x60 or give them inline"
  | .properties cause => cause.message

namespace ElementSpec

section

variable {α : Type} [Document α]

open Decode

/-- One name, or the names of an element that is fused already. -/
def decodeNames (d : α) : Except DecodeError (List String) :=
  match Document.view d with
  | .str s => .ok [s]
  | .list items => items.mapM plainText
  | _ => .error .wrongKind

/-- Properties, which may be left out by writing null. -/
def decodeProperties (d : α) : Except DecodeError (Option Effects) :=
  match Document.view d with
  | .null => .ok none
  | _ => (Effects.decode d).map some

/-- An element of a chain file. -/
def decode : α → Except DecodeError ElementSpec :=
  readRecord .refused 1
    [("name", into decodeNames fun s x ↦ { s with names := x }),
     ("partner", into textOrNull fun s x ↦ { s with partner := x }),
     ("site", into word fun s x ↦ { s with site := x }),
     ("state", into ElementState.decode fun s x ↦ { s with state := x }),
     ("properties", into decodeProperties fun s x ↦ { s with properties := x })]
    ⟨[], none, .dontCare, .stateless, none⟩

/-- The elements of a chain file. -/
def decodeFile : α → Except DecodeError (List ElementSpec) :=
  readRecord .refused 1 [("chain", into (list decode) fun _ x ↦ x)] []

end

/-- The effects of the element: its own, or those in property files. -/
def effects (files : Files) (directory : Option String) (s : ElementSpec) :
    Except LoadError Effects :=
  match s.properties with
  | some effects => .ok effects
  | none =>
    if s.site = .network then .ok .none
    else
      match directory with
      | none => .error (.missingProperties ("+".intercalate s.names))
      | some directory =>
        match Properties.load files directory s.names with
        | .ok effects => .ok effects
        | .error cause => .error (.properties cause)

/-- The element that the chain file gives. -/
def toElement (files : Files) (directory : Option String) (s : ElementSpec) :
    Except LoadError Element :=
  if s.names.isEmpty || s.names.any String.isEmpty then .error .unnamed
  else (s.effects files directory).map fun effects ↦
    ⟨s.names, s.partner, s.site, s.state, effects⟩

end ElementSpec

namespace ChainFile

/-- The elements that a text in a format writes. -/
def parse (format : FileFormat) (text : String) : Except TextFault (List ElementSpec) :=
  match format with
  | .json =>
    match Json.parseLoosely text with
    | .error fault => .error (.json fault)
    | .ok value =>
      match ElementSpec.decodeFile value with
      | .error fault => .error (.shape fault)
      | .ok specs => .ok specs
  | .yaml =>
    match Yaml.parse text with
    | .error fault => .error (.yaml fault)
    | .ok value =>
      match ElementSpec.decodeFile value with
      | .error fault => .error (.shape fault)
      | .ok specs => .ok specs

/-- The elements of a chain file. -/
def read (files : Files) (path : String) : Except LoadError (List ElementSpec) :=
  match files.read path with
  | .error fault => .error (.unreadable path fault)
  | .ok text =>
    match parse (.ofPath path) text with
    | .error fault => .error (.unparsable path (.ofPath path) fault)
    | .ok specs => .ok specs

/-- The chain of a chain file. -/
def load (files : Files) (path : String) (directory : Option String) : Except LoadError Chain := do
  let specs ← read files path
  specs.mapM (ElementSpec.toElement files directory)

end ChainFile

end ChainPlan
