import ChainPlan.CommandLine.Options

/-! # Reading the command line

The words of a command line are read from left to right. An option takes its value from the same
word, behind an equals sign or right behind its letter, or from the next word, unless that looks
like an option. An argument is settled only when the next one begins or the line ends, so a word
that is unknown comes before what is wrong with the argument in front of it. Behind `--` every word
is an input.
-/

namespace ChainPlan

/-- What the name of an option stands for. -/
inductive Switch where
  | argument (argument : Argument)
  | help
  | version
  deriving DecidableEq, Repr

namespace Switch

/-- The option of a long name. -/
def ofLong? (name : String) : Option Switch :=
  [("property-dir", argument .propertyDir), ("path", argument .traffic),
   ("level", argument .level), ("strategy", argument .strategy),
   ("max-moves", argument .maxMoves), ("max-exhaustive-len", argument .maxExhaustiveLength),
   ("verbose", argument .verbose), ("pretty-json", argument .prettyJson),
   ("help", help), ("version", version)].lookup name

/-- The option of a letter. -/
def ofLetter? (letter : Char) : Option Switch :=
  [('P', argument .propertyDir), ('O', argument .level), ('v', argument .verbose),
   ('h', help), ('V', version)].lookup letter

end Switch

/-- What a word of the command line looks like. -/
inductive CommandWord where
  /-- The mark behind which every word is an input. -/
  | separator
  /-- An option by its long name, with the value behind an equals sign. -/
  | long (name : String) (value : Option String)
  /-- Options by their letters. -/
  | letters (letters : List Char)
  | plain (text : String)
  deriving DecidableEq, Repr

/-- What a word of the command line is; one hyphen alone is a plain word. -/
def CommandWord.ofText (s : String) : CommandWord :=
  match s.toList with
  | ['-', '-'] => .separator
  | '-' :: '-' :: rest =>
    match rest.dropWhile (· != '=') with
    | [] => .long (String.ofList rest) none
    | _ :: value => .long (String.ofList (rest.takeWhile (· != '='))) (some (String.ofList value))
  | '-' :: c :: rest => .letters (c :: rest)
  | _ => .plain s

/-- A command line that has been read in part. -/
structure CommandDraft where
  options : RunOptions
  /-- The arguments that have been settled. -/
  settled : List Argument
  /-- The argument that is not settled yet, with its value if that has come. -/
  pending : Option (Argument × Option String)
  /-- Whether the separator has been passed. -/
  trailing : Bool

namespace CommandDraft

/-- The draft before the first word. -/
def start : CommandDraft := ⟨.ofInput "", [], none, false⟩

/-- The draft with an argument settled: it has its value, and no argument comes twice. -/
def settle (d : CommandDraft) (a : Argument) (value : Option String) :
    Except UsageError CommandDraft :=
  if a.takesValue && value.isNone then .error (.missingValue a)
  else if d.settled.contains a then .error (.repeatedArgument a)
  else (d.options.put a (value.getD "")).map fun options ↦
    { d with options, settled := a :: d.settled }

/-- The draft with its pending argument settled. -/
def resolve (d : CommandDraft) : Except UsageError CommandDraft :=
  match d.pending with
  | some (a, value) => { d with pending := none }.settle a value
  | none => .ok d

/-- The draft after an option with a value in the same word, if there is one. -/
def useSwitch (d : CommandDraft) (switch : Switch) (value : Option String) :
    Except UsageError CommandDraft := do
  let d ← d.resolve
  match switch with
  | .help => throw .help
  | .version => throw .version
  | .argument a =>
    if a.takesValue && value.isNone then return { d with pending := some (a, none) }
    else d.settle a value

/-- The draft after a long option. -/
def useLong (d : CommandDraft) (name : String) (value : Option String) :
    Except UsageError CommandDraft :=
  match Switch.ofLong? name, value with
  | none, _ => .error (.unknownArgument ("--" ++ name))
  | some (.argument a), _ =>
    if !a.takesValue && value.isSome then .error (.unwantedValue ("--" ++ name))
    else d.useSwitch (.argument a) value
  | some switch, none => d.useSwitch switch none
  | some _, some _ => .error (.unwantedValue ("--" ++ name))

/-- The value of an option in the rest of its word, where an equals sign may come first. -/
def attached : List Char → Option String
  | [] => none
  | '=' :: rest => some (String.ofList rest)
  | rest => some (String.ofList rest)

/-- The draft after options by their letters; the first that takes a value takes the rest. -/
def useLetters (d : CommandDraft) : List Char → Except UsageError CommandDraft
  | [] => .ok d
  | c :: rest =>
    match Switch.ofLetter? c with
    | none => .error (.unknownArgument (String.ofList ['-', c]))
    | some switch =>
      match switch with
      | .argument a =>
        if a.takesValue then d.useSwitch switch (attached rest)
        else do
          let d ← d.useSwitch switch none
          d.useLetters rest
      | _ => d.useSwitch switch none

/-- The draft after an input. -/
def useInput (d : CommandDraft) (text : String) : Except UsageError CommandDraft :=
  let given := Argument.input ∈ d.settled ∨ d.pending.any fun p ↦ p.1 = .input
  if given then .error (.unknownArgument text)
  else do
    let d ← d.resolve
    return { d with pending := some (.input, some text) }

/-- The draft after one more word. -/
def step (d : CommandDraft) (text : String) : Except UsageError CommandDraft :=
  if d.trailing then d.useInput text
  else
    match CommandWord.ofText text, d.pending with
    | .separator, _ => .ok { d with trailing := true }
    | .long name value, _ => d.useLong name value
    | .letters letters, _ => d.useLetters letters
    | .plain text, some (a, none) => .ok { d with pending := some (a, some text) }
    | .plain text, _ => d.useInput text

/-- The options at the end of the line. -/
def finish (d : CommandDraft) : Except UsageError RunOptions := do
  let d ← d.resolve
  if d.settled.isEmpty then throw .nothingGiven
  else if Argument.input ∈ d.settled then return d.options
  else throw .missingInput

end CommandDraft

/-- The options that a command line gives, the name of the program in front of its words. -/
def RunOptions.ofCommandLine (words : List String) : Except UsageError RunOptions := do
  let draft ← (words.drop 1).foldlM CommandDraft.step .start
  draft.finish

end ChainPlan
