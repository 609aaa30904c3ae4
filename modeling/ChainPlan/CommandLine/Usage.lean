import ChainPlan.CommandLine.Options

/-! # Usage of the command line

The help text, the version, and the wording of errors on the command line.
-/

namespace ChainPlan

namespace UsageError

/-- How the program is called. -/
def usageLine : String := "Usage: chainplan [OPTIONS] <INPUT>"

/-- The version of the program. -/
def versionText : String := "chainplan 0.1.0"

/-- The arguments of a setting, as the help text shows them. -/
def choice (α : Type) [Spelled α] : String := "<" ++ "|".intercalate (Spelled.names α) ++ ">"

/-- The help text. -/
def helpText : String :=
  "\n".intercalate
    ["Plans on which side of the network the elements of a chain run.", "", usageLine, "",
     "  <INPUT>                     the chain file, in JSON or YAML",
     "  -P, --property-dir <DIR>    the directory of the property files",
     "      --path " ++ choice Traffic,
     "  -O, --level " ++ choice Level,
     "      --strategy " ++ choice Strategy,
     "      --max-moves <N>         the moves that the local search may accept",
     "      --max-exhaustive-len <N>  the longest chain whose orders are all searched",
     "  -v, --verbose               show the chain before it is planned",
     "      --pretty-json           indent the plan",
     "  -h, --help                  show this help",
     "  -V, --version               show the version"]

/-- The wording of an error on the command line. -/
def message : UsageError → String
  | .help | .nothingGiven => helpText
  | .version => versionText
  | .missingInput => "error: the input is missing\n\n" ++ usageLine
  | .unknownArgument given => s!"error: unexpected argument {given}\n\n" ++ usageLine
  | .unwantedValue given => s!"error: {given} takes no value\n\n" ++ usageLine
  | .repeatedArgument a => s!"error: {a.name} may be given only once\n\n" ++ usageLine
  | .missingValue a => s!"error: {a.name} needs a value\n\n" ++ usageLine
  | .invalidValue a given => s!"error: invalid value \x22{given}\x22 for {a.name}\n\n" ++ usageLine
  | .invalidNumber a given =>
    s!"error: {a.name} needs a number, found \x22{given}\x22\n\n" ++ usageLine

end UsageError

end ChainPlan
