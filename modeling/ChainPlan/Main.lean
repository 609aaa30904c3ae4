import ChainPlan.CommandLine.Parser
import ChainPlan.CommandLine.Usage
import ChainPlan.Session

/-! # The program

The thin layer around a run: it reads the files that the run may look at, prints the outcome, and
returns the exit code.
-/

namespace ChainPlan

/-- What a failed attempt to read a file tells about its path. -/
def entryOfError : IO.Error → Entry
  | .noFileOrDirectory .. => .absent .noSuchFile
  | .inappropriateType _ code _ => if code = 21 then .directory else .absent .notADirectory
  | e => .absent (.other (toString e))

/-- What a path leads to. -/
def readEntry (path : String) : IO Entry := do
  try
    return .file (← IO.FS.readBinFile path)
  catch e => return entryOfError e

/-- What some paths lead to; nothing is known of other paths. -/
def readEntries (paths : List String) : IO Files := do
  let entries ← paths.mapM fun path ↦ do return (path, ← readEntry path)
  return ⟨fun path ↦ (entries.lookup path).getD (.absent .noSuchFile)⟩

/-- One run with the files of the system. -/
def runProgram (o : RunOptions) : IO Outcome := do
  let input ← readEntries [o.input]
  let files ← readEntries (o.input :: Session.propertyPaths input o)
  return Session.run files o

/-- Plans the chain that the words of the command line name. -/
def runWords (words : List String) : IO UInt32 := do
  match RunOptions.ofCommandLine ("chainplan" :: words) with
  | .ok o =>
    let outcome ← runProgram o
    IO.print outcome.output
    IO.eprint outcome.diagnostics
    return outcome.exitCode.toUInt32
  | .error e =>
    if e.exitCode = 0 then IO.println e.message else IO.eprintln e.message
    return e.exitCode.toUInt32

end ChainPlan

/-- The entry of the program. -/
def main (words : List String) : IO UInt32 := ChainPlan.runWords words
