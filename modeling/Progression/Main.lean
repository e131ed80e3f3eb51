import Progression.CommandLine.Run

/-!
# The command

Reads the files that the arguments name, runs the command on them, and writes the log, the failure and the report.
-/

namespace Progression.CommandLine

/-- Whether a code of the system, which may be negated, is that of an error. -/
def isCode (n code : UInt32) : Bool := code = n || code + n = 0

/-- What an error of the system means for a file. -/
def fileError : IO.Error → FileError
  | .noFileOrDirectory .. => .notFound
  | .noSuchThing .. => .notFound
  | .inappropriateType _ code _ => if isCode 20 code then .notDirectory else .isDirectory
  | .invalidArgument file code details =>
    if isCode 36 code then .nameTooLong else .other (toString (IO.Error.invalidArgument file code details))
  | e => .other (toString e)

/-- Looks at a file. -/
def look (path : String) : IO FileView := do
  try
    return .ofBytes (← IO.FS.readBinFile path)
  catch e =>
    match fileError e with
    | .isDirectory => return .unreadable .isDirectory
    | e => return .unopened e

/-- Writes a file, and answers whether that went well. -/
def writeFile (path text : String) : IO (Except FileError Unit) := do
  try
    IO.FS.writeFile path text
    return .ok ()
  catch e => return .error (fileError e)

def usage : String := "Usage: --requirements <REQUIREMENTS> [OPTIONS]"

/-- Runs the command with its arguments; answers the exit code. -/
def execute (args : Arguments) : IO UInt32 := do
  let requirements ← look args.requirements
  let settings ← match args.settings with
    | some path => look path
    | none => pure (.unopened .notFound)
  let view := fun path => if path = args.requirements then requirements else settings
  let result := (run args view).run
  let written ← match result.value, args.output with
    | .ok report, some path => writeFile path report.text
    | _, _ => pure (.ok ())
  let outcome := Outcome.of args result written
  for line in outcome.transcript.lines do IO.eprintln (String.ofList line.text)
  return outcome.exitCode.toUInt32

end Progression.CommandLine

open Progression.CommandLine in
def main (args : List String) : IO UInt32 := do
  match Arguments.ofList args with
  | .ok args => execute args
  | .error .help =>
    IO.println usage
    return 0
  | .error .misuse =>
    IO.eprintln usage
    return misuseCode.toUInt32
