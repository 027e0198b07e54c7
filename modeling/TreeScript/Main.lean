import TreeScript.Cli

/-!
# The program

Reads the command line, the environment and the input, and prints.
-/

namespace TreeScript

namespace Main

/-- How long the program goes on: longer than any machine runs. -/
def budget : Nat := 0x4000000000000000

/-- The filter that the environment asks for. -/
def filter : IO Filter := do
  match ← IO.getEnv "RUST_LOG" with
  | some text => return .ofText text
  | none => return []

/-- The look of the dialogue that the environment asks for. -/
def config : IO Dialogue.Config := do
  let prompt := (← IO.getEnv "SCRIPT_PROMPT").getD ({} : Dialogue.Config).prompt
  let showTrees := (← IO.getEnv "SCRIPT_SHOW_AST").isSome
  return { prompt, showTrees }

/-- The number of a system error. Some calls give it negated. -/
def errorNumber (code : UInt32) : UInt32 := min code (0 - code)

/-- Why a script cannot be read, from the system's error. -/
def fileError : IO.Error → Cli.FileError
  | .noFileOrDirectory .. => .notFound
  | .permissionDenied .. => .denied
  | .inappropriateType _ code _ =>
      if errorNumber code = 20 then .notDirectory else .isDirectory
  | error@(.invalidArgument _ code _) =>
      if errorNumber code = 36 then .nameTooLong else .other (toString error)
  | error => .other (toString error)

/-- Reads a script. -/
def readScript (path : String) : IO (Except Cli.FileError Source) := do
  try
    return Cli.sourceOfFile (← IO.FS.readBinFile path)
  catch error => return .error (fileError error)

/-- Prints a report and gives its exit code. -/
def printReport : Option Cli.Report → IO UInt32
  | some report => do
      IO.eprint report.stderr
      IO.print report.stdout
      return report.exit.toUInt32
  | none => return 1

/-- Reads the bytes of a line, up to and with its line break. -/
partial def readLineFrom (input : IO.FS.Stream) (bytes : List UInt8) : IO (List UInt8) := do
  match (← input.read 1).data.toList with
  | [] => return bytes.reverse
  | byte :: _ =>
      if byte = 10 then return (byte :: bytes).reverse else readLineFrom input (byte :: bytes)

/-- Goes on with a dialogue. -/
partial def dialogue (filter : Filter) (config : Dialogue.Config) (unit : Source) (heap : Heap) :
    IO Unit := do
  IO.print (config.promptFor unit)
  (← IO.getStdout).flush
  let bytes ← readLineFrom (← IO.getStdin) []
  if bytes.isEmpty then return
  match Source.lineOfBytes bytes with
  | .garbled => return
  | .text content =>
      match Dialogue.feed config budget unit content heap with
      | .value (unit, shown) heap journal =>
          IO.eprint (filter.log journal)
          IO.print shown
          dialogue filter config unit heap
      | .error error _ _ => nomatch error
      | .unfinished => return

end Main

end TreeScript

open TreeScript in
/-- Runs the script that the first argument names, or holds a dialogue. -/
def main (arguments : List String) : IO UInt32 := do
  let filter ← Main.filter
  match arguments with
  | path :: _ =>
      Main.printReport (Cli.runScript filter Main.budget path (← Main.readScript path))
  | [] =>
      IO.print Cli.greeting
      try Main.dialogue filter (← Main.config) [] Program.initialHeap
      catch _ => pure ()
      return 0
