import TreeScript.Journal.Filter
import TreeScript.Dialogue

/-!
# The command line

With the path of a script the program runs it and prints its value. Without one it
holds a dialogue on its input. What a run does is given as a `Report`, so that the
outermost layer only reads and prints.

A script that cannot be read ends with exit code 2, a script that fails with exit code
1. Errors and the log go to the error output.
-/

namespace TreeScript

namespace Cli

/-- What a run of the program printed and how it ended. -/
structure Report where
  /-- What went to the output. -/
  stdout : String
  /-- What went to the error output. -/
  stderr : String
  /-- The exit code. -/
  exit : Nat
deriving DecidableEq, Repr

/-- Why a script cannot be read. -/
inductive FileError where
  /-- There is no such file. -/
  | notFound
  /-- The path is that of a directory. -/
  | isDirectory
  /-- The path goes through a file. -/
  | notDirectory
  /-- The path or a name in it is too long. -/
  | nameTooLong
  /-- The file may not be read. -/
  | denied
  /-- The file is not text. -/
  | notText
  /-- Another reason. -/
  | other (reason : String)
deriving DecidableEq, Repr

/-- The text of a file error. -/
def FileError.message : FileError → String
  | .notFound => "No such file or directory (os error 2)"
  | .isDirectory => "Is a directory (os error 21)"
  | .notDirectory => "Not a directory (os error 20)"
  | .nameTooLong => "File name too long (os error 36)"
  | .denied => "Permission denied (os error 13)"
  | .notText => garbledText
  | .other reason => reason

/-- The source that a file holds. One byte that is not text spoils all of it. -/
def sourceOfFile (bytes : ByteArray) : Except FileError Source :=
  match String.fromUTF8? bytes with
  | some text => .ok (.ofText text)
  | none => .error .notText

/-- What is printed before a dialogue. -/
def greeting : String :=
  "Hello! This is a simple scripting language!\nFeel free to type in commands\n"

/-- Runs the script at a path, given what was read from there. There is no report of a
script that does not finish within the budget. -/
def runScript (filter : Filter) (budget : Nat) (path : String)
    (content : Except FileError Source) : Option Report :=
  match content with
  | .error error => some ⟨"", "cannot read " ++ path ++ ": " ++ error.message ++ "\n", 2⟩
  | .ok source =>
      match Program.run Language.full budget source Program.initialHeap with
      | .value value _ journal => some ⟨value.printed ++ "\n", filter.log journal, 0⟩
      | .error error _ journal =>
          some ⟨"", filter.log journal ++ "ERROR: " ++ error.message ++ "\n", 1⟩
      | .unfinished => none

/-- Holds a dialogue on an input. -/
def runDialogue (filter : Filter) (budget : Nat) (config : Dialogue.Config) (input : Source) :
    Option Report :=
  match Dialogue.transcript config budget input Program.initialHeap with
  | .value transcript _ journal =>
      some ⟨greeting ++ transcript.output, filter.log journal, 0⟩
  | .error error _ _ => nomatch error
  | .unfinished => none

end Cli

end TreeScript
