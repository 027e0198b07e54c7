import TreeScript.Program

/-!
# The dialogue

The dialogue reads a line at a time. Lines are collected in a *unit* until it parses.
A unit whose only fault is that it ends too early waits for more lines, under another
prompt. A unit with another fault is dropped with a message. A unit that parses is
evaluated statement by statement, and each value is shown, up to the first error.

The dialogue ends with the input, or at a line that is not text.
-/

namespace TreeScript

namespace Dialogue

/-- How the dialogue looks. -/
structure Config where
  /-- What is shown when a new unit may begin. -/
  prompt : String := ">> "
  /-- Whether each statement is shown before its value. -/
  showTrees : Bool := false
deriving DecidableEq, Repr

/-- What is shown when a unit goes on. -/
def continuationPrompt : String := ".. "

/-- What is shown before a line is read. -/
def Config.promptFor (config : Config) (unit : Source) : String :=
  if unit.isEmpty then config.prompt else continuationPrompt

/-- Evaluates statements and shows their values, up to the first error. `output` is what
was shown before. -/
def showValues (config : Config) (budget : Nat) (output : String) :
    List Tree → Action Heap Empty String
  | [] => pure output
  | statement :: statements =>
      if statement.isNull then showValues config budget output statements
      else do
        let output :=
          if config.showTrees then output ++ "=> " ++ statement.printed ++ "\n" else output
        match ← (Program.evaluate budget statement).attempt with
        | .ok value => showValues config budget (output ++ value.printed ++ "\n") statements
        | .error error => return output ++ "ERROR: " ++ error.message ++ "\n"
termination_by structural statements => statements

/-- Takes one line. Gives the unit that waits for more lines and what is shown. -/
def feed (config : Config) (budget : Nat) (unit : Source) (content : String) :
    Action Heap Empty (Source × String) := do
  let unit := unit ++ [.text content]
  match ← (Program.parseAll Language.full unit).attempt with
  | .ok statements => return ([], ← showValues config budget "" statements)
  | .error error =>
      if error.isIncomplete then return (unit, "")
      else return ([], "\t" ++ error.message ++ "\n")

/-- What a dialogue showed and how it ended. -/
structure Transcript where
  /-- All that was shown. -/
  output : String
  /-- Whether it ended at a line that is not text. -/
  garbled : Bool
deriving DecidableEq, Repr

/-- The dialogue over the lines that are left. -/
def transcriptFrom (config : Config) (budget : Nat) (unit : Source) (output : String) :
    Source → Action Heap Empty Transcript
  | [] => return ⟨output ++ config.promptFor unit, false⟩
  | .garbled :: _ => return ⟨output ++ config.promptFor unit, true⟩
  | .text content :: lines => do
      let (unit', shown) ← feed config budget unit content
      transcriptFrom config budget unit' (output ++ config.promptFor unit ++ shown) lines
termination_by structural lines => lines

/-- The dialogue over an input. -/
def transcript (config : Config) (budget : Nat) (input : Source) :
    Action Heap Empty Transcript :=
  transcriptFrom config budget [] "" input

end Dialogue

end TreeScript
