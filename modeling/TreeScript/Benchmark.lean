import TreeScript.Cli

/-!
# The benchmark

The benchmark defines a function for Fibonacci numbers in the script language and calls
it with the number on the command line, or with 25 if there is none that fits in 64
bits. The report does not tell how long the call took.
-/

namespace TreeScript

namespace Benchmark

/-- The definition that is run first. -/
def script : String :=
  "def fibonacci(x) \x7b\n  if x == 0 \x7b 0 \x7d else \x7b\n    if x == 1 \x7b\n      1\n" ++
  "    \x7d else \x7b\n      fibonacci(x - 1) + fibonacci(x - 2)\n    \x7d\n  \x7d\n\x7d"

/-- The number that is taken if none is given. -/
def defaultNumber : Int := 25

/-- Reads an integer with an optional sign, if it fits in 64 bits. -/
def readInteger? (text : String) : Option Int :=
  let value : Option Int :=
    match text.toList with
    | '-' :: cs => (Text.readDigits? cs).map fun n => -(n : Int)
    | cs => (Text.readNat? cs).map fun n => (n : Int)
  value.filter fun n => -(Token.numberLimit : Int) ≤ n && n < (Token.numberLimit : Int)

/-- The number to call with, from the command line. -/
def numberOf (argument : Option String) : Int := (argument.bind readInteger?).getD defaultNumber

/-- Defines the function, parses the call and evaluates it. -/
def program (budget : Nat) (n : Int) : Action Heap Program.RunError Value := do
  let _ ← Program.run Language.full budget (.ofText script)
  let statements ← (Program.parseAll Language.full
    (.ofText ("fibonacci(" ++ toString n ++ ")"))).mapError .parse
  (Program.evaluateAll budget statements).mapError (.eval · "")

/-- Runs the benchmark. A call that fails prints nothing and ends with exit code 101. -/
def report (budget : Nat) (argument : Option String) : Option Cli.Report :=
  let n := numberOf argument
  match program budget n Program.initialHeap with
  | .value value _ _ =>
      some ⟨"engine=tree, n=" ++ toString n ++ ", result=" ++ value.printed, "", 0⟩
  | .error error _ _ => some ⟨"", error.message ++ "\n", 101⟩
  | .unfinished => none

end Benchmark

end TreeScript
