import TreeScript.Eval
import TreeScript.Language

/-!
# Running a program

A program is a source in a language. It can be parsed as a whole, and its statements
evaluated after that. Or it can be run: each statement is evaluated before the next one
is parsed. What was evaluated before an error stays. An error of evaluation names the
line on which its statement begins.

All statements at the top are evaluated in the global scope, the first one of the heap.
The value of a program is that of its last statement that does something, or `nil`.

Each statement takes at least one token, so no source has more statements than tokens.
-/

namespace TreeScript

namespace Program

/-- The scope of statements at the top. -/
def globalScope : ScopeId := 0

/-- The heap before a program is run: the global scope, with nothing in it. -/
def initialHeap : Heap := Heap.empty.makeScope.2

/-- Why a run stops early. -/
inductive RunError where
  /-- A statement does not parse. -/
  | parse (error : Grammar.ParseError)
  /-- The evaluation of a statement fails. -/
  | eval (error : EvalError) (location : String)
deriving DecidableEq, Repr

/-- The text of a run error. -/
def RunError.message : RunError → String
  | .parse error => error.message
  | .eval error location => error.message ++ " " ++ location

/-! ## Parsing a source -/

/-- Parses one more statement if the stream has not ended. The statements are collected
backwards. -/
def nextStatement (language : Language) (found : List Tree) :
    Grammar.Parser (List Tree ⊕ List Tree) := do
  if (← Grammar.peek 0).isEndOfFile then return .inr found.reverse
  else return .inl ((← language.statement) :: found)

/-- The statements that are left in a stream. -/
def statements (language : Language) : Grammar.Parser (List Tree) := fun stream =>
  Action.iterate (nextStatement language) (stream.bound + 1) [] stream

/-- The statements of a source, those that do nothing included. -/
def parseAll {σ : Type} (language : Language) (source : Source) :
    Action σ Grammar.ParseError (List Tree) := do
  let (found, _) ← Action.inside (TokenStream.ofSource source) (statements language)
  return found

/-! ## Evaluating statements -/

/-- The value of a statement at the top. -/
def evaluate (budget : Nat) (statement : Tree) : Eval.Evaluator Value := do
  Action.tell (.evaluating statement)
  eval budget statement globalScope

/-- The value of statements at the top. -/
def evaluateAll (budget : Nat) (statements : List Tree) : Eval.Evaluator Value :=
  Eval.sequence (evaluate budget) .nil statements

/-- Parses one more statement if the stream has not ended, and evaluates it if it does
something. The value of the last such statement goes along with the stream. -/
def runStatement (language : Language) (budget : Nat) :
    TokenStream × Value → Action Heap RunError ((TokenStream × Value) ⊕ Value)
  | (stream, result) => do
      let (token, stream) ← (Action.inside stream (Grammar.peek 0)).mapError .parse
      if token.isEndOfFile then return .inr result
      let (statement, stream) ← (Action.inside stream language.statement).mapError .parse
      if statement.isNull then return .inl (stream, result)
      let value ← (evaluate budget statement).mapError
        (.eval · (statement.location?.getD ""))
      return .inl (stream, value)

/-- Runs a source. -/
def run (language : Language) (budget : Nat) (source : Source) : Action Heap RunError Value :=
  let stream := TokenStream.ofSource source
  Action.iterate (runStatement language budget) (stream.bound + 1) (stream, .nil)

end Program

end TreeScript
