import TreeScript.Text.Digits
import TreeScript.Tree.Printed

/-!
# The journal

While a program is read and run, each step of note leaves an *event*. An event
has a level, which says how detailed it is, and a target, which says what part
of the work it comes from. The journal of a run is the list of its events in
order. What the program computes never depends on it.
-/

namespace TreeScript

/-- How much a journal tells, from nothing to everything. -/
inductive Level where
  /-- Nothing. -/
  | off
  /-- Errors. -/
  | error
  /-- Warnings too. -/
  | warn
  /-- Notes too. -/
  | info
  /-- The steps of evaluation too. -/
  | debug
  /-- The steps of reading too. -/
  | trace
deriving DecidableEq, Repr

namespace Level

/-- The place of a level, from nothing to everything. -/
def rank : Level → Nat
  | .off => 0
  | .error => 1
  | .warn => 2
  | .info => 3
  | .debug => 4
  | .trace => 5

/-- The name of a level. -/
def name : Level → String
  | .off => "OFF"
  | .error => "ERROR"
  | .warn => "WARN"
  | .info => "INFO"
  | .debug => "DEBUG"
  | .trace => "TRACE"

/-- All levels. -/
def all : List Level := [.off, .error, .warn, .info, .debug, .trace]

/-- Reads a level from its rank or from its name in any case. -/
def ofText? (text : String) : Option Level :=
  match Text.readNat? text.toList with
  | some rank => all.find? (·.rank == rank)
  | none => all.find? (·.name == text.toUpper)

end Level

/-- A step worth telling. -/
inductive Event where
  /-- A line was cut into this many tokens. -/
  | scanned (line : Nat) (tokens : Nat)
  /-- A grammar rule is tried. -/
  | parsing (rule : String)
  /-- A statement is evaluated. -/
  | evaluating (statement : Tree)
  /-- A function with this many parameters is defined. -/
  | defining (function : String) (arity : Nat)
  /-- A function with this many parameters is called. -/
  | calling (function : String) (arity : Nat)
deriving Repr

namespace Event

/-- How detailed an event is. -/
def level : Event → Level
  | .scanned .. => .trace
  | .parsing .. => .trace
  | .evaluating .. => .debug
  | .defining .. => .debug
  | .calling .. => .debug

/-- The part of the work an event comes from. -/
def target : Event → String
  | .scanned .. => "simple_script::lexer"
  | .parsing .. => "simple_script::parser::combinator"
  | .evaluating .. => "simple_script::interpreter"
  | .defining .. => "simple_script::evaluator"
  | .calling .. => "simple_script::evaluator"

/-- The names of the details an event has. What happened is one of them. -/
def details : Event → List String
  | .scanned .. => ["message", "line", "tokens"]
  | .parsing .. => ["message", "rule"]
  | .evaluating .. => ["message", "statement"]
  | .defining .. => ["message", "function", "arity"]
  | .calling .. => ["message", "function", "arity"]

/-- What happened, with its details. -/
def message : Event → String
  | .scanned line tokens => s!"lexed line line={line} tokens={tokens}"
  | .parsing rule => "parsing rule=" ++ Text.quoted rule
  | .evaluating statement => "evaluating statement=" ++ statement.printed
  | .defining function arity => s!"defining function={function} arity={arity}"
  | .calling function arity => s!"calling function={function} arity={arity}"

/-- The line an event adds to the log. -/
def logLine (event : Event) : String := event.level.name ++ " " ++ event.message ++ "\n"

end Event

end TreeScript
