import TreeScript.Tree.Printed

/-!
# Values

A program computes with integers of 64 bits, texts, functions and nothing at all
(`nil`). A function keeps its parameters and body as trees and the scope it was
defined in. Two functions are the same only if they come from one evaluation of one
definition, so each carries a number of its own.
-/

namespace TreeScript

/-- The number of a scope. -/
abbrev ScopeId := Nat

/-- A function with the scope it was defined in. -/
structure Function where
  /-- The number that tells this function from all others. -/
  id : Nat
  /-- The name it was defined under. -/
  name : String
  /-- The parameters. -/
  parameters : Tree
  /-- The body. -/
  body : Tree
  /-- The scope it was defined in. -/
  scope : ScopeId
deriving Repr

/-- What an expression can give. -/
inductive Value where
  /-- An integer of 64 bits. -/
  | integer (value : Int64)
  /-- A text. -/
  | text (value : String)
  /-- A function. -/
  | function (function : Function)
  /-- Nothing. -/
  | nil
deriving Repr

/-- How many arguments a function takes. -/
def Function.arity (f : Function) : Nat := f.parameters.children.length

/-- A function in messages. -/
def Function.printed (f : Function) : String := s!"<fun: {f.name}>"

namespace Value

/-- One for true and zero for false. -/
def ofBool (b : Bool) : Value := .integer (if b then 1 else 0)

/-- The name of the sort of value. -/
def typeName : Value → String
  | .integer _ => "INTEGER"
  | .text _ => "STRING"
  | .function _ => "FUNCTION"
  | .nil => "NIL"

/-- Whether a choice takes its first branch: only on an integer that is not zero. -/
def isTrue : Value → Bool
  | .integer n => n != 0
  | _ => false

/-- Whether a loop ends: only on the integer zero. -/
def isFalse : Value → Bool
  | .integer n => n == 0
  | _ => false

/-- Whether two values are the same. Functions are compared by their number. -/
def same : Value → Value → Bool
  | .integer m, .integer n => m == n
  | .text s, .text t => s == t
  | .function f, .function g => f.id == g.id
  | .nil, .nil => true
  | _, _ => false

/-- A value as it is printed. -/
def printed : Value → String
  | .integer n => toString n.toInt
  | .text s => s
  | .function f => f.printed
  | .nil => "nil"

/-- A value with its sort and all its parts. -/
def detailed : Value → String
  | .integer n => "Integer(" ++ toString n.toInt ++ ")"
  | .text s => "String(" ++ Text.quoted s ++ ")"
  | .function f =>
      "Function(Function \x7b name: " ++ Text.quoted f.name ++
        ", parameters: " ++ Text.quoted f.parameters.printed ++
        ", body: " ++ Text.quoted f.body.printed ++ " \x7d)"
  | .nil => "Nil"

end Value

end TreeScript
