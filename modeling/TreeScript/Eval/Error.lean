import TreeScript.Tree

/-!
# Why an evaluation fails

Each error says what was wrong and with what. The names of sorts of values and the
printed forms of trees and values are kept as texts.
-/

namespace TreeScript

/-- Why an evaluation fails. -/
inductive EvalError where
  /-- No scope on the chain binds the name. -/
  | undefinedName (name : String)
  /-- A value of this sort cannot be negated. -/
  | badNegation (typeName : String)
  /-- The operator does not take values of these sorts. -/
  | badType (left : String) (operator : String) (right : String)
  /-- Integers have no such operator. -/
  | badOperator (operator : String)
  /-- The tree, here in its printed form, cannot be assigned to. -/
  | badAssignment (target : String)
  /-- The value, here in its printed form, cannot be called. -/
  | badFunction (callee : String)
  /-- A call has another number of arguments than the function has parameters. -/
  | badArgumentCount (want : Nat) (got : Nat)
  /-- The right operand of a division or remainder is zero. -/
  | divisionByZero
  /-- A tree of this kind has no value. -/
  | cannotEval (kind : Tree.Kind)
  /-- A tree lacks a part that its kind needs. -/
  | malformed (error : Tree.ShapeError)
deriving DecidableEq, Repr

/-- The text of an evaluation error. -/
def EvalError.message : EvalError → String
  | .undefinedName name => s!"undefined name: {name}"
  | .badNegation typeName => s!"bad type for negation: {typeName}"
  | .badType left operator right => s!"bad type: {left} {operator} {right}"
  | .badOperator operator => s!"bad operator: {operator}"
  | .badAssignment target => s!"bad assignment: {target}"
  | .badFunction callee => s!"bad function: {callee}"
  | .badArgumentCount want got => s!"bad number of arguments: want={want}, got={got}"
  | .divisionByZero => "division by zero"
  | .cannotEval kind => "cannot eval: " ++ kind.name
  | .malformed error => "malformed syntax tree: " ++ error.message

end TreeScript
