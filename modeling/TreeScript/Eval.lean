import TreeScript.Action
import TreeScript.Eval.Error
import TreeScript.Heap

/-!
# Evaluation

A tree is evaluated in a scope. Leaves give their literal or the value of their name.
An assignment evaluates its right side and changes the nearest binding of the name on
its left. Other operators evaluate the left side, then the right side. On two integers
they compute with 64 bits and wrap around. On other values `+` joins the printed forms
and `==` compares.

An operand with calls after it is evaluated from the left: each call applies the value
of all that stands before it. A call checks the number of arguments, makes a scope
inside the one the function was defined in, evaluates the arguments in the caller's
scope while it binds them to the parameters, and evaluates the body in the new scope.

A block gives the value of its last statement, or zero. A choice looks for a nonzero
integer, a loop for the integer zero. A definition binds the function in the scope it
is evaluated in and gives its name.

A program need not end, so evaluation works within a budget. It bounds both how deep
evaluation nests and how often one loop runs. `step` evaluates one tree, given how the
trees in it are evaluated, and `eval` closes it.
-/

namespace TreeScript

namespace Eval

/-- A step of evaluation. -/
abbrev Evaluator := Action Heap EvalError

/-- How the parts of a tree are evaluated. -/
abbrev Recursor := Tree → ScopeId → Evaluator Value

/-- The child of a tree at an index. -/
def child (tree : Tree) (index : Nat) : Evaluator Tree :=
  Action.ofExcept ((tree.child index).mapError .malformed)

/-- The name that a tree carries. -/
def nameOf (tree : Tree) : Evaluator String :=
  match tree.name? with
  | some name => pure name
  | none => Action.fail (.cannotEval tree.kind)

/-! ## Operators -/

/-- A value with its sign changed. -/
def negate : Value → Except EvalError Value
  | .integer n => .ok (.integer (-n))
  | operand => .error (.badNegation operand.typeName)

/-- An operator on two integers. -/
def integerOperator (operator : String) (left right : Int64) : Except EvalError Value :=
  match operator with
  | "+" => .ok (.integer (left + right))
  | "-" => .ok (.integer (left - right))
  | "*" => .ok (.integer (left * right))
  | "/" => if right = 0 then .error .divisionByZero else .ok (.integer (left / right))
  | "%" => if right = 0 then .error .divisionByZero else .ok (.integer (left % right))
  | "==" => .ok (.ofBool (left = right))
  | ">" => .ok (.ofBool (right < left))
  | "<" => .ok (.ofBool (left < right))
  | _ => .error (.badOperator operator)

/-- An operator on two values. -/
def applyOperator (operator : String) (left right : Value) : Except EvalError Value :=
  match left, right with
  | .integer m, .integer n => integerOperator operator m n
  | _, _ =>
      if operator = "+" then .ok (.text (left.printed ++ right.printed))
      else if operator = "==" then .ok (.ofBool (left.same right))
      else .error (.badType left.typeName operator right.typeName)

/-- Assigns to a tree, which has to be a variable, and gives the value. -/
def assign (target : Tree) (value : Value) (scope : ScopeId) : Evaluator Value :=
  match target with
  | .leaf .variable token => do
      Action.update fun heap => heap.assign scope token.toText value
      return value
  | _ => Action.fail (.badAssignment target.printed)

/-- Two operands with an operator between them. -/
def binary (eval : Recursor) (tree : Tree) (scope : ScopeId) : Evaluator Value := do
  let left ← child tree 0
  let operator ← nameOf (← child tree 1)
  let right ← child tree 2
  if operator = "=" then
    assign left (← eval right scope) scope
  else
    let left ← eval left scope
    let right ← eval right scope
    Action.ofExcept (applyOperator operator left right)

/-! ## Calls -/

/-- Evaluates arguments in the caller's scope and binds them to parameters in the scope
of the call, one after the other. -/
def bindArguments (eval : Recursor) (caller callee : ScopeId) :
    List Tree → List Tree → Evaluator Unit
  | parameter :: parameters, argument :: arguments => do
      let value ← eval argument caller
      let name ← nameOf parameter
      Action.update fun heap => heap.bind callee name value
      bindArguments eval caller callee parameters arguments
  | _, _ => pure ()
termination_by structural parameters => parameters

/-- Calls a value with arguments. -/
def call (eval : Recursor) (arguments : List Tree) (scope : ScopeId) : Value → Evaluator Value
  | .function f =>
      if arguments.length = f.arity then do
        let callee ← Action.transition fun heap => heap.enclose f.scope
        bindArguments eval scope callee f.parameters.children arguments
        Action.tell (.calling f.name f.arity)
        eval f.body callee
      else Action.fail (.badArgumentCount f.arity arguments.length)
  | callee => Action.fail (.badFunction callee.printed)

/-- Applies what follows an operand to its value. -/
def applyPostfix (eval : Recursor) (postfixTree : Tree) (scope : ScopeId) (target : Value) :
    Evaluator Value :=
  match postfixTree with
  | .branch .arguments arguments => call eval arguments scope target
  | _ => Action.fail (.cannotEval postfixTree.kind)

/-- An operand with the first `k` of the calls that follow it. -/
def primary (eval : Recursor) (tree : Tree) (scope : ScopeId) : Nat → Evaluator Value
  | 0 => do eval (← child tree 0) scope
  | k + 1 => do
      let target ← primary eval tree scope k
      applyPostfix eval (← child tree (k + 1)) scope target
termination_by structural k => k

/-! ## Statements -/

/-- Statements in order. The value is that of the last one that does something, or the
given one. -/
def sequence (eval : Tree → Evaluator Value) : Value → List Tree → Evaluator Value
  | result, [] => pure result
  | result, statement :: statements =>
      if statement.isNull then sequence eval result statements
      else do sequence eval (← eval statement) statements
termination_by structural _ statements => statements

/-- A choice between two blocks. -/
def conditional (eval : Recursor) (tree : Tree) (scope : ScopeId) : Evaluator Value := do
  let condition ← eval (← child tree 0) scope
  if condition.isTrue then
    eval (← child tree 1) scope
  else
    match tree.children[2]? with
    | some otherwise => eval otherwise scope
    | none => return .integer 0

/-- One turn of a loop: its condition, and its body unless the condition is the integer
zero. `result` is the value of the turn before. -/
def turn (eval : Recursor) (condition body : Tree) (scope : ScopeId) (result : Value) :
    Evaluator (Value ⊕ Value) := do
  if (← eval condition scope).isFalse then return .inr result
  else return .inl (← eval body scope)

/-- A block that is repeated until its condition is the integer zero. -/
def loop (eval : Recursor) (budget : Nat) (tree : Tree) (scope : ScopeId) : Evaluator Value := do
  let condition ← child tree 0
  let body ← child tree 1
  Action.iterate (turn eval condition body scope) budget (.integer 0)

/-- The definition of a function. -/
def definition (tree : Tree) (scope : ScopeId) : Evaluator Value := do
  let name ← nameOf (← child tree 0)
  let parameters ← child tree 1
  let body ← child tree 2
  Action.tell (.defining name parameters.children.length)
  let function ← Action.transition fun heap => heap.makeFunction name parameters body scope
  Action.update fun heap => heap.bind scope name (.function function)
  return .text name

/-! ## Trees -/

/-- The value of a name. -/
def valueOf (name : String) (scope : ScopeId) : Evaluator Value := do
  match ← Action.view fun heap => heap.get? scope name with
  | some value => return value
  | none => Action.fail (.undefinedName name)

/-- The value of an integer literal. -/
def numberOf (token : Token) : Evaluator Value :=
  match token.number? with
  | some n => pure (.integer n)
  | none => Action.fail (.cannotEval (.leaf .number))

/-- The value of a tree, given how the trees in it are evaluated. -/
def step (eval : Recursor) (budget : Nat) (tree : Tree) (scope : ScopeId) : Evaluator Value :=
  match tree with
  | .leaf .number token => numberOf token
  | .leaf .string token => pure (.text token.toText)
  | .leaf .variable token => valueOf token.toText scope
  | .branch .negative _ => do Action.ofExcept (negate (← eval (← child tree 0) scope))
  | .branch .binary _ => binary eval tree scope
  | .branch .primary children => primary eval tree scope (children.length - 1)
  | .branch .block statements => sequence (eval · scope) (.integer 0) statements
  | .branch .conditional _ => conditional eval tree scope
  | .branch .loop _ => loop eval budget tree scope
  | .branch .null _ => pure .nil
  | .branch .definition _ => definition tree scope
  | .leaf .plain _ => Action.fail (.cannotEval tree.kind)
  | .branch .list _ => Action.fail (.cannotEval tree.kind)
  | .branch .arguments _ => Action.fail (.cannotEval tree.kind)
  | .branch .parameters _ => Action.fail (.cannotEval tree.kind)

end Eval

/-- The value of a tree in a scope, within a budget. One unit of it is spent on each tree on the
way down. -/
def eval : Nat → Tree → ScopeId → Eval.Evaluator Value
  | 0, _, _ => Action.unfinished
  | n + 1, tree, scope => Eval.step (eval n) n tree scope
termination_by structural n => n

end TreeScript
