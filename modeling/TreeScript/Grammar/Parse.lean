import TreeScript.Grammar.Error

/-!
# Parsing by a grammar

Two questions are asked of a rule. `starts` says whether it could start at the
next token. Only its first element is looked at, and a rule without elements can
always start. `parse` takes tokens and builds a tree. Choices and repetitions ask
`starts` and then commit: there is no way back.

`parse` tells the name of the rule, runs the elements in order and puts their
results together. An element gives a list of trees. A choice or a repetition leaves
out an empty list, as separators give it.

An expression is an operand and then, as long as an operator comes next, that
operator with its right operand. While the operator after the right operand takes
that operand as its own left one, it is folded in first.

Both functions recurse through the rules, which need not end: a rule may begin with
itself. So both work within a budget. A chain of first elements longer than the
table of rules has met a rule twice and would go on for ever, so `starts` needs no
more than the number of rules. `parse` can nest that deep without taking a token,
and each token lets it nest that deep again, so its budget is the number of rules
times the number of tokens that can still come. A repetition that goes on for longer
than there are tokens takes none.
-/

namespace TreeScript

namespace Grammar

/-- A step of parsing. -/
abbrev Parser := Action TokenStream ParseError

/-- The token that is `n` tokens ahead. -/
def peek (n : Nat) : Parser Token := (TokenStream.peek n).mapError .read

/-- The next token, which is taken. -/
def next : Parser Token := TokenStream.read.mapError .read

/-- A leaf of a kind. -/
def leaf (kind : Tree.Kind) (token : Token) : Parser Tree :=
  Action.ofExcept ((Tree.ofToken kind token).mapError .shape)

/-- A branch of a kind. -/
def branch (kind : Tree.Kind) (children : List Tree) : Parser Tree :=
  Action.ofExcept ((Tree.ofChildren kind children).mapError .shape)

/-! ## Whether a rule could start -/

/-- The first of several rules for which a question has the answer yes. -/
def firstOf (question : RuleId → Parser Bool) : List RuleId → Parser (Option RuleId)
  | [] => pure none
  | id :: ids => do
      if ← question id then return some id
      firstOf question ids
termination_by structural ids => ids

/-- Whether an element could start at the next token, given the answers for
rules. -/
def elementStarts (grammar : Grammar) (starts : RuleId → Parser Bool) : Element → Parser Bool
  | .tree rule => starts rule
  | .repeated rule _ => starts rule
  | .expression factor _ _ => starts factor
  | .choice rules => return (← firstOf starts rules).isSome
  | .orEmpty _ => return true
  | .token wanted _ => return grammar.accepts wanted (← peek 0)
  | .literal texts _ => return isLiteral texts (← peek 0)
  | .ahead texts => return isLiteral texts (← peek 0)

/-- Whether a rule could start at the next token, within a budget. -/
def startsWithin (grammar : Grammar) : Nat → RuleId → Parser Bool
  | 0, _ => Action.unfinished
  | n + 1, id =>
      match (grammar.rule id).elements with
      | [] => pure true
      | element :: _ => grammar.elementStarts (grammar.startsWithin n) element
termination_by structural n => n

/-- Whether a rule could start at the next token. -/
def starts (grammar : Grammar) (id : RuleId) : Parser Bool :=
  grammar.startsWithin (grammar.rules.size + 1) id

/-- The first of several rules that could start at the next token. -/
def choose (grammar : Grammar) (rules : List RuleId) : Parser (Option RuleId) :=
  firstOf grammar.starts rules

/-! ## Expressions -/

/-- The precedence of the next token, if it is an operator. -/
def nextOperator (operators : Operators) : Parser (Option Precedence) :=
  return operators.ofToken? (← peek 0)

/-- If an operator comes next that takes the operand, folds it in. Otherwise the operand
is done. -/
def foldOperator (operators : Operators) (takes : Precedence → Bool)
    (shift : Tree → Nat → Parser Tree) (operand : Tree) : Parser (Tree ⊕ Tree) := do
  match ← nextOperator operators with
  | none => return .inr operand
  | some precedence =>
      if takes precedence then return .inl (← shift operand precedence.value)
      else return .inr operand

/-- Takes an operator and its right operand. Operators after that operand which take
it as their own are folded in first. -/
def shift (operand : Parser Tree) (operators : Operators) (kind : Tree.Kind) :
    Nat → Tree → Nat → Parser Tree
  | 0, _, _ => Action.unfinished
  | n + 1, left, value => do
      let operator ← leaf (.leaf .plain) (← next)
      let right ← operand
      let right ← Action.iterate
        (foldOperator operators (·.takesOperandOf value) (shift operand operators kind n)) n right
      branch kind [left, operator, right]
termination_by structural n => n

/-- Operands with operators between them. -/
def expression (operand : Parser Tree) (operators : Operators) (kind : Tree.Kind)
    (budget : Nat) : Parser Tree := do
  let left ← operand
  Action.iterate
    (foldOperator operators (fun _ => true) (shift operand operators kind budget)) budget left

/-! ## Elements and rules -/

/-- A tree as a result, unless it is an empty list. -/
def unlessEmpty (tree : Tree) : List Tree := if tree.isEmptyList then [] else [tree]

/-- Parses a rule once more if it could start. The results are collected backwards. -/
def repeatOnce (grammar : Grammar) (parse : RuleId → Parser Tree) (rule : RuleId)
    (found : List Tree) : Parser (List Tree ⊕ List Tree) := do
  if ← grammar.starts rule then return .inl (unlessEmpty (← parse rule) ++ found)
  else return .inr found.reverse

/-- A rule as often as it could start. -/
def repetition (grammar : Grammar) (parse : RuleId → Parser Tree) (rule : RuleId)
    (budget : Nat) : Parser (List Tree) :=
  Action.iterate (grammar.repeatOnce parse rule) budget []

/-- The trees that an element gives, given how rules are parsed. -/
def parseElement (grammar : Grammar) (parse : RuleId → Parser Tree) (budget : Nat) :
    Element → Parser (List Tree)
  | .tree rule => return [← parse rule]
  | .choice rules => do
      match ← grammar.choose rules with
      | some rule => return unlessEmpty (← parse rule)
      | none => Action.fail (.ofToken (← peek 0) "unexpected token.")
  | .repeated rule .any => grammar.repetition parse rule budget
  | .repeated rule .atMostOnce => do
      if ← grammar.starts rule then return unlessEmpty (← parse rule) else return []
  | .orEmpty rule => do
      if ← grammar.starts rule then return [← parse rule]
      else return [← branch (grammar.rule rule).kind []]
  | .token wanted kind => do
      let token ← next
      if grammar.accepts wanted token then return [← leaf kind token]
      else Action.fail (.ofToken token wanted.expected)
  | .literal texts keep => do
      let token ← next
      if isLiteral texts token then
        if keep then return [← leaf (.leaf .plain) token] else return []
      else Action.fail (.ofToken token (expected texts))
  | .ahead texts => do
      let token ← peek 0
      if isLiteral texts token then return [] else Action.fail (.ofToken token (expected texts))
  | .expression factor operators kind =>
      return [← expression (parse factor) operators kind budget]

/-- The trees that a sequence of elements gives. -/
def parseElements (grammar : Grammar) (parse : RuleId → Parser Tree) (budget : Nat) :
    List Element → Parser (List Tree)
  | [] => pure []
  | element :: elements => do
      let trees ← grammar.parseElement parse budget element
      return trees ++ (← grammar.parseElements parse budget elements)
termination_by structural elements => elements

/-- Parses a rule, given how the rules in it are parsed. -/
def parseRule (grammar : Grammar) (parse : RuleId → Parser Tree) (budget : Nat)
    (rule : Rule) : Parser Tree := do
  Action.tell (.parsing rule.name)
  branch rule.kind (← grammar.parseElements parse budget rule.elements)

/-- Parses a rule within a budget. -/
def parseWithin (grammar : Grammar) : Nat → RuleId → Parser Tree
  | 0, _ => Action.unfinished
  | n + 1, id => grammar.parseRule (grammar.parseWithin n) n (grammar.rule id)
termination_by structural n => n

/-- The budget for a stream. -/
def budget (grammar : Grammar) (stream : TokenStream) : Nat :=
  (grammar.rules.size + 1) * (stream.bound + 2)

/-- Parses a rule. -/
def parse (grammar : Grammar) (id : RuleId) : Parser Tree := fun stream =>
  grammar.parseWithin (grammar.budget stream) id stream

end Grammar

end TreeScript
