import TreeScript.Tree

/-!
# Grammars

A grammar is a table of rules and a list of reserved words. A rule is a sequence
of elements and the kind of tree that its results are put in. Rules refer to each
other by their place in the table, so a rule may be used before it is written
down, and every use of a rule sees later changes of it.

A grammar is built by adding rules. A rule may be declared first and defined
later, and a rule that is there may be extended at its end or given one more
choice at its start.
-/

namespace TreeScript

namespace Grammar

/-! ## Operators -/

/-- Which way operators of one precedence group. -/
inductive Associativity where
  /-- To the left. -/
  | left
  /-- To the right. -/
  | right
deriving DecidableEq, Repr

/-- How tightly an operator binds. -/
structure Precedence where
  /-- A larger value binds tighter. -/
  value : Nat
  /-- Which way operators of this precedence group. -/
  associativity : Associativity
deriving DecidableEq, Repr

/-- Whether an operator that follows the right operand of another one, of
precedence `value`, takes that operand as its left one. -/
def Precedence.takesOperandOf (precedence : Precedence) (value : Nat) : Bool :=
  match precedence.associativity with
  | .left => value < precedence.value
  | .right => value ≤ precedence.value

/-- A table of operators. Each operator has one row. -/
structure Operators where
  /-- The operators and their precedences. -/
  rows : List (String × Precedence)
deriving DecidableEq, Repr

namespace Operators

/-- The table without operators. -/
def empty : Operators := ⟨[]⟩

/-- The table with a row for an operator, in place of the row it had. -/
def insert (operators : Operators) (name : String) (precedence : Precedence) : Operators :=
  ⟨(name, precedence) :: operators.rows.filter (·.1 != name)⟩

/-- The precedence of an operator. -/
def get? (operators : Operators) (name : String) : Option Precedence :=
  operators.rows.lookup name

/-- The table of a list of rows, where a later row replaces an earlier one. -/
def ofRows (rows : List (String × Precedence)) : Operators :=
  rows.foldl (fun operators row => operators.insert row.1 row.2) empty

end Operators

/-! ## Rules -/

/-- The place of a rule in the table of a grammar. -/
abbrev RuleId := Nat

/-- The classes of tokens that a rule can ask for. -/
inductive TokenClass where
  /-- Integer literals. -/
  | number
  /-- String literals. -/
  | string
  /-- Names that are not reserved. -/
  | name
deriving DecidableEq, Repr

/-- How often a repeated rule may occur. -/
inductive Times where
  /-- Once or not at all. -/
  | atMostOnce
  /-- Any number of times. -/
  | any
deriving DecidableEq, Repr

/-- One part of a rule. -/
inductive Element where
  /-- What another rule gives. -/
  | tree (rule : RuleId)
  /-- The first of several rules that could start here. -/
  | choice (rules : List RuleId)
  /-- A rule as often as it could start here. -/
  | repeated (rule : RuleId) (times : Times)
  /-- A rule if it could start here, and an empty tree of its kind if not. -/
  | orEmpty (rule : RuleId)
  /-- A token of a class, as a leaf. -/
  | token (wanted : TokenClass) (kind : Tree.Kind)
  /-- One of several texts, as a leaf or dropped. -/
  | literal (texts : List String) (keep : Bool)
  /-- One of several texts has to come next and stays where it is. -/
  | ahead (texts : List String)
  /-- Operands with operators between them. -/
  | expression (factor : RuleId) (operators : Operators) (kind : Tree.Kind)
deriving DecidableEq, Repr

/-- A sequence of elements and the kind of tree their results are put in. -/
structure Rule where
  /-- The name of the rule in the journal. -/
  name : String
  /-- The kind of tree. -/
  kind : Tree.Kind
  /-- The parts, in order. -/
  elements : List Element
deriving DecidableEq, Repr

/-- A rule whose results stand for themselves: one result as it is, others as a
list. -/
def Rule.plain (name : String) (elements : List Element) : Rule :=
  ⟨name, .branch .list, elements⟩

end Grammar

/-- A table of rules and the words that are no names. -/
structure Grammar where
  /-- The rules. -/
  rules : Array Grammar.Rule
  /-- The words that a name cannot be. -/
  reserved : List String
deriving DecidableEq, Repr

namespace Grammar

/-- The grammar without rules. -/
def ofReserved (words : List String) : Grammar := ⟨#[], words⟩

/-- The rule at a place. A place outside the table holds a rule without
elements. -/
def rule (grammar : Grammar) (id : RuleId) : Rule := grammar.rules[id]?.getD (.plain "" [])

/-- Whether a word is reserved. -/
def isReserved (grammar : Grammar) (word : String) : Bool := grammar.reserved.contains word

/-! ## Building a grammar -/

/-- The grammar with one more reserved word. -/
def reserve (grammar : Grammar) (word : String) : Grammar :=
  if grammar.isReserved word then grammar
  else { grammar with reserved := grammar.reserved ++ [word] }

/-- The grammar with one more rule, and the place of that rule. -/
def add (grammar : Grammar) (rule : Rule) : RuleId × Grammar :=
  (grammar.rules.size, { grammar with rules := grammar.rules.push rule })

/-- The grammar with a place for a rule that is defined later. -/
def declare (grammar : Grammar) (name : String) : RuleId × Grammar :=
  grammar.add (.plain name [])

/-- The grammar with another rule at a place. -/
def define (grammar : Grammar) (id : RuleId) (rule : Rule) : Grammar :=
  { grammar with rules := grammar.rules.setIfInBounds id rule }

/-- The grammar with more elements at the end of a rule. -/
def extend (grammar : Grammar) (id : RuleId) (elements : List Element) : Grammar :=
  let rule := grammar.rule id
  grammar.define id { rule with elements := rule.elements ++ elements }

/-- The grammar with one more choice at the start of a rule. A rule that does not
begin with a choice moves to a new place and becomes the other choice. -/
def insertChoice (grammar : Grammar) (id : RuleId) (choice : RuleId) : Grammar :=
  let rule := grammar.rule id
  match rule.elements with
  | .choice rules :: elements =>
      grammar.define id { rule with elements := .choice (choice :: rules) :: elements }
  | _ =>
      let (otherwise, grammar) := grammar.add rule
      grammar.define id (.plain rule.name [.choice [choice, otherwise]])

/-! ## Tokens of a grammar -/

/-- Whether a token belongs to a class. -/
def accepts (grammar : Grammar) (wanted : TokenClass) (token : Token) : Bool :=
  match wanted with
  | .number => token.isNumber
  | .string => token.isString
  | .name => token.isName && !grammar.isReserved token.toText

/-- Whether a token is one of several texts. Only words and ends of lines are
named by their text. -/
def isLiteral (texts : List String) (token : Token) : Bool :=
  (token.isWord || token.isEndOfLine) && texts.contains token.toText

/-- The precedence of a token that is an operator. -/
def Operators.ofToken? (operators : Operators) (token : Token) : Option Precedence :=
  if token.isWord then operators.get? token.toText else none

end Grammar

end TreeScript
