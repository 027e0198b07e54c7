import TreeScript.Grammar.Builder
import TreeScript.Grammar.Parse

/-!
# The script language

The language comes in two layers. The basic one has expressions, blocks, `if` and
`while`. The full one adds functions: it extends the operands of the basic one by
calls and its compound statements by definitions.

    program   := compound (";" | EOL)? | expr (";" | EOL) | (";" | EOL)
    compound  := def | if | while
    block     := "{" (compound | expr (";" | EOL | &"}") | ";" | EOL)* "}"
    if        := "if" expr block ("else" block)?
    while     := "while" expr block
    def       := "def" identifier "(" params? ")" block
    expr      := factor (operator factor)*
    factor    := "-" primary | primary
    primary   := ("(" expr ")" | number | identifier | string) postfix*
    postfix   := "(" args? ")"

Names of rules are those that the journal tells.
-/

namespace TreeScript

namespace Language

open Grammar
open Grammar.Builder (rule ruleOf sep)

/-! ## Operators and reserved words -/

/-- The operators. Assignment binds loosest and groups to the right. -/
def operators : Operators :=
  .ofRows
    [("=", ⟨1, .right⟩), ("==", ⟨2, .left⟩), (">", ⟨2, .left⟩), ("<", ⟨2, .left⟩),
     ("+", ⟨3, .left⟩), ("-", ⟨3, .left⟩), ("*", ⟨4, .left⟩), ("/", ⟨4, .left⟩),
     ("%", ⟨4, .left⟩)]

/-- The words of the basic language that are no names. -/
def reserved : List String := [";", "\x7d", Token.endOfLineText, "if", "else", "while"]

/-- The texts that end a statement. -/
def separators : List String := [";", Token.endOfLineText]

/-- The end of a statement, taken and dropped. -/
def separatorSep : Element := .literal separators false

/-! ## The two layers -/

/-- The rules of the basic language that the other layer builds on. -/
structure BasicRules where
  /-- Expressions. -/
  expr : RuleId
  /-- Operands. -/
  primary : RuleId
  /-- Blocks. -/
  block : RuleId
  /-- Compound statements. -/
  compound : RuleId
  /-- Statements at the top. -/
  program : RuleId

/-- The rules of the basic language. -/
def basicRules : Builder BasicRules := do
  let expr ← Builder.declare "expr"
  let compound ← Builder.declare "compound"
  let paren ← rule "paren" [sep "(", .tree expr, sep ")"]
  let number ← rule "number" [.token .number (.leaf .number)]
  let name ← rule "name" [.token .name (.leaf .variable)]
  let string ← rule "string" [.token .string (.leaf .string)]
  let primary ← ruleOf "primary" .primary [.choice [paren, number, name, string]]
  let negative ← ruleOf "negative" .negative [sep "-", .tree primary]
  let factor ← rule "factor" [.choice [negative, primary]]
  Builder.define expr "expr" [.expression factor operators (.branch .binary)]
  let simple ← rule "simple" [.tree expr]
  let separator ← rule "separator" [separatorSep]
  let blockEnd ← rule "block_end" [.ahead ["\x7d"]]
  let blockSimple ← rule "block_simple" [.tree simple, .choice [separator, blockEnd]]
  let blockStatement ← rule "block_statement" [.choice [compound, blockSimple, separator]]
  let block ← ruleOf "block" .block [sep "\x7b", .repeated blockStatement .any, sep "\x7d"]
  let elseBlock ← rule "else" [sep "else", .tree block]
  let ifStatement ← ruleOf "if" .conditional
    [sep "if", .tree expr, .tree block, .repeated elseBlock .atMostOnce]
  let whileStatement ← ruleOf "while" .loop [sep "while", .tree expr, .tree block]
  Builder.define compound "compound" [.choice [ifStatement, whileStatement]]
  let compoundStatement ← rule "compound_statement"
    [.tree compound, .repeated separator .atMostOnce]
  let simpleStatement ← rule "simple_statement" [.tree simple, separatorSep]
  let nullStatement ← ruleOf "null_statement" .null [separatorSep]
  let program ← rule "program" [.choice [compoundStatement, simpleStatement, nullStatement]]
  return { expr, primary, block, compound, program }

/-- The rules for functions: definitions become compound statements, and calls follow
operands. -/
def functionRules (basic : BasicRules) : Builder Unit := do
  Builder.reserve ")"
  Builder.reserve "def"
  let param ← rule "param" [.token .name (.leaf .plain)]
  let paramTail ← rule "param_tail" [sep ",", .tree param]
  let params ← ruleOf "params" .parameters [.tree param, .repeated paramTail .any]
  let paramList ← rule "param_list" [sep "(", .orEmpty params, sep ")"]
  let definition ← ruleOf "def" .definition
    [sep "def", .token .name (.leaf .plain), .tree paramList, .tree basic.block]
  let argTail ← rule "arg_tail" [sep ",", .tree basic.expr]
  let args ← ruleOf "args" .arguments [.tree basic.expr, .repeated argTail .any]
  let call ← rule "postfix" [sep "(", .orEmpty args, sep ")"]
  Builder.extend basic.primary [.repeated call .any]
  Builder.insertChoice basic.compound definition

end Language

/-- A grammar with the rules that a program is read by. -/
structure Language where
  /-- The grammar. -/
  grammar : Grammar
  /-- The rule of a statement at the top. -/
  program : Grammar.RuleId
  /-- The rule of an expression. -/
  expr : Grammar.RuleId
deriving DecidableEq, Repr

namespace Language

/-- The language of a builder. -/
def ofBuilder (builder : Grammar.Builder BasicRules) : Language :=
  match builder.run (Grammar.ofReserved reserved) with
  | (rules, grammar) => ⟨grammar, rules.program, rules.expr⟩

/-- Expressions, blocks, `if` and `while`. -/
def basic : Language := ofBuilder basicRules

/-- The basic language with functions. -/
def full : Language := ofBuilder do
  let rules ← basicRules
  functionRules rules
  return rules

/-- Parses one statement at the top, with what ends it. -/
def statement (language : Language) : Grammar.Parser Tree :=
  language.grammar.parse language.program

/-- Parses an expression. -/
def expression (language : Language) : Grammar.Parser Tree :=
  language.grammar.parse language.expr

example : basic.grammar.rules.size = 22 := by decide

example : full.grammar.rules.size = 30 := by decide

end Language

end TreeScript
