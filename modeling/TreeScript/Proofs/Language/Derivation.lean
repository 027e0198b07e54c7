import TreeScript.Language
import TreeScript.Proofs.Grammar.Climb

/-!
# Derivations

The grammar of the full language, as it is written down in words, and the trees that belong
to it. Each relation is one line of

    program   := compound (";" | EOL)? | expr (";" | EOL) | (";" | EOL)
    compound  := def | if | while
    block     := "{" (compound | expr (";" | EOL | &"}") | ";" | EOL)* "}"
    if        := "if" expr block ("else" block)?
    while     := "while" expr block
    def       := "def" identifier "(" params? ")" block
    expr      := factor (operator factor)*
    factor    := "-" primary | primary
    primary   := ("(" expr ")" | number | identifier | string) postfix*
    postfix   := "(" args? ")"

and holds of the tokens that derive from the line, all of them, and of their tree. Nothing
here knows of rules, of tokens ahead or of a parser.

Parentheses and separators leave no tree. An operand without calls is its own tree.
Parameters and arguments are branches, also where there are none. A chain of operators is
split at the loosest one.
-/

namespace TreeScript

namespace Derivation

open Grammar

/-! ## Tokens -/

/-- The token is a certain word. -/
def IsWord (text : String) (token : Token) : Prop := token.kind = .word text

/-- `";" | EOL`. -/
def Separator (token : Token) : Prop := token.kind = .word ";" ∨ token.kind = .endOfLine

/-- A word that is shaped like a name and is not a keyword. -/
def Identifier (token : Token) : Prop :=
  token.isName = true ∧ token.toText ∉ ["if", "else", "while", "def"]

/-! ## Repetition -/

/-- `item*`. -/
inductive Many (item : List Token → Tree → Prop) : List Token → List Tree → Prop where
  /-- No item. -/
  | nil : Many item [] []
  /-- One more item. -/
  | cons {t t' : List Token} {tree : Tree} {trees : List Tree} :
      item t tree → Many item t' trees → Many item (t ++ t') (tree :: trees)

/-- `item ("," item)*`. -/
inductive Listed (item : List Token → Tree → Prop) : List Token → List Tree → Prop where
  /-- One item. -/
  | single {t : List Token} {tree : Tree} : item t tree → Listed item t [tree]
  /-- One more item and a comma. -/
  | cons {t t' : List Token} {comma : Token} {tree : Tree} {trees : List Tree} :
      item t tree → IsWord "," comma → Listed item t' trees →
      Listed item (t ++ comma :: t') (tree :: trees)

/-! ## Expressions -/

/-- `(operator factor)*`. -/
inductive Operations (factor : List Token → Tree → Prop) : List Token → List Link → Prop where
  /-- No operator. -/
  | nil : Operations factor [] []
  /-- One more operator and its operand. -/
  | cons {operator : Token} {text : String} {precedence : Precedence} {t t' : List Token}
      {operand : Tree} {links : List Link} :
      IsWord text operator → Language.operators.get? text = some precedence →
      factor t operand → Operations factor t' links →
      Operations factor (operator :: (t ++ t')) (⟨operator, precedence, operand⟩ :: links)

/-- `postfix := "(" args? ")"`. -/
inductive Call (expr : List Token → Tree → Prop) : List Token → Tree → Prop where
  /-- No arguments. -/
  | empty {first last : Token} :
      IsWord "(" first → IsWord ")" last → Call expr [first, last] (.branch .arguments [])
  /-- Arguments with commas between them. -/
  | args {first last : Token} {t : List Token} {trees : List Tree} :
      IsWord "(" first → Listed expr t trees → IsWord ")" last →
      Call expr (first :: (t ++ [last])) (.branch .arguments trees)

mutual
/-- `expr := factor (operator factor)*`. -/
inductive Expr : List Token → Tree → Prop where
  /-- The chain is split at its loosest operator. -/
  | chain {t t' : List Token} {operand tree : Tree} {links : List Link} :
      Factor t operand → Operations Factor t' links → Splits .binary operand links tree →
      Expr (t ++ t') tree

/-- `factor := "-" primary | primary`. -/
inductive Factor : List Token → Tree → Prop where
  /-- A minus sign before an operand. -/
  | negative {minus : Token} {t : List Token} {tree : Tree} :
      IsWord "-" minus → Primary t tree → Factor (minus :: t) (.branch .negative [tree])
  /-- An operand. -/
  | primary {t : List Token} {tree : Tree} : Primary t tree → Factor t tree

/-- `primary := ("(" expr ")" | number | identifier | string) postfix*`. -/
inductive Primary : List Token → Tree → Prop where
  /-- Without calls. -/
  | plain {t : List Token} {tree : Tree} : Atom t tree → Primary t tree
  /-- With calls. -/
  | called {t t' : List Token} {tree : Tree} {calls : List Tree} :
      Atom t tree → Many (Call Expr) t' calls → calls ≠ [] →
      Primary (t ++ t') (.branch .primary (tree :: calls))

/-- `"(" expr ")" | number | identifier | string`. -/
inductive Atom : List Token → Tree → Prop where
  /-- An expression in parentheses. -/
  | paren {first last : Token} {t : List Token} {tree : Tree} :
      IsWord "(" first → Expr t tree → IsWord ")" last → Atom (first :: (t ++ [last])) tree
  /-- A number. -/
  | number {token : Token} : token.isNumber = true → Atom [token] (.leaf .number token)
  /-- An identifier. -/
  | name {token : Token} : Identifier token → Atom [token] (.leaf .variable token)
  /-- A string. -/
  | string {token : Token} : token.isString = true → Atom [token] (.leaf .string token)
end

/-! ## Statements -/

/-- `identifier`, as a parameter. -/
inductive Parameter : List Token → Tree → Prop where
  /-- The token of the parameter. -/
  | name {token : Token} : Identifier token → Parameter [token] (.leaf .plain token)

/-- `params?`. -/
inductive Parameters : List Token → Tree → Prop where
  /-- No parameters. -/
  | empty : Parameters [] (.branch .parameters [])
  /-- Parameters with commas between them. -/
  | params {t : List Token} {trees : List Tree} :
      Listed Parameter t trees → Parameters t (.branch .parameters trees)

/-- `(compound | expr (";" | EOL | &"}") | ";" | EOL)*`, up to the closing brace. -/
inductive Items (compound : List Token → Tree → Prop) : List Token → List Tree → Prop where
  /-- No item. -/
  | nil : Items compound [] []
  /-- A compound statement. -/
  | compound {t t' : List Token} {tree : Tree} {trees : List Tree} :
      compound t tree → Items compound t' trees → Items compound (t ++ t') (tree :: trees)
  /-- An expression and a separator. -/
  | simple {t t' : List Token} {separator : Token} {tree : Tree} {trees : List Tree} :
      Expr t tree → Separator separator → Items compound t' trees →
      Items compound (t ++ separator :: t') (tree :: trees)
  /-- An expression right before the closing brace. -/
  | last {t : List Token} {tree : Tree} : Expr t tree → Items compound t [tree]
  /-- A separator. -/
  | separator {separator : Token} {t : List Token} {trees : List Tree} :
      Separator separator → Items compound t trees → Items compound (separator :: t) trees

/-- `block := "{" items "}"`. -/
inductive Block (compound : List Token → Tree → Prop) : List Token → Tree → Prop where
  /-- Items between braces. -/
  | items {first last : Token} {t : List Token} {trees : List Tree} :
      IsWord "\x7b" first → Items compound t trees → IsWord "\x7d" last →
      Block compound (first :: (t ++ [last])) (.branch .block trees)

/-- `compound := def | if | while`. -/
inductive Compound : List Token → Tree → Prop where
  /-- `if` without `else`. -/
  | conditional {word : Token} {t t' : List Token} {condition body : Tree} :
      IsWord "if" word → Expr t condition → Block Compound t' body →
      Compound (word :: (t ++ t')) (.branch .conditional [condition, body])
  /-- `if` with `else`. -/
  | alternative {word word' : Token} {t t' t'' : List Token} {condition body body' : Tree} :
      IsWord "if" word → Expr t condition → Block Compound t' body → IsWord "else" word' →
      Block Compound t'' body' →
      Compound (word :: (t ++ (t' ++ word' :: t''))) (.branch .conditional [condition, body, body'])
  /-- `while`. -/
  | loop {word : Token} {t t' : List Token} {condition body : Tree} :
      IsWord "while" word → Expr t condition → Block Compound t' body →
      Compound (word :: (t ++ t')) (.branch .loop [condition, body])
  /-- `def`. -/
  | definition {word name first last : Token} {t t' : List Token} {parameters body : Tree} :
      IsWord "def" word → Identifier name → IsWord "(" first → Parameters t parameters →
      IsWord ")" last → Block Compound t' body →
      Compound (word :: name :: first :: (t ++ last :: t'))
        (.branch .definition [.leaf .plain name, parameters, body])

/-- `program := compound (";" | EOL)? | expr (";" | EOL) | (";" | EOL)`. -/
inductive Statement : List Token → Tree → Prop where
  /-- A compound statement. -/
  | compound {t : List Token} {tree : Tree} : Compound t tree → Statement t tree
  /-- A compound statement and a separator. -/
  | ended {t : List Token} {separator : Token} {tree : Tree} :
      Compound t tree → Separator separator → Statement (t ++ [separator]) tree
  /-- An expression and a separator. -/
  | simple {t : List Token} {separator : Token} {tree : Tree} :
      Expr t tree → Separator separator → Statement (t ++ [separator]) tree
  /-- A separator. -/
  | null {separator : Token} : Separator separator → Statement [separator] (.branch .null [])

end Derivation

end TreeScript
