import TreeScript.Grammar
import TreeScript.TokenStream

/-!
# Why a rule does not parse

A syntax error names the token that does not fit and its line. At the end of the
source there is no such token. The error then says that the input is *incomplete*:
more lines might mend it. What goes wrong in the stream or in building a tree is
passed on.
-/

namespace TreeScript

namespace Grammar

/-- Why a rule does not parse. -/
inductive ParseError where
  /-- A token does not fit. -/
  | unexpected (token : String) (line : Nat) (message : String)
  /-- The source ends too early. -/
  | atEnd (message : String)
  /-- The stream gives no next token. -/
  | read (error : ReadError)
  /-- A tree cannot be built. -/
  | shape (error : Tree.ShapeError)
deriving DecidableEq, Repr

namespace ParseError

/-- The error at a token that does not fit. -/
def ofToken (token : Token) (message : String) : ParseError :=
  if token.isEndOfFile then .atEnd message else .unexpected token.toText token.line message

/-- Whether more lines might mend the error. -/
def isIncomplete : ParseError → Bool
  | .atEnd _ => true
  | _ => false

/-- The text of a parse error. -/
def message : ParseError → String
  | .unexpected token line message =>
      s!"syntax error around \"{token}\" at line {line}. {message}"
  | .atEnd message => s!"syntax error around the last line. {message}"
  | .read error => error.message
  | .shape error => error.message

end ParseError

/-- What is said when a token of a class is missing. -/
def TokenClass.expected : TokenClass → String
  | .number => "number expected."
  | .string => "string expected."
  | .name => "identifier expected."

/-- What is said when a text is missing. The first one stands for all. -/
def expected : List String → String
  | [] => ""
  | text :: _ => s!"\"{text}\" expected."

end Grammar

end TreeScript
