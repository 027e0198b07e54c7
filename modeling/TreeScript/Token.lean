/-!
# Tokens

A token is a piece of a source line together with the number of that line. Names,
keywords and punctuation are all *words*: the grammar tells them apart by their
text. Two kinds have no text of their own in the source. `endOfLine` closes every
line, and `endOfFile` is what a reader gets when no line is left.
-/

namespace TreeScript

/-- What a token is. -/
inductive Token.Kind where
  /-- A name, a keyword or a punctuation mark. -/
  | word (text : String)
  /-- An integer literal. -/
  | number (value : Int64)
  /-- A string literal, without its quotes and escapes. -/
  | string (value : String)
  /-- The end of a line. -/
  | endOfLine
  /-- The end of the source. -/
  | endOfFile
deriving DecidableEq, Repr

/-- A token with the line it stands on. -/
structure Token where
  /-- What the token is. -/
  kind : Token.Kind
  /-- The line it stands on, counted from one. -/
  line : Nat
deriving DecidableEq, Repr

namespace Token

/-- The text by which a grammar names the end of a line: a backslash and an `n`. -/
def endOfLineText : String := "\\n"

/-- The text of a token. A string literal gives its value and the end of the
source the empty text. -/
def Kind.toText : Kind → String
  | .word text => text
  | .number value => toString value.toInt
  | .string value => value
  | .endOfLine => endOfLineText
  | .endOfFile => ""

/-- The text of a token. -/
def toText (token : Token) : String := token.kind.toText

/-- Whether the token is a word. -/
def isWord (token : Token) : Bool :=
  match token.kind with
  | .word _ => true
  | _ => false

/-- Whether the token is an integer literal. -/
def isNumber (token : Token) : Bool :=
  match token.kind with
  | .number _ => true
  | _ => false

/-- Whether the token is a string literal. -/
def isString (token : Token) : Bool :=
  match token.kind with
  | .string _ => true
  | _ => false

/-- Whether the token ends a line. -/
def isEndOfLine (token : Token) : Bool :=
  match token.kind with
  | .endOfLine => true
  | _ => false

/-- Whether the token ends the source. -/
def isEndOfFile (token : Token) : Bool :=
  match token.kind with
  | .endOfFile => true
  | _ => false

/-- The characters a name may begin with. -/
def isNameStart (c : Char) : Bool := c.isAlpha || c == '_'

/-- Whether the token is a word shaped like a name and not like punctuation. Its
first character decides. -/
def isName (token : Token) : Bool :=
  match token.kind with
  | .word text => text.toList.head?.any isNameStart
  | _ => false

/-- The value of an integer literal. -/
def number? (token : Token) : Option Int64 :=
  match token.kind with
  | .number value => some value
  | _ => none

/-- The text of a word. -/
def word? (token : Token) : Option String :=
  match token.kind with
  | .word text => some text
  | _ => none

end Token

end TreeScript
