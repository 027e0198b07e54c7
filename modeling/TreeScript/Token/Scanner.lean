import TreeScript.Token
import TreeScript.Text.Blank
import TreeScript.Text.Digits

/-!
# Cutting a line into tokens

The scanner knows six *shapes* of text: a run of blanks, a comment, a run of
digits, a string literal, a name and a punctuation mark. For each shape `reach`
says how far it goes from the start of a text, in characters, with zero when the
text does not begin with it. The scanner takes the shape that goes furthest, cuts
that piece off and starts again. Blanks and comments are dropped. Every other
piece becomes a token.

Scanning stops with a `Fault` where no shape begins, or where a run of digits
names a number that does not fit in 64 bits with a sign. The fault quotes the
rest of the text from that place, without the white space at its end.

A shape that is taken reaches at least one character, so what is left is shorter
and the scanner ends.
-/

namespace TreeScript

namespace Token

/-! ## Shapes -/

/-- The shapes of text that a line is made of. -/
inductive Shape where
  /-- Blanks between tokens. -/
  | blank
  /-- Two slashes and the rest of the line. -/
  | comment
  /-- An integer literal. -/
  | digits
  /-- A string literal with its quotes. -/
  | literal
  /-- A name or keyword. -/
  | name
  /-- A punctuation mark of one or two characters. -/
  | mark
deriving DecidableEq, Repr

/-- All shapes. -/
def Shape.all : List Shape := [.blank, .comment, .digits, .literal, .name, .mark]

/-- The characters that only separate tokens. -/
def isGap (c : Char) : Bool := c == ' ' || c == '\t' || c == '\r' || c == '\n' || c == '\x0c'

/-- The characters a name may go on with. -/
def isNamePart (c : Char) : Bool := isNameStart c || c.isDigit

/-- The punctuation marks of one character. -/
def isMark (c : Char) : Bool :=
  "!#$%&'()*+,-./:;<=>?@[\\]^`\x7b|\x7d~".toList.contains c

/-- The punctuation marks of two characters. -/
def isDoubleMark (c d : Char) : Bool :=
  [('=', '='), ('<', '='), ('>', '='), ('&', '&'), ('|', '|')].contains (c, d)

/-- How many characters follow the opening quote of a string literal, the closing
quote included. A backslash takes the character after it along, which may be a
quote but not a line break. -/
def closing : List Char → Option Nat
  | [] => none
  | '"' :: _ => some 1
  | '\\' :: '\n' :: _ => none
  | '\\' :: _ :: cs => (closing cs).map (· + 2)
  | _ :: cs => (closing cs).map (· + 1)

/-- How many characters at the start of a text have the shape. -/
def Shape.reach : Shape → List Char → Nat
  | .blank, cs => (cs.takeWhile isGap).length
  | .comment, '/' :: '/' :: cs => 2 + (cs.takeWhile (· != '\n')).length
  | .comment, _ => 0
  | .digits, cs => (cs.takeWhile Char.isDigit).length
  | .literal, '"' :: cs => ((closing cs).map (· + 1)).getD 0
  | .literal, _ => 0
  | .name, c :: cs => if isNameStart c then 1 + (cs.takeWhile isNamePart).length else 0
  | .name, [] => 0
  | .mark, c :: d :: _ => if isDoubleMark c d then 2 else if isMark c then 1 else 0
  | .mark, [c] => if isMark c then 1 else 0
  | .mark, [] => 0

/-! ## The furthest shape -/

/-- The better of two cuts, the first if they go equally far. -/
def further (a b : Shape × Nat) : Shape × Nat := if a.2 < b.2 then b else a

/-- The shape that goes furthest from the start of a text, with its reach. -/
def furthest (cs : List Char) : Shape × Nat :=
  (Shape.all.map fun shape => (shape, shape.reach cs)).foldl further (.blank, 0)

/-! ## Tokens of a piece -/

/-- The least number that is too large for 64 bits with a sign. -/
def numberLimit : Nat := 0x8000000000000000

/-- The body of a string literal with its escapes undone. A backslash before any
character but a quote, a backslash or an `n` is kept. -/
def unescape : List Char → List Char
  | '\\' :: '"' :: cs => '"' :: unescape cs
  | '\\' :: '\\' :: cs => '\\' :: unescape cs
  | '\\' :: 'n' :: cs => '\n' :: unescape cs
  | '\\' :: c :: cs => '\\' :: c :: unescape cs
  | c :: cs => c :: unescape cs
  | [] => []

/-- What becomes of a piece of the line. -/
inductive Piece where
  /-- The piece is dropped. -/
  | skipped
  /-- The piece is a token. -/
  | kept (kind : Kind)
  /-- The piece is a number that is too large. -/
  | overflow
deriving DecidableEq, Repr

/-- What becomes of a piece that was cut off with the given shape. -/
def Shape.piece : Shape → List Char → Piece
  | .blank, _ => .skipped
  | .comment, _ => .skipped
  | .digits, cs =>
      if Text.digitsValue cs < numberLimit then
        .kept (.number (Int64.ofNat (Text.digitsValue cs)))
      else .overflow
  | .literal, cs => .kept (.string (String.ofList (unescape (cs.drop 1).dropLast)))
  | .name, cs => .kept (.word (String.ofList cs))
  | .mark, cs => .kept (.word (String.ofList cs))

/-! ## The scanner -/

/-- Why a line cannot be cut into tokens. -/
structure Fault where
  /-- The line it is on. -/
  line : Nat
  /-- The text from the place where scanning stopped. -/
  text : String
deriving DecidableEq, Repr

/-- The fault at the start of a text. -/
def Fault.ofRest (line : Nat) (cs : List Char) : Fault := ⟨line, String.ofList (Text.trimEnd cs)⟩

/-- Cuts a text into tokens of the given line. -/
def scan (line : Nat) (cs : List Char) : Except Fault (List Token) :=
  match cs with
  | [] => .ok []
  | c :: cs =>
      match furthest (c :: cs) with
      | (_, 0) => .error (Fault.ofRest line (c :: cs))
      | (shape, n + 1) =>
          match shape.piece ((c :: cs).take (n + 1)) with
          | .skipped => scan line ((c :: cs).drop (n + 1))
          | .overflow => .error (Fault.ofRest line (c :: cs))
          | .kept kind => (scan line ((c :: cs).drop (n + 1))).map (⟨kind, line⟩ :: ·)
termination_by cs.length
decreasing_by
  all_goals simp only [List.drop_succ_cons, List.length_drop, List.length_cons]; omega

/-- The tokens of a source line, without the end of line. -/
def tokenize (text : String) (line : Nat) : Except Fault (List Token) := scan line text.toList

theorem scan_nil (line : Nat) : scan line [] = .ok [] := by rw [scan]

/-- A piece that is dropped leaves the tokens of the rest. -/
theorem scan_of_skipped (line : Nat) {cs : List Char} {shape : Shape} {n : Nat}
    (hcs : cs ≠ []) (hf : furthest cs = (shape, n + 1))
    (hp : shape.piece (cs.take (n + 1)) = .skipped) :
    scan line cs = scan line (cs.drop (n + 1)) := by
  cases cs with
  | nil => exact absurd rfl hcs
  | cons c cs => rw [scan]; simp only [hf, hp]

/-- A piece that is kept is the first token. -/
theorem scan_of_kept (line : Nat) {cs : List Char} {shape : Shape} {n : Nat} {kind : Kind}
    (hcs : cs ≠ []) (hf : furthest cs = (shape, n + 1))
    (hp : shape.piece (cs.take (n + 1)) = .kept kind) :
    scan line cs = (scan line (cs.drop (n + 1))).map (⟨kind, line⟩ :: ·) := by
  cases cs with
  | nil => exact absurd rfl hcs
  | cons c cs => rw [scan]; simp only [hf, hp]

end Token

end TreeScript
