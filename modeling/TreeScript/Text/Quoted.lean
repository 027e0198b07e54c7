import TreeScript.Text.Combining
import TreeScript.Text.Invisible

/-!
# Quoted text

A text between double quotes, in a form that shows every character. A quote and
a backslash get a backslash before them. Four characters have a letter of their
own. Any other character that is invisible or would join the one before it is
written by its number. All else stands as it is.
-/

namespace TreeScript.Text

/-- Lower-case hexadecimal digits of a code point, without leading zeros. -/
def hexDigits (n : Nat) : List Char := Nat.toDigits 16 n

/-- How one character is written between quotes. -/
def quotedChar (c : Char) : List Char :=
  if c = '"' then ['\\', '"']
  else if c = '\\' then ['\\', '\\']
  else if c = '\n' then ['\\', 'n']
  else if c = '\r' then ['\\', 'r']
  else if c = '\t' then ['\\', 't']
  else if c = '\x00' then ['\\', '0']
  else if isCombining c || isInvisible c then
    ['\\', 'u', '\x7b'] ++ hexDigits c.toNat ++ ['\x7d']
  else [c]

/-- The characters of a text, each as it is written between quotes. -/
def quotedChars (cs : List Char) : List Char := cs.flatMap quotedChar

/-- A text between double quotes. -/
def quoted (text : String) : String :=
  String.ofList ('"' :: quotedChars text.toList ++ ['"'])

theorem quotedChars_cons (c : Char) (cs : List Char) :
    quotedChars (c :: cs) = quotedChar c ++ quotedChars cs := rfl

end TreeScript.Text
