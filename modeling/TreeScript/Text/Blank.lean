import TreeScript.Text.Ranges

/-!
# White space of Unicode

The property White_Space: what is trimmed from the end of a text that is quoted
in a message. The scanner's own blanks are fewer and belong to it.
-/

namespace TreeScript.Text

/-- The code points with the property White_Space. -/
def blankRanges : Ranges :=
  [(0x9, 0xd), (0x20, 0x20), (0x85, 0x85), (0xa0, 0xa0), (0x1680, 0x1680), (0x2000, 0x200a),
   (0x2028, 0x2029), (0x202f, 0x202f), (0x205f, 0x205f), (0x3000, 0x3000)]

/-- Whether a character is white space. -/
def isBlank (c : Char) : Bool := blankRanges.contains c

/-- A text without the white space at its end. -/
def trimEnd (cs : List Char) : List Char := (cs.reverse.dropWhile isBlank).reverse

example : blankRanges.ascending = true := by decide

end TreeScript.Text
