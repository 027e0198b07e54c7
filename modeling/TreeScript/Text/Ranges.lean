/-!
# Sets of code points

A class of characters is given as a list of closed ranges of code points. The
ranges of the tables in this folder are in ascending order and do not touch, so
a class has one way to be written.
-/

namespace TreeScript.Text

/-- A set of characters, as closed ranges of code points. -/
abbrev Ranges := List (Nat × Nat)

/-- Whether a character lies in one of the ranges. -/
def Ranges.contains (ranges : Ranges) (c : Char) : Bool :=
  ranges.any fun range => range.1 ≤ c.toNat && c.toNat ≤ range.2

/-- How many code points lie in ranges that do not overlap. -/
def Ranges.size (ranges : Ranges) : Nat :=
  ranges.foldl (fun size range => size + (range.2 + 1 - range.1)) 0

/-- Every range is nonempty, and each ends before the next begins, with a gap. -/
def Ranges.ascending : Ranges → Bool
  | [] => true
  | [(low, high)] => low ≤ high
  | (low, high) :: (low', high') :: rest =>
      low ≤ high && high + 1 < low' && Ranges.ascending ((low', high') :: rest)
termination_by structural ranges => ranges

end TreeScript.Text
