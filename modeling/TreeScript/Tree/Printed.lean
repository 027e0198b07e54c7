import TreeScript.Tree
import TreeScript.Text.Quoted

/-!
# The printed form of a tree

A leaf prints the text of its token, and a string literal prints it quoted. A
branch prints its children in parentheses with a space between them. Negation,
choice, loop and definition have a layout of their own, as long as they have the
number of children that the language gives them.
-/

namespace TreeScript.Tree

/-- The parts with a space between any two. -/
def spaced : List String → String
  | [] => ""
  | [part] => part
  | part :: part' :: parts => part ++ " " ++ spaced (part' :: parts)
termination_by structural parts => parts

/-- How the printed children of a branch are put together. -/
def BranchKind.layout : BranchKind → List String → String
  | .negative, [operand] => "-" ++ operand
  | .conditional, [condition, body] => "(" ++ spaced ["if", condition, body] ++ ")"
  | .conditional, [condition, body, otherwise] =>
      "(" ++ spaced ["if", condition, body, "else", otherwise] ++ ")"
  | .loop, [condition, body] => "(" ++ spaced ["while", condition, body] ++ ")"
  | .definition, [name, names, body] =>
      "(" ++ spaced ["def", name, names, body] ++ ")"
  | _, parts => "(" ++ spaced parts ++ ")"

/-- How a leaf is printed. -/
def LeafKind.printed : LeafKind → Token → String
  | .string, token => Text.quoted token.toText
  | _, token => token.toText

mutual
/-- The printed form of a tree. -/
def printed : Tree → String
  | .leaf kind token => kind.printed token
  | .branch kind children => kind.layout (printedAll children)
termination_by structural tree => tree

/-- The printed forms of several trees. -/
def printedAll : List Tree → List String
  | [] => []
  | tree :: trees => printed tree :: printedAll trees
termination_by structural trees => trees
end

theorem printedAll_eq_map (trees : List Tree) : printedAll trees = trees.map printed := by
  induction trees with
  | nil => rfl
  | cons tree trees ih => rw [printedAll, ih, List.map_cons]

/-- The child at an index. -/
def child (tree : Tree) (index : Nat) : Except ShapeError Tree :=
  match tree.children[index]? with
  | some child => .ok child
  | none => .error (.noChild index tree.printed)

end TreeScript.Tree
