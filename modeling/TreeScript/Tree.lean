import TreeScript.Token

/-!
# Syntax trees

A tree is a *leaf*, which holds one token, or a *branch*, which holds its
children in source order. Both carry a kind. Grammar rules name a kind without
saying which of the two it is, so `Kind` joins the two sorts, and building a tree
from a kind can fail. The failures are in `ShapeError`.

A branch of kind `list` or `primary` with one child is that child.

`tokens` reads the leaves from left to right. Where a tree is in the source is
the line of the first of them.
-/

namespace TreeScript

namespace Tree

/-- The kinds of leaves. -/
inductive LeafKind where
  /-- A bare token, such as an operator or a parameter. -/
  | plain
  /-- An integer literal. -/
  | number
  /-- A string literal. -/
  | string
  /-- The use of a variable. -/
  | variable
deriving DecidableEq, Repr

/-- The kinds of branches. -/
inductive BranchKind where
  /-- A sequence without a meaning of its own. -/
  | list
  /-- A minus sign before an operand. -/
  | negative
  /-- Two operands with an operator between them. -/
  | binary
  /-- An operand with the calls that follow it. -/
  | primary
  /-- The arguments of a call. -/
  | arguments
  /-- Statements between braces. -/
  | block
  /-- A choice between two blocks. -/
  | conditional
  /-- A block that is repeated. -/
  | loop
  /-- A statement that does nothing. -/
  | null
  /-- The parameters of a function. -/
  | parameters
  /-- The definition of a function. -/
  | definition
deriving DecidableEq, Repr

/-- The kind of a tree. -/
inductive Kind where
  /-- The kind of a leaf. -/
  | leaf (kind : LeafKind)
  /-- The kind of a branch. -/
  | branch (kind : BranchKind)
deriving DecidableEq, Repr

/-- The name of a kind in messages. -/
def LeafKind.name : LeafKind → String
  | .plain => "Leaf"
  | .number => "NumberLiteral"
  | .string => "StringLiteral"
  | .variable => "Variable"

/-- The name of a kind in messages. -/
def BranchKind.name : BranchKind → String
  | .list => "List"
  | .negative => "Negative"
  | .binary => "BinaryExpr"
  | .primary => "Primary"
  | .arguments => "Arguments"
  | .block => "Block"
  | .conditional => "If"
  | .loop => "While"
  | .null => "NullStatement"
  | .parameters => "ParameterList"
  | .definition => "FunctionDefinition"

/-- The name of a kind in messages. -/
def Kind.name : Kind → String
  | .leaf kind => kind.name
  | .branch kind => kind.name

end Tree

/-- A syntax tree. -/
inductive Tree where
  /-- A leaf holds one token. -/
  | leaf (kind : Tree.LeafKind) (token : Token)
  /-- A branch holds its children in source order. -/
  | branch (kind : Tree.BranchKind) (children : List Tree)
deriving Repr

namespace Tree

/-! ## Reading a tree -/

/-- The kind of a tree. -/
def kind : Tree → Kind
  | .leaf kind _ => .leaf kind
  | .branch kind _ => .branch kind

/-- The children of a tree. A leaf has none. -/
def children : Tree → List Tree
  | .leaf _ _ => []
  | .branch _ children => children

/-- The token of a leaf. -/
def token? : Tree → Option Token
  | .leaf _ token => some token
  | .branch _ _ => none

/-- The text of a leaf that carries a name: a variable, a parameter or an
operator. -/
def name? : Tree → Option String
  | .leaf .plain token => token.word?
  | .leaf .variable token => token.word?
  | _ => none

/-- Whether a tree is a statement that does nothing. -/
def isNull (tree : Tree) : Bool := tree.kind == .branch .null

/-- Whether a tree is a sequence without children, as a rule made only of
separators leaves it. -/
def isEmptyList : Tree → Bool
  | .branch .list [] => true
  | _ => false

mutual
/-- The tokens of the leaves from left to right. -/
def tokens : Tree → List Token
  | .leaf _ token => [token]
  | .branch _ children => tokensOf children
termination_by structural tree => tree

/-- The tokens of the leaves of several trees from left to right. -/
def tokensOf : List Tree → List Token
  | [] => []
  | tree :: trees => tokens tree ++ tokensOf trees
termination_by structural trees => trees
end

theorem tokensOf_append (trees trees' : List Tree) :
    tokensOf (trees ++ trees') = tokensOf trees ++ tokensOf trees' := by
  induction trees with
  | nil => rfl
  | cons tree trees ih => simp [tokensOf, ih]

/-- The line of the first leaf. -/
def line? (tree : Tree) : Option Nat := tree.tokens.head?.map Token.line

/-- Where a tree is in the source, if it has a leaf. -/
def location? (tree : Tree) : Option String := tree.line?.map fun line => s!"at line {line}"

/-! ## Building a tree -/

/-- Why a tree cannot be built or taken apart as asked. -/
inductive ShapeError where
  /-- The tree, here in its printed form, has no child at the index. -/
  | noChild (index : Nat) (tree : String)
  /-- A kind of leaf was asked to hold children. -/
  | notABranch (kind : LeafKind)
  /-- A kind of branch was asked to hold a token. -/
  | notALeaf (kind : BranchKind)
deriving DecidableEq, Repr

/-- The text of a shape error. -/
def ShapeError.message : ShapeError → String
  | .noChild index tree => s!"no child {index} in {tree}"
  | .notABranch kind => kind.name ++ " nodes cannot hold children"
  | .notALeaf kind => kind.name ++ " nodes are not built from a token"

/-- A branch, or the only child where the kind stands for nothing beside it. -/
def group : BranchKind → List Tree → Tree
  | .list, [child] => child
  | .primary, [child] => child
  | kind, children => .branch kind children

/-- A leaf of any kind. -/
def ofToken : Kind → Token → Except ShapeError Tree
  | .leaf kind, token => .ok (.leaf kind token)
  | .branch kind, _ => .error (.notALeaf kind)

/-- A branch of any kind. -/
def ofChildren : Kind → List Tree → Except ShapeError Tree
  | .branch kind, children => .ok (group kind children)
  | .leaf kind, _ => .error (.notABranch kind)

/-- Grouping keeps the leaves. -/
theorem tokens_group (kind : BranchKind) (trees : List Tree) :
    (group kind trees).tokens = tokensOf trees := by
  unfold group
  split <;> simp [tokens, tokensOf]

end Tree

end TreeScript
