import TreeScript.Proofs.TokenStream

/-!
# Other lines

The same text can stand on other lines of a source. Its tokens, its faults and the trees and errors
that come from them then carry other numbers and are the same otherwise: `relined f` is what they
are if line `n` has the number `f n`. A source that stands on other lines hands out the same on
those lines (`sourceItems_relined`).
-/

namespace TreeScript

variable {f g : Nat → Nat}

/-! ## Tokens -/

namespace Token

/-- The token on another line. -/
def relined (f : Nat → Nat) (token : Token) : Token := { token with line := f token.line }

/-- The fault on another line. -/
def Fault.relined (f : Nat → Nat) (fault : Fault) : Fault := { fault with line := f fault.line }

/-- The outcome of cutting a line that is another one. -/
def relinedLine (f : Nat → Nat) : Except Fault (List Token) → Except Fault (List Token)
  | .ok tokens => .ok (tokens.map (relined f))
  | .error fault => .error (fault.relined f)

/-- Where a line stands does not matter for how it is cut. -/
theorem scan_relined (f : Nat → Nat) (line : Nat) (cs : List Char) :
    scan (f line) cs = relinedLine f (scan line cs) := by
  fun_induction scan line cs with
  | case1 => rw [scan_nil, relinedLine, List.map_nil]
  | case2 c cs shape hf => rw [scan]; simp only [hf, relinedLine, Fault.relined, Fault.ofRest]
  | case3 c cs shape n hf hp ih => rw [scan_of_skipped (f line) (by simp) hf hp, ih]
  | case4 c cs shape n hf hp =>
      rw [scan]
      simp only [hf, hp, relinedLine, Fault.relined, Fault.ofRest]
  | case5 c cs shape n hf kind hp ih =>
      rw [scan_of_kept (f line) (by simp) hf hp, ih]
      cases scan line ((c :: cs).drop (n + 1)) with
      | error fault => rfl
      | ok tokens => rfl

end Token

/-! ## Trees -/

namespace Tree

mutual
/-- The tree on other lines. -/
def relined (f : Nat → Nat) : Tree → Tree
  | .leaf kind token => .leaf kind (token.relined f)
  | .branch kind children => .branch kind (relinedAll f children)
termination_by structural tree => tree

/-- The trees on other lines. -/
def relinedAll (f : Nat → Nat) : List Tree → List Tree
  | [] => []
  | tree :: trees => relined f tree :: relinedAll f trees
termination_by structural trees => trees
end

theorem relinedAll_eq_map (f : Nat → Nat) (trees : List Tree) :
    relinedAll f trees = trees.map (relined f) := by
  induction trees with
  | nil => rfl
  | cons tree trees ih => rw [relinedAll, ih, List.map_cons]

@[simp] theorem relined_leaf (kind : LeafKind) (token : Token) :
    (leaf kind token).relined f = .leaf kind (token.relined f) := rfl

@[simp] theorem relined_branch (kind : BranchKind) (children : List Tree) :
    (branch kind children).relined f = .branch kind (children.map (relined f)) := by
  rw [relined, relinedAll_eq_map]

@[simp] theorem isEmptyList_relined (tree : Tree) :
    (tree.relined f).isEmptyList = tree.isEmptyList := by
  cases tree with
  | leaf kind token => rfl
  | branch kind children => cases kind <;> cases children <;> simp [isEmptyList]

@[simp] theorem isNull_relined (tree : Tree) : (tree.relined f).isNull = tree.isNull := by
  cases tree with
  | leaf kind token => rfl
  | branch kind children => rw [relined_branch]; rfl

/-- Grouping does not look at lines. -/
theorem relined_group (kind : BranchKind) (trees : List Tree) :
    (group kind trees).relined f = group kind (trees.map (relined f)) := by
  unfold group
  split <;> simp_all

mutual
/-- The tokens of a tree on other lines are its tokens on those lines. -/
theorem tokens_relined (f : Nat → Nat) :
    ∀ tree : Tree, (tree.relined f).tokens = tree.tokens.map (Token.relined f)
  | .leaf _ _ => rfl
  | .branch _ children => tokensOf_relinedAll f children

theorem tokensOf_relinedAll (f : Nat → Nat) :
    ∀ trees : List Tree, tokensOf (relinedAll f trees) = (tokensOf trees).map (Token.relined f)
  | [] => rfl
  | tree :: trees => by
      rw [relinedAll, tokensOf, tokensOf, tokens_relined f tree, tokensOf_relinedAll f trees,
        List.map_append]
end

theorem line?_relined (tree : Tree) : (tree.relined f).line? = tree.line?.map f := by
  rw [line?, line?, tokens_relined, List.head?_map, Option.map_map, Option.map_map]
  rfl

mutual
/-- One change of lines after another. -/
theorem relined_relined (f g : Nat → Nat) :
    ∀ tree : Tree, (tree.relined f).relined g = tree.relined (g ∘ f)
  | .leaf _ _ => rfl
  | .branch kind children => by
      rw [relined, relined, relined, relinedAll_relinedAll f g children]

theorem relinedAll_relinedAll (f g : Nat → Nat) :
    ∀ trees : List Tree, relinedAll g (relinedAll f trees) = relinedAll (g ∘ f) trees
  | [] => rfl
  | tree :: trees => by
      rw [relinedAll, relinedAll, relinedAll, relined_relined f g tree,
        relinedAll_relinedAll f g trees]
end

mutual
theorem relined_id : ∀ tree : Tree, tree.relined id = tree
  | .leaf _ _ => rfl
  | .branch kind children => by rw [relined, relinedAll_id children]

theorem relinedAll_id : ∀ trees : List Tree, relinedAll id trees = trees
  | [] => rfl
  | tree :: trees => by rw [relinedAll, relined_id tree, relinedAll_id trees]
end

/-- The tree with all its lines the same. -/
def unlined (tree : Tree) : Tree := tree.relined fun _ => 0

/-- Without its lines a tree is the same, whatever they were. -/
theorem unlined_relined (f : Nat → Nat) (tree : Tree) : (tree.relined f).unlined = tree.unlined :=
  relined_relined f _ tree

end Tree

/-! ## Errors -/

/-- The error on another line. -/
def ReadError.relined (f : Nat → Nat) : ReadError → ReadError
  | .badToken fault => .badToken (fault.relined f)
  | .garbled => .garbled

/-- The error on another line. -/
def Grammar.ParseError.relined (f : Nat → Nat) : ParseError → ParseError
  | .unexpected token line message => .unexpected token (f line) message
  | .atEnd message => .atEnd message
  | .read error => .read (error.relined f)
  | .shape error => .shape error

theorem Grammar.ParseError.relined_id (error : ParseError) : error.relined id = error := by
  cases error with
  | read error => cases error <;> rfl
  | _ => rfl

/-- One change of lines after another. -/
theorem Grammar.ParseError.relined_relined (error : ParseError) :
    (error.relined f).relined g = error.relined (g ∘ f) := by
  cases error with
  | read error => cases error <;> rfl
  | _ => rfl

/-! ## Streams -/

namespace TokenStream

/-- The item on another line. -/
def Item.relined (f : Nat → Nat) : Item → Item
  | .ok token => .ok (token.relined f)
  | .error error => .error (error.relined f)

theorem map_relined_tokens (f : Nat → Nat) (tokens : List Token) :
    (tokens.map (.ok : Token → Item)).map (Item.relined f) =
      (tokens.map (Token.relined f)).map .ok := by
  rw [List.map_map, List.map_map]
  rfl

theorem Item.map_relined_id (items : List Item) : items.map (Item.relined id) = items := by
  have hid : ∀ item, Item.relined id item = item := by
    intro item
    cases item with
    | ok token => rfl
    | error cause => cases cause <;> rfl
  rw [funext hid, List.map_id']

/-- What comes out of a line depends on its number only up to the numbers of its tokens. -/
theorem lineItems_relined {number number' : Nat} (h : f (number + 1) = number' + 1) (line : Line) :
    lineItems number' line = (lineItems number line).map (Item.relined f) := by
  cases line with
  | garbled => rfl
  | text content =>
      have hscan : Token.tokenize content (number' + 1) =
          Token.relinedLine f (Token.tokenize content (number + 1)) := by
        rw [← h]
        exact Token.scan_relined f (number + 1) content.toList
      simp only [lineItems, hscan]
      cases Token.tokenize content (number + 1) with
      | error fault => rfl
      | ok tokens =>
          have hend : Token.mk .endOfLine (number' + 1) =
              (Token.mk .endOfLine (number + 1)).relined f := by
            rw [Token.relined, h]
          simp only [Token.relinedLine, map_relined_tokens, List.map_append, List.map_cons,
            List.map_nil, hend, Item.relined]

/-- A source that stands on other lines hands out the same on those lines. -/
theorem sourceItems_relined {source : Source} {number number' : Nat}
    (h : ∀ i < source.length, f (number + i + 1) = number' + i + 1) :
    sourceItems number' source = (sourceItems number source).map (Item.relined f) := by
  induction source generalizing number number' with
  | nil => rfl
  | cons line lines ih =>
      have hrest : ∀ i < lines.length,
          f (lineNumber number line + i + 1) = lineNumber number' line + i + 1 := by
        intro i hi
        cases line with
        | garbled => exact h i (Nat.lt_succ_of_lt hi)
        | text content =>
            show f (number + 1 + i + 1) = number' + 1 + i + 1
            rw [Nat.add_assoc number, Nat.add_assoc number', Nat.add_comm 1 i]
            exact h (i + 1) (Nat.succ_lt_succ hi)
      rw [sourceItems, sourceItems, lineItems_relined (h 0 (Nat.succ_pos _)), ih hrest,
        List.map_append]

/-- A source that begins some lines later hands out the same on other lines. -/
theorem sourceItems_add (source : Source) (number k : Nat) :
    sourceItems (number + k) source = (sourceItems number source).map (Item.relined (· + k)) :=
  sourceItems_relined fun _ _ => by omega

end TokenStream

end TreeScript
