import TreeScript.Proofs.Language.Opening

/-!
# What the rules of the full language mean

`Meaning` says for each rule which derivation it stands for, and what it has seen of the
tokens after it. It is closed: whatever the rules read on tokens of a stream has a derivation
(`closedOn_meaning`).
-/

namespace TreeScript

namespace Language

open Grammar TreeScript.Derivation

/-! ## Meanings -/

/-- The tokens before `rest` derive from a line of the grammar. -/
def Takes (line : List Token → Tree → Prop) (tokens : List Token) (tree : Tree)
    (rest : List Token) : Prop := ∃ t, tokens = t ++ rest ∧ line t tree

/-- No call comes next. -/
def NoCall (tokens : List Token) : Prop := isLiteral ["("] (front tokens) = false

/-- No operator comes next. -/
def NoOperator (tokens : List Token) : Prop := operators.ofToken? (front tokens) = none

/-- If the tree is an `if` without `else`, no `else` comes next. -/
def NoElse (tree : Tree) (tokens : List Token) : Prop :=
  ∀ condition body, tree = .branch .conditional [condition, body] →
    isLiteral ["else"] (front tokens) = false

/-- A compound statement, after which no `else` was left out. -/
def CompoundSeen (tokens : List Token) (tree : Tree) (rest : List Token) : Prop :=
  Takes Compound tokens tree rest ∧ NoElse tree rest

/-- A compound statement and the separator after it, if there is one. -/
def CompoundEnded (tokens : List Token) (tree : Tree) (rest : List Token) : Prop :=
  CompoundSeen tokens tree rest ∧ isLiteral separators (front rest) = false ∨
    ∃ separator, Separator separator ∧ CompoundSeen tokens tree (separator :: rest)

/-- An expression, after which no call and no operator was left out. -/
def ExprSeen (tokens : List Token) (tree : Tree) (rest : List Token) : Prop :=
  Takes Expr tokens tree rest ∧ NoCall rest ∧ NoOperator rest

/-- An expression and a separator. -/
def SimpleEnded (tokens : List Token) (tree : Tree) (rest : List Token) : Prop :=
  ∃ separator, Separator separator ∧ ExprSeen tokens tree (separator :: rest)

/-- An expression right before a closing brace. -/
def SimpleLast (tokens : List Token) (tree : Tree) (rest : List Token) : Prop :=
  ExprSeen tokens tree rest ∧ isLiteral ["\x7d"] (front rest) = true

/-- A separator alone, which gives an empty tree of a kind. -/
def SeparatorAlone (kind : Tree.BranchKind) (tokens : List Token) (tree : Tree)
    (rest : List Token) : Prop :=
  tree = .branch kind [] ∧ ∃ separator, Separator separator ∧ tokens = separator :: rest

/-- A word and what comes after it. -/
def After (text : String) (line : List Token → Tree → List Token → Prop) (tokens : List Token)
    (tree : Tree) (rest : List Token) : Prop :=
  ∃ word tokens', IsWord text word ∧ tokens = word :: tokens' ∧ line tokens' tree rest

/-- The meaning of each rule. -/
def Meaning : Success
  | exprId, tokens, tree, rest => ExprSeen tokens tree rest
  | compoundId, tokens, tree, rest => CompoundSeen tokens tree rest
  | parenId, tokens, tree, rest =>
      Takes Atom tokens tree rest ∧ isLiteral ["("] (front tokens) = true
  | numberId, tokens, tree, rest => Takes Atom tokens tree rest ∧ (front tokens).isNumber = true
  | nameId, tokens, tree, rest => Takes Atom tokens tree rest ∧ Identifier (front tokens)
  | stringId, tokens, tree, rest => Takes Atom tokens tree rest ∧ (front tokens).isString = true
  | primaryId, tokens, tree, rest => Takes Primary tokens tree rest ∧ NoCall rest
  | negativeId, tokens, tree, rest =>
      (Takes Factor tokens tree rest ∧ NoCall rest) ∧ isLiteral ["-"] (front tokens) = true
  | factorId, tokens, tree, rest => Takes Factor tokens tree rest ∧ NoCall rest
  | simpleId, tokens, tree, rest => ExprSeen tokens tree rest
  | separatorId, tokens, tree, rest => SeparatorAlone .list tokens tree rest
  | blockEndId, tokens, tree, rest =>
      tree = .branch .list [] ∧ tokens = rest ∧ isLiteral ["\x7d"] (front rest) = true
  | blockSimpleId, tokens, tree, rest => SimpleEnded tokens tree rest ∨ SimpleLast tokens tree rest
  | blockStatementId, tokens, tree, rest =>
      CompoundSeen tokens tree rest ∨ SimpleEnded tokens tree rest ∨
      SimpleLast tokens tree rest ∨ SeparatorAlone .list tokens tree rest
  | blockId, tokens, tree, rest => Takes (Block Compound) tokens tree rest
  | elseId, tokens, tree, rest => After "else" (Takes (Block Compound)) tokens tree rest
  | ifId, tokens, tree, rest =>
      CompoundSeen tokens tree rest ∧ isLiteral ["if"] (front tokens) = true
  | whileId, tokens, tree, rest =>
      CompoundSeen tokens tree rest ∧ isLiteral ["while"] (front tokens) = true
  | compoundStatementId, tokens, tree, rest => CompoundEnded tokens tree rest
  | simpleStatementId, tokens, tree, rest => SimpleEnded tokens tree rest
  | nullStatementId, tokens, tree, rest => SeparatorAlone .null tokens tree rest
  | programId, tokens, tree, rest => CompoundEnded tokens tree rest ∨ SimpleEnded tokens tree rest ∨
      SeparatorAlone .null tokens tree rest
  | paramId, tokens, tree, rest => Takes Parameter tokens tree rest
  | paramTailId, tokens, tree, rest => After "," (Takes Parameter) tokens tree rest
  | paramsId, tokens, tree, rest => ∃ trees, tree = .branch .parameters trees ∧
      Takes (fun t _ => Listed Parameter t trees) tokens tree rest ∧
      isLiteral [","] (front rest) = false
  | paramListId, tokens, tree, rest => After "(" (fun tokens tree rest =>
      ∃ last, IsWord ")" last ∧ Takes Parameters tokens tree (last :: rest)) tokens tree rest
  | defId, tokens, tree, rest =>
      CompoundSeen tokens tree rest ∧ isLiteral ["def"] (front tokens) = true
  | argTailId, tokens, tree, rest => After "," ExprSeen tokens tree rest
  | argsId, tokens, tree, rest => ∃ trees, tree = .branch .arguments trees ∧
      Takes (fun t _ => Listed Expr t trees) tokens tree rest ∧
      (NoCall rest ∧ NoOperator rest) ∧ isLiteral [","] (front rest) = false
  | callId, tokens, tree, rest => Takes (Call Expr) tokens tree rest
  | _, tokens, tree, rest => tree = .branch .list [] ∧ tokens = rest

section Takes

variable {line : List Token → Tree → Prop} {tokens rest : List Token} {tree : Tree}

/-- A line leaves the tokens after it. -/
theorem Takes.suffix (h : Takes line tokens tree rest) : rest <:+ tokens := by
  obtain ⟨t, rfl, -⟩ := h
  exact List.suffix_append _ _

/-- The word and what comes after it leave a suffix. -/
theorem After.suffix {text : String} {line : List Token → Tree → List Token → Prop}
    (h : After text line tokens tree rest)
    (hl : ∀ tokens, line tokens tree rest → rest <:+ tokens) : rest <:+ tokens := by
  obtain ⟨word, tokens', -, rfl, h⟩ := h
  exact (hl tokens' h).trans (List.suffix_cons _ _)

theorem SimpleEnded.suffix (h : SimpleEnded tokens tree rest) : rest <:+ tokens := by
  obtain ⟨separator, -, h, -⟩ := h
  exact (List.suffix_cons _ _).trans h.suffix

theorem CompoundEnded.suffix (h : CompoundEnded tokens tree rest) : rest <:+ tokens := by
  rcases h with ⟨⟨h, -⟩, -⟩ | ⟨separator, -, h, -⟩
  · exact h.suffix
  · exact (List.suffix_cons _ _).trans h.suffix

theorem SeparatorAlone.suffix {kind : Tree.BranchKind} (h : SeparatorAlone kind tokens tree rest) :
    rest <:+ tokens := by
  obtain ⟨-, separator, -, rfl⟩ := h
  exact List.suffix_cons _ _

end Takes

/-- Each meaning leaves a suffix of the tokens. -/
theorem trims_meaning : Trims Meaning := by
  intro id tokens tree rest h
  match id, h with
  | exprId, h | compoundId, h | parenId, h | numberId, h | nameId, h | stringId, h | primaryId, h
  | factorId, h | simpleId, h => exact h.1.suffix
  | negativeId, h | ifId, h | whileId, h | defId, h => exact h.1.1.suffix
  | separatorId, h | nullStatementId, h => exact SeparatorAlone.suffix h
  | blockEndId, ⟨_, ht, _⟩ => exact ht ▸ List.suffix_rfl
  | blockSimpleId, .inl h => exact h.suffix
  | blockSimpleId, .inr h => exact h.1.1.suffix
  | blockStatementId, .inl h => exact h.1.suffix
  | blockStatementId, .inr (.inl h) => exact h.suffix
  | blockStatementId, .inr (.inr (.inl h)) => exact h.1.1.suffix
  | blockStatementId, .inr (.inr (.inr h)) => exact h.suffix
  | blockId, h | paramId, h | callId, h => exact Takes.suffix h
  | elseId, h | paramTailId, h => exact After.suffix h fun _ h => h.suffix
  | compoundStatementId, h => exact CompoundEnded.suffix h
  | simpleStatementId, h => exact SimpleEnded.suffix h
  | programId, .inl h => exact h.suffix
  | programId, .inr (.inl h) => exact h.suffix
  | programId, .inr (.inr h) => exact h.suffix
  | paramsId, ⟨_, _, h, _⟩ | argsId, ⟨_, _, h, _⟩ => exact h.suffix
  | paramListId, h =>
      obtain ⟨word, tokens', -, rfl, last, -, h⟩ := h
      exact ((List.suffix_cons _ _).trans h.suffix).trans (List.suffix_cons _ _)
  | argTailId, h => exact After.suffix h fun _ h => h.1.suffix
  | _ + 30, ⟨_, ht⟩ => exact ht ▸ List.suffix_rfl

end Language

end TreeScript
