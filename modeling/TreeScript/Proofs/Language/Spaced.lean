import TreeScript.Proofs.Grammar.Spaced
import TreeScript.Proofs.Language.Shape

/-!
# Ends of lines between statements

Expressions take no end of a line, and blocks take all that they meet. What may leave one behind are
the statements, at the top and in a block, and the separators in them. In a block the next turn of
the repetition takes it, and at the top it is a statement of its own that does nothing.
-/

namespace TreeScript

namespace Language

open Grammar TokenStream

/-- The rules that take no end of a line as their last token. -/
def firm (id : RuleId) : Bool :=
  !([separatorId, blockSimpleId, blockStatementId, compoundStatementId, simpleStatementId,
    nullStatementId, programId].contains id)

/-- The statements of a block. -/
def blockStatements (id : RuleId) : Bool := id == blockStatementId

variable {language : Language} (hl : language = full ∨ language = basic)
include hl

/-- In a block the end of a line is dropped. -/
theorem drops_blockStatement (line : Nat) :
    Drops language.grammar ⟨.endOfLine, line⟩ blockStatementId .list := by
  rcases hl with rfl | rfl
  · exact ⟨rfl, [compoundId, blockSimpleId, separatorId], separatorId, separators,
      rfl, rfl, rfl, rfl, rfl⟩
  · exact ⟨rfl, [compoundId, blockSimpleId, separatorId], separatorId, separators,
      rfl, rfl, rfl, rfl, rfl⟩

/-- At the top the end of a line is a statement that does nothing. -/
theorem drops_program (line : Nat) :
    Drops language.grammar ⟨.endOfLine, line⟩ language.program .null := by
  rcases hl with rfl | rfl
  · exact ⟨rfl, [compoundStatementId, simpleStatementId, nullStatementId], nullStatementId,
      separators, rfl, rfl, rfl, rfl, rfl⟩
  · exact ⟨rfl, [compoundStatementId, simpleStatementId, nullStatementId], nullStatementId,
      separators, rfl, rfl, rfl, rfl, rfl⟩

/-- Only the last element of a rule may leave the end of a line, and a block takes all that come
next. -/
theorem paced_rules : Paced language.grammar firm blockStatements := by
  have habsorbs : ∀ id, blockStatements id = true → Absorbs language.grammar id := by
    intro id hid
    obtain rfl : id = blockStatementId := beq_iff_eq.1 hid
    refine Drops.absorbs (drops_blockStatement hl) fun line => ?_
    rcases hl with rfl | rfl
    · rfl
    · rfl
  refine paced_of_table ?_ habsorbs
  rcases hl with rfl | rfl
  · decide +kernel
  · decide +kernel

/-- One more end of a line does not change what a statement is. At most it is left over. -/
theorem carries_statement (f : Nat → Nat) (line : Nat) :
    Carries f (Apart f line) (Near f line) (Tree.relined f) language.statement
      language.statement :=
  ((paced_rules hl).carries_parse (ends_statement hl)).mono (fun _ _ hp => hp) fun _ _ h => h.near

/-- The end of a line is a statement that does nothing. -/
theorem exists_gives_null {s : TokenStream} {line : Nat} {rest : List Item}
    (hs : s.items = .ok ⟨.endOfLine, line⟩ :: rest) :
    ∃ tree t, language.statement.Gives s tree t ∧ tree.isNull = true ∧ t.items = rest := by
  obtain ⟨tokens, tail, hshows, rfl⟩ := exists_shows_of_items hs
  have hbudget : 2 ≤ language.grammar.budget s :=
    Nat.le_trans (Nat.le_add_left 2 s.bound) (Nat.le_mul_of_pos_left _ (Nat.succ_pos _))
  obtain ⟨t, hg, ht⟩ := (drops_program hl line).exists_gives hshows hbudget
  exact ⟨_, t, hg, rfl, ht.1⟩

end Language

end TreeScript
