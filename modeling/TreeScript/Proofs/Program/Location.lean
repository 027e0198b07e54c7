import TreeScript.Proofs.Grammar.FirstLeaf
import TreeScript.Proofs.Program.Progress
import TreeScript.Proofs.Program.Relocated
import TreeScript.Proofs.TokenStream.Place

/-!
# Where an evaluation fails

If an evaluation fails, the error names a line: that of the first leaf of the statement. Its first
token may be another one, a parenthesis, a minus sign or a keyword, and these are not leaves. But
all rules that may begin a statement are firm (`firm_full`, `firm_basic`), so both tokens are on one
line (`Upcoming.exists_taken`). What a run has taken when it comes to the statement are the items of
the text before this first token. So the line that is named is where the statement begins in the
text (`run_error_located`).
-/

namespace TreeScript

namespace Program

open Grammar TokenStream TreeScript.Language

/-! ## Rules that begin a statement -/

/-- The rules of a table that a statement may begin with, but for the one of statements that do
nothing. -/
def beginsStatement (size : Nat) (id : RuleId) : Bool :=
  id < size &&
    [exprId, compoundId, parenId, numberId, nameId, stringId, primaryId, negativeId, factorId,
      simpleId, ifId, whileId, compoundStatementId, simpleStatementId, defId].contains id

theorem lt_of_beginsStatement {size : Nat} {id : RuleId} (h : beginsStatement size id = true) :
    id < size := by
  rw [beginsStatement, Bool.and_eq_true, decide_eq_true_eq] at h
  exact h.1

/-- It is enough to look at the rules of the table. -/
theorem firm_of_table {grammar : Grammar} {size : Nat}
    (htable : ∀ id < size, beginsStatement size id = true →
      beginsFirm (beginsStatement size) (grammar.rule id).elements = true) :
    Firm grammar (beginsStatement size) :=
  fun id hid => htable id (lt_of_beginsStatement hid) hid

/-- The rules that begin a statement of the full language are firm. -/
theorem firm_full : Firm full.grammar (beginsStatement fullSize) :=
  firm_of_table (by decide +kernel)

/-- The rules that begin a statement of the basic language are firm. -/
theorem firm_basic : Firm basic.grammar (beginsStatement basicSize) :=
  firm_of_table (by decide +kernel)

variable {language : Language} {s t : TokenStream} {token : Token} {statement : Tree}

/-- A statement that keeps a token keeps one of its first line. -/
theorem led_of_yields (hl : language = full ∨ language = basic) {taken kept : List Token}
    (h : Yields language.grammar language.program taken kept) (hkept : kept ≠ []) :
    Led taken kept := by
  cases hl with
  | inl hl =>
      subst hl
      have hid : (full.grammar.rule full.program).elements =
        [.choice [compoundStatementId, simpleStatementId, nullStatementId]] := rfl
      exact h.led_of_choice firm_full hid (by decide +kernel) hkept
  | inr hl =>
      subst hl
      have hid : (basic.grammar.rule basic.program).elements =
        [.choice [compoundStatementId, simpleStatementId, nullStatementId]] := rfl
      exact h.led_of_choice firm_basic hid (by decide +kernel) hkept

/-! ## The first token of a statement -/

/-- The first token that is kept is on the line of the first one that is taken. -/
theorem exists_first_of_led {taken kept : List Token} {rest : List Item} (h : Led taken kept)
    (hchain : (taken.map Except.ok ++ rest).IsChain SameLine) :
    ∃ first taken', taken = first :: taken' ∧ first.isEndOfLine = false ∧
      kept.head?.map Token.line = some first.line := by
  cases h with
  | intro lead hlead hleaf =>
      cases lead with
      | nil => exact ⟨_, _, rfl, hleaf, rfl⟩
      | cons first lead =>
          obtain ⟨hfirst, hlead⟩ := List.forall_mem_cons.1 hlead
          rw [List.map_append, List.append_assoc] at hchain
          exact ⟨first, _, rfl, hfirst, congrArg some (line_eq_of_isChain hchain hfirst hlead)⟩

namespace Upcoming

theorem read (h : Upcoming language s token statement t) : Read language statement := by
  obtain ⟨s₁, -, -, hg⟩ := h
  exact ⟨s₁, t, hg⟩

/-- The tokens that the statement has taken are there, with those that its tree keeps. -/
theorem exists_yields (h : Upcoming language s token statement t) :
    ∃ taken : List Token, s.items = taken.map .ok ++ t.items ∧
      Yields language.grammar language.program taken statement.tokens := by
  obtain ⟨s₁, hpeek, -, hg⟩ := h
  obtain ⟨tokens, tail, hs⟩ := s.exists_shows
  obtain ⟨-, -, hs₁⟩ := shows_of_peek hs hpeek
  obtain ⟨taken, htaken, hyields⟩ := exists_taken_of_gives hg
  exact ⟨taken, by rw [hs.1, ← hs₁.1, htaken], hyields⟩

/-- The token that was seen is the first item. -/
theorem eq_of_items {first : Token} {rest : List Item}
    (h : Upcoming language s token statement t) (hitems : s.items = .ok first :: rest) :
    token = first := by
  obtain ⟨s₁, hpeek, hend, -⟩ := h
  obtain ⟨tokens, tail, hs⟩ := s.exists_shows
  obtain ⟨hsees, -, -⟩ := shows_of_peek hs hpeek
  cases hsees with
  | inl hsees =>
      obtain ⟨others, htokens⟩ := hsees
      have heads := hs.1
      rw [hitems, htokens] at heads
      cases heads
      rfl
  | inr hsees =>
      obtain ⟨-, line, htoken⟩ := hsees
      rw [htoken] at hend
      cases hend

/-- A statement that does something stands on the line of its first token. -/
theorem exists_taken (h : Upcoming language s token statement t)
    (hl : language = full ∨ language = basic) (hnull : statement.isNull = false)
    (hchain : s.items.IsChain SameLine) :
    ∃ taken, s.items = (token :: taken).map .ok ++ t.items ∧ token.isEndOfLine = false ∧
      statement.line? = some token.line := by
  have hkept : statement.tokens ≠ [] := (h.read.isStatement hl hnull).tokens_ne_nil
  obtain ⟨taken, hitems, hyields⟩ := h.exists_yields
  rw [hitems] at hchain
  obtain ⟨first, taken', htaken, hfirst, hline⟩ :=
    exists_first_of_led (led_of_yields hl hyields hkept) hchain
  subst htaken
  have htoken : token = first := h.eq_of_items hitems
  subst htoken
  exact ⟨taken', hitems, hfirst, hline⟩

end Upcoming

/-! ## The statement that fails -/

variable {budget : Nat} {heap heap' : Heap} {error : EvalError}

/-- After some turns, a run has left the last of the items. -/
theorem items_suffix_of_turns {k : Nat} {result : Value} {next : TokenStream × Value}
    (h : Action.Turns (runStatement language budget) (s, result) heap k next heap') :
    next.1.items <:+ s.items := by
  induction h with
  | start => exact List.suffix_rfl
  | @more _ state _ heap₁ _ _ hturn ih =>
      obtain ⟨token, statement, hupcoming⟩ :=
        (ensures_turn budget state.1 state.2 heap₁).of_gives hturn _ rfl
      obtain ⟨taken, hitems, -⟩ := hupcoming.exists_yields
      exact List.IsSuffix.trans ⟨taken.map .ok, hitems.symm⟩ ih

/-- A run of a source comes to a statement whose evaluation fails. The statement begins with the
token, and the run has taken the items before. -/
inductive FailsOn (language : Language) (budget : Nat) (source : Source) (heap : Heap)
    (error : EvalError) (heap' : Heap) : List Item → Token → Prop where
  | intro {k : Nat} {s t : TokenStream} {result : Value} {heap₁ : Heap} {statement : Tree}
      {token : Token} {consumed : List Item} {taken : List Token}
      (hturns : Action.Turns (runStatement language budget) (ofSource source, .nil) heap k
        (s, result) heap₁)
      (hconsumed : (ofSource source).items = consumed ++ s.items)
      (hupcoming : Upcoming language s token statement t)
      (htaken : s.items = (token :: taken).map .ok ++ t.items)
      (hnull : statement.isNull = false)
      (hfails : (evaluate budget statement).Stops heap₁ error heap') :
      FailsOn language budget source heap error heap' consumed token

/-- An error of evaluation names the line where the statement begins that fails. This is one more
than the number of line breaks in the text before the first token of that statement. -/
theorem run_error_located (hl : language = full ∨ language = basic) {text location : String}
    (h : (run language budget (.ofText text)).Stops heap (.eval error location) heap') :
    ∃ consumed token before line,
      FailsOn language budget (.ofText text) heap error heap' consumed token ∧
      Placed text token consumed before ∧ line = before.count '\n' + 1 ∧
      location = s!"at line {line}" := by
  obtain ⟨k, ⟨s, result⟩, heap₁, hturns, hstops⟩ := Action.exists_turns_of_stops h
  obtain ⟨token, statement, t, hupcoming, hnull, hfails, hlocation⟩ :=
    (ensures_turn budget s result heap₁).of_stops hstops error location rfl
  obtain ⟨consumed, hconsumed⟩ := items_suffix_of_turns hturns
  have hchain : s.items.IsChain SameLine :=
    (isChain_sourceItems (.ofText text) 0).suffix ⟨consumed, hconsumed⟩
  obtain ⟨taken, htaken, htoken, hline⟩ := hupcoming.exists_taken hl hnull hchain
  have hitems : (ofSource (.ofText text)).items =
      consumed ++ .ok token :: (taken.map .ok ++ t.items) := by
    rw [← hconsumed, htaken]
    rfl
  obtain ⟨before, hplaced, hcount⟩ := exists_placed htoken hitems
  refine ⟨consumed, token, before, token.line, ?_, hplaced, hcount, ?_⟩
  · exact .intro hturns hconsumed.symm hupcoming htaken hnull hfails
  · rw [hlocation, Tree.location?, hline]
    rfl

/-- The division fails two lines below the keyword and the parenthesis that the statement begins
with. -/
theorem run_error_located_division :
    let text := "x = 1\n\nif (x) \x7b\n  y = x - 1\n  x / y\n\x7d\n"
    ∃ heap' consumed token before line,
      (run full 20 (.ofText text)).Stops initialHeap (.eval .divisionByZero "at line 3") heap' ∧
      FailsOn full 20 (.ofText text) initialHeap .divisionByZero heap' consumed token ∧
      Placed text token consumed before ∧ line = before.count '\n' + 1 ∧
      "at line 3" = s!"at line {line}" := by
  intro text
  have hrun : (run full 20 (.ofText text) initialHeap).error?.map Prod.fst =
      some (.eval .divisionByZero "at line 3") := by decide +kernel
  obtain ⟨⟨cause, heap'⟩, herror, hcause⟩ := Option.map_eq_some_iff.1 hrun
  subst hcause
  have hstops := Action.stops_of_error? herror
  obtain ⟨consumed, token, before, line, hfails, hplaced, hcount, hline⟩ :=
    run_error_located (.inl rfl) hstops
  exact ⟨heap', consumed, token, before, line, hstops, hfails, hplaced, hcount, hline⟩

end Program

end TreeScript
