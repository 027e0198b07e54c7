import TreeScript.Proofs.Grammar.Parse

/-!
# Rules that stay on a line

A rule is *inline* if no element that it can reach takes the end of a line. Such a rule takes
tokens of one line only. So if the tokens before it end with the end of a line, it cannot use
them up, and if it stops for want of a token it had none to begin with
(`FailsAll.eq_nil`).
-/

namespace TreeScript

namespace Grammar

/-! ## Tokens of a line -/

/-- If there are tokens, the last one ends a line. -/
def LineEnded (tokens : List Token) : Prop :=
  ∀ before token, tokens = before ++ [token] → token.isEndOfLine = true

/-- The tokens before `rest` end no line. -/
def StaysOnLine (tokens rest : List Token) : Prop :=
  ∃ t, tokens = t ++ rest ∧ ∀ token ∈ t, token.isEndOfLine = false

/-- The last of the tokens is the last one of the rest, if there is any. -/
theorem LineEnded.of_append {t rest : List Token} (h : LineEnded (t ++ rest)) : LineEnded rest := by
  rintro before token rfl
  exact h (t ++ before) token (by simp)

theorem LineEnded.suffix {tokens rest : List Token} (hs : rest <:+ tokens) (h : LineEnded tokens) :
    LineEnded rest := by
  obtain ⟨t, rfl⟩ := hs
  exact h.of_append

theorem LineEnded.tail {token : Token} {rest : List Token} (h : LineEnded (token :: rest)) :
    LineEnded rest := h.suffix (List.suffix_cons _ _)

/-- A token that ends no line is not the last one. -/
theorem LineEnded.tail_ne_nil {token : Token} {rest : List Token} (h : LineEnded (token :: rest))
    (ht : token.isEndOfLine = false) : rest ≠ [] := by
  rintro rfl
  rw [h [] token rfl] at ht
  cases ht

theorem staysOnLine_refl (tokens : List Token) : StaysOnLine tokens tokens := ⟨[], rfl, by simp⟩

theorem staysOnLine_cons {token : Token} {rest : List Token} (h : token.isEndOfLine = false) :
    StaysOnLine (token :: rest) rest := ⟨[token], rfl, by simpa using h⟩

theorem StaysOnLine.trans {tokens tokens' rest : List Token} (h : StaysOnLine tokens tokens')
    (h' : StaysOnLine tokens' rest) : StaysOnLine tokens rest := by
  obtain ⟨t, rfl, ht⟩ := h
  obtain ⟨t', rfl, ht'⟩ := h'
  refine ⟨t ++ t', by simp, fun token hmem => ?_⟩
  rcases List.mem_append.1 hmem with hmem | hmem
  · exact ht token hmem
  · exact ht' token hmem

/-- Nothing is left only if there was nothing. -/
theorem StaysOnLine.eq_nil {tokens : List Token} (h : StaysOnLine tokens [])
    (hl : LineEnded tokens) : tokens = [] := by
  obtain ⟨t, rfl, ht⟩ := h
  rw [List.append_nil] at hl ⊢
  rcases List.eq_nil_or_concat t with hn | ⟨before, token, hb⟩
  · exact hn
  · rw [List.concat_eq_append] at hb
    have hend := hl before token hb
    rw [ht token (by simp [hb])] at hend
    cases hend

/-! ## Inline rules -/

/-- The element takes no end of a line, given which rules take none. -/
def Element.Inline (inline : RuleId → Bool) : Element → Bool
  | .tree rule => inline rule
  | .choice rules => rules.all inline
  | .repeated rule _ => inline rule
  | .orEmpty rule => inline rule
  | .token _ _ => true
  | .literal texts _ => !texts.contains Token.endOfLineText
  | .ahead _ => true
  | .expression factor _ _ => inline factor

/-- The elements of inline rules are inline. -/
def InlineRules (grammar : Grammar) (inline : RuleId → Bool) : Prop :=
  ∀ id, inline id = true → ∀ element ∈ (grammar.rule id).elements, element.Inline inline = true

/-- Inline rules stay on a line. -/
def InlineSuccess (inline : RuleId → Bool) (R : Success) : Prop :=
  ∀ id tokens tree rest, R id tokens tree rest → inline id = true → StaysOnLine tokens rest

/-- Inline rules that want for a token had none. -/
def InlineFailure (inline : RuleId → Bool) (F : Failure) : Prop :=
  ∀ id tokens cause, F id tokens [] cause → inline id = true → cause ≠ .shape → LineEnded tokens →
    tokens = []

section Inline

variable {grammar : Grammar} {inline : RuleId → Bool} {R : Success} {F : Failure}

/-- An inline element chooses inline rules. -/
theorem inline_of_chooseAt {rules : List RuleId} {rule : RuleId} {tokens : List Token}
    (hi : (Element.choice rules).Inline inline = true)
    (hc : grammar.chooseAt rules (front tokens) = some (some rule)) : inline rule = true :=
  List.all_eq_true.1 hi rule (mem_of_firstAt hc)

variable (hr : InlineSuccess inline R)
include hr

/-- A repetition of an inline rule stays on the line. -/
theorem Repeats.staysOnLine {rule : RuleId} {tokens rest : List Token} {trees : List Tree}
    (h : Repeats grammar R rule tokens trees rest) (hi : inline rule = true) :
    StaysOnLine tokens rest := by
  induction h with
  | done => exact staysOnLine_refl _
  | more _ hread _ ih => exact (hr _ _ _ _ hread hi).trans ih

/-- Operators end no line, so a chain of inline operands stays on it. -/
theorem Chains.staysOnLine {factor : RuleId} {operators : Operators} {takes : Precedence → Bool}
    {tokens rest : List Token} {links : List Link}
    (h : Chains R factor operators takes tokens links rest) (hi : inline factor = true) :
    StaysOnLine tokens rest := by
  induction h with
  | done => exact staysOnLine_refl _
  | more ho _ hread _ ih =>
      exact (staysOnLine_cons (isEndOfLine_of_ofToken? ho)).trans ((hr _ _ _ _ hread hi).trans ih)

/-- An inline element stays on the line. -/
theorem Reads.staysOnLine {element : Element} {tokens rest : List Token} {trees : List Tree}
    (h : Reads grammar R element tokens trees rest) (hi : element.Inline inline = true) :
    StaysOnLine tokens rest := by
  cases h with
  | tree hread => exact hr _ _ _ _ hread hi
  | choice hc hread => exact hr _ _ _ _ hread (inline_of_chooseAt hi hc)
  | many hread => exact hread.staysOnLine hr hi
  | never => exact staysOnLine_refl _
  | once _ hread => exact hr _ _ _ _ hread hi
  | empty => exact staysOnLine_refl _
  | filled _ hread => exact hr _ _ _ _ hread hi
  | token ha => exact staysOnLine_cons (isEndOfLine_of_accepts ha)
  | dropped hl =>
      exact staysOnLine_cons (isEndOfLine_of_isLiteral hl (by simpa [Element.Inline] using hi))
  | kept hl =>
      exact staysOnLine_cons (isEndOfLine_of_isLiteral hl (by simpa [Element.Inline] using hi))
  | ahead => exact staysOnLine_refl _
  | expression _ hread hchain => exact (hr _ _ _ _ hread hi).trans (hchain.staysOnLine hr hi)

theorem ReadsAll.staysOnLine {elements : List Element} {tokens rest : List Token}
    {trees : List Tree}
    (h : ReadsAll grammar R elements tokens trees rest)
    (hi : ∀ element ∈ elements, element.Inline inline = true) : StaysOnLine tokens rest := by
  induction h with
  | nil => exact staysOnLine_refl _
  | cons hread _ ih =>
      refine (hread.staysOnLine hr (hi _ List.mem_cons_self)).trans (ih ?_)
      exact fun element hmem => hi element (List.mem_cons_of_mem _ hmem)

variable (hf : InlineFailure inline F)
include hf

/-- Each turn leaves a token, so the one that fails has some left before the end. -/
theorem RepeatsFail.eq_nil {rule : RuleId} {tokens rest : List Token} {cause : Cause}
    (h : RepeatsFail grammar R F rule tokens rest cause) (hrest : rest = [])
    (hi : inline rule = true) (hs : cause ≠ .shape) (hl : LineEnded tokens) : tokens = [] := by
  induction h with
  | unread => rfl
  | now _ hfail =>
      subst hrest
      exact hf _ _ _ hfail hi hs hl
  | later _ hread _ ih =>
      have hstays := hr _ _ _ _ hread hi
      obtain ⟨t, rfl, -⟩ := id hstays
      obtain rfl := ih hrest hs hl.of_append
      exact hstays.eq_nil hl

/-- A chain that begins with an operator does not want for a token. -/
theorem ChainsFail.eq_nil {factor : RuleId} {operators : Operators} {kind : Tree.Kind}
    {tokens rest : List Token} {cause : Cause}
    (h : ChainsFail R F factor operators kind tokens rest cause) (hrest : rest = [])
    (hi : inline factor = true) (hs : cause ≠ .shape) (hl : LineEnded tokens) : tokens = [] := by
  induction h with
  | unread => rfl
  | now ho hfail =>
      subst hrest
      exact (hl.tail_ne_nil (isEndOfLine_of_ofToken? ho) (hf _ _ _ hfail hi hs hl.tail)).elim
  | shape => exact (hs rfl).elim
  | later ho hread _ ih =>
      have hstays := hr _ _ _ _ hread hi
      obtain ⟨t, rfl, -⟩ := id hstays
      obtain rfl := ih hrest hs hl.tail.of_append
      exact (hl.tail_ne_nil (isEndOfLine_of_ofToken? ho) (hstays.eq_nil hl.tail)).elim

/-- An inline element that stops for want of a token had none. -/
theorem Fails.eq_nil {element : Element} {tokens : List Token} {cause : Cause}
    (h : Fails grammar R F element tokens [] cause) (hi : element.Inline inline = true)
    (hs : cause ≠ .shape) (hl : LineEnded tokens) : tokens = [] := by
  cases h with
  | unread => rfl
  | tree hfail => exact hf _ _ _ hfail hi hs hl
  | chosen hc hfail => exact hf _ _ _ hfail (inline_of_chooseAt hi hc) hs hl
  | unchosen => rfl
  | many hfail => exact hfail.eq_nil hr hf rfl hi hs hl
  | once _ hfail => exact hf _ _ _ hfail hi hs hl
  | filled _ hfail => exact hf _ _ _ hfail hi hs hl
  | shapeEmpty => rfl
  | shapeToken => exact (hs rfl).elim
  | token => rfl
  | literal => rfl
  | ahead => rfl
  | operand hfail => exact hf _ _ _ hfail hi hs hl
  | chain hread hfail =>
      have hstays := hr _ _ _ _ hread hi
      obtain ⟨t, rfl, -⟩ := id hstays
      obtain rfl := hfail.eq_nil hr hf rfl hi hs hl.of_append
      exact hstays.eq_nil hl

/-- The elements before the one that stops stay on the line, so they leave a token. -/
theorem FailsAll.eq_nil {elements : List Element} {tokens rest : List Token} {cause : Cause}
    (h : FailsAll grammar R F elements tokens rest cause) (hrest : rest = [])
    (hi : ∀ element ∈ elements, element.Inline inline = true)
    (hs : cause ≠ .shape) (hl : LineEnded tokens) : tokens = [] := by
  induction h with
  | here hfail =>
      subst hrest
      exact hfail.eq_nil hr hf (hi _ List.mem_cons_self) hs hl
  | there hread _ ih =>
      have hstays := hread.staysOnLine hr (hi _ List.mem_cons_self)
      obtain ⟨t, rfl, -⟩ := id hstays
      obtain rfl := ih hrest (fun element hmem => hi element (List.mem_cons_of_mem _ hmem)) hs
        hl.of_append
      exact hstays.eq_nil hl

end Inline

end Grammar

end TreeScript
