import TreeScript.Proofs.Grammar.Inline
import TreeScript.Proofs.Language.Sound

/-!
# Where a source may end too early

A source is a sequence of lines, and each ends with the end of a line. Expressions stay on a
line, and a statement at the top is over with its line. So a rule wants for a token only inside a
block that is still open, after the last line in it. Then closing braces, one for each open
block, make a compound statement of the tokens (`failureClosed_wanting`).
-/

namespace TreeScript

namespace Language

open Grammar TreeScript.Derivation

/-! ## Rules that stay on a line -/

/-- The rules of expressions, of parameters and of arguments. -/
def inlineIds : List RuleId :=
  [exprId, parenId, numberId, nameId, stringId, primaryId, negativeId, factorId, simpleId,
    paramId, paramTailId, paramsId, paramListId, argTailId, argsId, callId]

/-- The rule stays on a line. -/
def inline (id : RuleId) : Bool := inlineIds.contains id

/-- It is enough to look at the rules in the list. -/
theorem inlineRules_of_table {grammar : Grammar}
    (htable : ∀ id ∈ inlineIds, ∀ element ∈ (grammar.rule id).elements,
      element.Inline inline = true) : InlineRules grammar inline :=
  fun id hid => htable id (List.contains_iff_mem.1 hid)

/-- The inline rules of the full language use inline rules only. -/
theorem inlineRules_full : InlineRules full.grammar inline :=
  inlineRules_of_table (by decide +kernel)

/-- So do those of the basic language. -/
theorem inlineRules_basic : InlineRules basic.grammar inline :=
  inlineRules_of_table (by decide +kernel)

/-! ## Closing braces -/

/-- A closing brace. -/
def brace (line : Nat) : Token := ⟨.word "\x7d", line⟩

theorem isWord_brace (line : Nat) : IsWord "\x7d" (brace line) := rfl

/-- With some number of closing braces the tokens derive from a line of the grammar. -/
def Closable (line : List Token → Tree → Prop) (tokens : List Token) : Prop :=
  ∃ k, ∀ number, ∃ tree, line (tokens ++ List.replicate k (brace number)) tree

/-- With some number of closing braces the tokens are statements of a block. -/
def ClosableItems (tokens : List Token) : Prop :=
  ∃ k, ∀ number, ∃ trees, Items Compound (tokens ++ List.replicate k (brace number)) trees

/-- What a rule has read that wants for a token, if it has read anything. -/
def Open : RuleId → List Token → Prop
  | compoundId, tokens | blockStatementId, tokens | ifId, tokens | whileId, tokens
  | compoundStatementId, tokens | programId, tokens | defId, tokens =>
      Closable Compound tokens
  | blockId, tokens => Closable (Block Compound) tokens
  | elseId, tokens => ∃ word tokens', IsWord "else" word ∧ tokens = word :: tokens' ∧
      Closable (Block Compound) tokens'
  | _, _ => False

/-- What is known of a rule that succeeds. -/
def Understood : Success := fun id tokens tree rest =>
  (rest <:+ tokens ∧ (AllPlain tokens → Meaning id tokens tree rest)) ∧
    (inline id = true → StaysOnLine tokens rest)

/-- What is known of a rule that stops, above all if it wants for a token. -/
def Wanting : Failure := fun id tokens rest cause =>
  cause ≠ .shape → rest <:+ tokens ∧ (rest = [] → LineEnded tokens →
    (inline id = true → tokens = []) ∧ (AllPlain tokens → tokens = [] ∨ Open id tokens))

theorem trims_understood : Trims Understood := fun _ _ _ _ h => h.1.1

theorem inlineSuccess_understood : InlineSuccess inline Understood := fun _ _ _ _ h hi => h.2 hi

theorem inlineFailure_wanting : InlineFailure inline Wanting :=
  fun _ _ _ h hi hs hl => ((h hs).2 rfl hl).1 hi

theorem stopsWithin_wanting : StopsWithin Wanting := fun _ _ _ _ h hs => (h hs).1

/-- A rule that is read has its meaning, and stays on the line if it is inline. -/
theorem closed_understood : Closed full.grammar Understood := by
  intro id kind tokens trees rest hkind h
  refine ⟨closedOn_meaning.closed AllPlain.suffix id kind tokens trees rest hkind ?_, fun hi => ?_⟩
  · exact @ReadsAll.mono _ _ _ (fun _ => True) trims_understood (fun _ _ => trivial)
      (fun _ _ _ _ _ hr => hr.1) _ _ _ _ h trivial
  · exact h.staysOnLine inlineSuccess_understood (inlineRules_full id hi)

section Rules

variable {tokens rest : List Token} {tree : Tree} {cause : Cause}

theorem Understood.meaning {id : RuleId} (h : Understood id tokens tree rest)
    (hp : AllPlain tokens) :
    Meaning id tokens tree rest := h.1.2 hp

theorem Understood.suffix {id : RuleId} (h : Understood id tokens tree rest) :
    rest <:+ tokens := h.1.1

/-- An expression before the end of a line leaves something. -/
theorem Understood.ne_nil {id : RuleId} (h : Understood id tokens tree rest) (hi : inline id = true)
    (hl : LineEnded tokens) (hn : tokens ≠ []) : rest ≠ [] := by
  rintro rfl
  exact hn ((h.2 hi).eq_nil hl)

theorem AllPlain.tail {token : Token} (hp : AllPlain (token :: tokens)) : AllPlain tokens :=
  hp.suffix (List.suffix_cons _ _)

/-! ## Blocks -/

/-- A compound statement that can be closed is a statement of a block. -/
theorem Closable.items (h : Closable Compound tokens) : ClosableItems tokens := by
  obtain ⟨k, hk⟩ := h
  refine ⟨k, fun number => ?_⟩
  obtain ⟨tree, ht⟩ := hk number
  exact ⟨[tree], by simpa using Items.compound ht .nil⟩

/-- One more brace closes the block. -/
theorem ClosableItems.block {first : Token} (hfirst : IsWord "\x7b" first)
    (h : ClosableItems tokens) :
    Closable (Block Compound) (first :: tokens) := by
  obtain ⟨k, hk⟩ := h
  refine ⟨k + 1, fun number => ?_⟩
  obtain ⟨trees, ht⟩ := hk number
  refine ⟨.branch .block trees, ?_⟩
  rw [List.replicate_succ', List.cons_append, ← List.append_assoc]
  exact .items hfirst ht (isWord_brace number)

/-- A statement of a block goes before others, if no closing brace comes after it. -/
theorem exists_items_append (hm : Meaning blockStatementId tokens tree rest)
    (hstop : isLiteral ["\x7d"] (front rest) = false) :
    ∃ t, tokens = t ++ rest ∧ ∀ t' trees, Items Compound t' trees →
      ∃ trees', Items Compound (t ++ t') trees' := by
  rcases hm with ⟨⟨t, rfl, hc⟩, -⟩ | ⟨separator, hs, ⟨t, rfl, he⟩, -⟩ | ⟨-, hlast⟩ |
    ⟨-, separator, hs, rfl⟩
  · exact ⟨t, rfl, fun _ _ ht => ⟨_, .compound hc ht⟩⟩
  · exact ⟨t ++ [separator], by simp, fun _ _ ht => ⟨_, by simpa using Items.simple he hs ht⟩⟩
  · rw [hstop] at hlast
    cases hlast
  · exact ⟨[separator], rfl, fun _ _ ht => ⟨_, .separator hs ht⟩⟩

/-- A statement of a block that was read goes before those that are still open. -/
theorem ClosableItems.more (hm : Meaning blockStatementId tokens tree rest) (h : ClosableItems rest)
    (hstop : isLiteral ["\x7d"] (front rest) = false) : ClosableItems tokens := by
  obtain ⟨k, hk⟩ := h
  obtain ⟨t, rfl, hitems⟩ := exists_items_append hm hstop
  refine ⟨k, fun number => ?_⟩
  obtain ⟨trees, ht⟩ := hk number
  rw [List.append_assoc]
  exact hitems _ trees ht

/-- Statements that want for a token do not go on with a closing brace. -/
theorem stop_of_repeatsFail {F : Failure}
    (h : RepeatsFail full.grammar Understood F blockStatementId tokens rest cause) :
    isLiteral ["\x7d"] (front tokens) = false := by
  rw [Bool.eq_false_iff]
  intro hbrace
  have hstop := startsAt_blockStatement_brace (isWord_of_isLiteral hbrace (by decide))
  cases h with
  | unread => cases hbrace
  | now hs => simp [hstop] at hs
  | later hs => simp [hstop] at hs

/-- Statements of a block, the last of which wants for a token, can be closed. -/
theorem closableItems_of_repeatsFail
    (h : RepeatsFail full.grammar Understood Wanting blockStatementId tokens rest cause)
    (hrest : rest = [])
    (hs : cause ≠ .shape) (hl : LineEnded tokens) (hp : AllPlain tokens) :
    ClosableItems tokens := by
  induction h with
  | unread => exact ⟨0, fun _ => ⟨[], .nil⟩⟩
  | now _ hfail =>
      rcases ((hfail hs).2 hrest hl).2 hp with rfl | hopen
      · exact ⟨0, fun _ => ⟨[], .nil⟩⟩
      · exact Closable.items hopen
  | later _ hread hmore ih =>
      have hitems := ih hrest hs (hl.suffix hread.suffix) (hp.suffix hread.suffix)
      exact hitems.more (hread.meaning hp) (stop_of_repeatsFail hmore)

/-- A block that wants for a token can be closed by braces, one for itself and more for those
inside. -/
theorem open_block (h : FailsAll full.grammar Understood Wanting
    [.literal ["\x7b"] false, .repeated blockStatementId .any, .literal ["\x7d"] false]
      tokens [] cause)
    (hs : cause ≠ .shape) (hl : LineEnded tokens) (hp : AllPlain tokens) :
    tokens = [] ∨ Closable (Block Compound) tokens := by
  rcases failsAll_dropped h with rfl | ⟨first, tokens', rfl, hfirst, h⟩
  · exact .inl rfl
  · have hword := isWord_of_isLiteral hfirst (by decide)
    refine .inr (ClosableItems.block hword ?_)
    rcases failsAll_many h with rfl | hfail | ⟨trees, tokens'', hmany, h⟩
    · exact ⟨0, fun _ => ⟨[], .nil⟩⟩
    · exact closableItems_of_repeatsFail hfail rfl hs hl.tail hp.tail
    · rcases failsAll_dropped h with rfl | ⟨_, _, _, _, h⟩
      · have hmeaning := hmany.mono trims_understood AllPlain.suffix
          (fun _ _ _ _ hp hr => hr.meaning hp) hp.tail
        obtain ⟨t, rfl, hitems⟩ := items_of_repeats hmeaning
        exact ⟨0, fun _ => ⟨trees, by simpa using hitems⟩⟩
      · exact (failsAll_nil h).elim

/-! ## The last token of a compound statement -/

theorem Block.last {compound : List Token → Tree → Prop} {t : List Token}
    (h : Block compound t tree) : ∃ before last, t = before ++ [last] ∧ IsWord "\x7d" last := by
  cases h with
  | @items first last t trees _ _ hlast => exact ⟨first :: t, last, rfl, hlast⟩

/-- A compound statement ends with a closing brace. -/
theorem Compound.last {t : List Token} (h : Compound t tree) :
    ∃ before last, t = before ++ [last] ∧ IsWord "\x7d" last := by
  cases h with
  | @conditional word t t' _ _ _ _ hb =>
      obtain ⟨before, last, rfl, hlast⟩ := Block.last hb
      exact ⟨word :: (t ++ before), last, by simp, hlast⟩
  | @alternative word word' t t' t'' _ _ _ _ _ _ _ hb =>
      obtain ⟨before, last, rfl, hlast⟩ := Block.last hb
      exact ⟨word :: (t ++ (t' ++ word' :: before)), last, by simp, hlast⟩
  | @loop word t t' _ _ _ _ hb =>
      obtain ⟨before, last, rfl, hlast⟩ := Block.last hb
      exact ⟨word :: (t ++ before), last, by simp, hlast⟩
  | @definition word name first paren t t' _ _ _ _ _ _ _ hb =>
      obtain ⟨before, last, rfl, hlast⟩ := Block.last hb
      exact ⟨word :: name :: first :: (t ++ paren :: before), last, by simp, hlast⟩

/-- What ends with a closing brace leaves something before the end of a line. -/
theorem ne_nil_of_takes {line : List Token → Tree → Prop}
    (hline : ∀ t tree, line t tree → ∃ before last, t = before ++ [last] ∧ IsWord "\x7d" last)
    (h : Takes line tokens tree rest) (hl : LineEnded tokens) : rest ≠ [] := by
  rintro rfl
  obtain ⟨t, rfl, ht⟩ := h
  obtain ⟨before, last, rfl, hlast⟩ := hline t tree ht
  have hend := hl before last (by simp)
  obtain ⟨kind, number⟩ := last
  obtain rfl : kind = .word "\x7d" := hlast
  cases hend

/-- A word is not the last token of a source that ends with a line. -/
theorem ne_nil_of_isLiteral {token : Token} {texts : List String}
    (h : isLiteral texts token = true) (ht : Token.endOfLineText ∉ texts)
    (hl : LineEnded (token :: tokens)) : tokens ≠ [] :=
  hl.tail_ne_nil (isEndOfLine_of_isLiteral h ht)

/-! ## Compound statements -/

/-- An inline rule that wants for a token had none. -/
theorem Wanting.eq_nil {id : RuleId} (h : Wanting id tokens [] cause) (hi : inline id = true)
    (hs : cause ≠ .shape) (hl : LineEnded tokens) : tokens = [] := ((h hs).2 rfl hl).1 hi

/-- A rule that wants for a token is open, if it had one. -/
theorem Wanting.open {id : RuleId} (h : Wanting id tokens [] cause) (hs : cause ≠ .shape)
    (hl : LineEnded tokens) (hp : AllPlain tokens) : tokens = [] ∨ Open id tokens :=
  ((h hs).2 rfl hl).2 hp

/-- A block that wants for a token is open, if it has a token at all. -/
theorem Wanting.block (h : Wanting blockId tokens [] cause) (hs : cause ≠ .shape)
    (hl : LineEnded tokens)
    (hp : AllPlain tokens) (hn : tokens ≠ []) : Closable (Block Compound) tokens :=
  (h.open hs hl hp).resolve_left hn

theorem open_else (h : FailsAll full.grammar Understood Wanting
    [.literal ["else"] false, .tree blockId] tokens [] cause)
    (hs : cause ≠ .shape) (hl : LineEnded tokens) (hp : AllPlain tokens) :
    tokens = [] ∨ Open elseId tokens := by
  rcases failsAll_dropped h with rfl | ⟨word, tokens', rfl, hword, h⟩
  · exact .inl rfl
  · have hn := ne_nil_of_isLiteral hword (by decide) hl
    rcases failsAll_tree h with hnil | hfail | ⟨_, _, _, h⟩
    · exact absurd hnil hn
    · exact .inr ⟨word, tokens', isWord_of_isLiteral hword (by decide), rfl,
        hfail.block hs hl.tail hp.tail hn⟩
    · exact (failsAll_nil h).elim

/-- After a condition the block is open, or something comes after the block. -/
theorem open_condition {elements : List Element} (h : FailsAll full.grammar Understood Wanting
    (.tree exprId :: .tree blockId :: elements) tokens [] cause) (hs : cause ≠ .shape)
    (hl : LineEnded tokens)
    (hp : AllPlain tokens) (hn : tokens ≠ []) :
    (∃ t condition tokens', tokens = t ++ tokens' ∧ Expr t condition ∧
      Closable (Block Compound) tokens') ∨
    ∃ t condition t' body tokens', tokens = t ++ (t' ++ tokens') ∧ Expr t condition ∧
      Block Compound t' body ∧ tokens' ≠ [] ∧
      FailsAll full.grammar Understood Wanting elements tokens' [] cause := by
  rcases failsAll_tree h with hnil | hfail | ⟨condition, tokens₁, hcondition, h₁⟩
  · exact absurd hnil hn
  · exact absurd (hfail.eq_nil rfl hs hl) hn
  have hl₁ := hl.suffix hcondition.suffix
  have hp₁ := hp.suffix hcondition.suffix
  have hn₁ := hcondition.ne_nil rfl hl hn
  obtain ⟨⟨t, rfl, hexpr⟩, -⟩ := hcondition.meaning hp
  rcases failsAll_tree h₁ with hnil | hfail | ⟨body, tokens₂, hbody, h₂⟩
  · exact absurd hnil hn₁
  · exact .inl ⟨t, condition, tokens₁, rfl, hexpr, hfail.block hs hl₁ hp₁ hn₁⟩
  · have htakes : Takes (Block Compound) tokens₁ body tokens₂ := hbody.meaning hp₁
    have hn₂ := ne_nil_of_takes (fun _ _ => Block.last) htakes hl₁
    obtain ⟨t', rfl, hblock⟩ := htakes
    exact .inr ⟨t, condition, t', body, tokens₂, rfl, hexpr, hblock, hn₂, h₂⟩

/-- The condition does not want for a token, since it stays on its line. A block does, or the one
after `else`. -/
theorem open_if (h : FailsAll full.grammar Understood Wanting
    [.literal ["if"] false, .tree exprId, .tree blockId, .repeated elseId .atMostOnce]
      tokens [] cause)
    (hs : cause ≠ .shape) (hl : LineEnded tokens) (hp : AllPlain tokens) :
    tokens = [] ∨ Closable Compound tokens := by
  rcases failsAll_dropped h with rfl | ⟨word, tokens', rfl, hword, h'⟩
  · exact .inl rfl
  have hn := ne_nil_of_isLiteral hword (by decide) hl
  have hif := isWord_of_isLiteral hword (by decide)
  rcases open_condition h' hs hl.tail hp.tail hn with ⟨t, condition, tokens₁, rfl, hexpr, k, hk⟩ |
    ⟨t, condition, t', body, tokens₁, rfl, hexpr, hblock, hn₁, h₁⟩
  · refine .inr ⟨k, fun number => ?_⟩
    obtain ⟨body, hbody⟩ := hk number
    exact ⟨_, by simpa using Compound.conditional hif hexpr hbody⟩
  have hl₁ : LineEnded tokens₁ := hl.tail.of_append.of_append
  have hp₁ : AllPlain tokens₁ :=
    hp.tail.suffix ((List.suffix_append t' tokens₁).trans (List.suffix_append t _))
  rcases failsAll_once h₁ with hnil | hfail | h₂ | ⟨_, _, _, h₂⟩
  · exact absurd hnil hn₁
  · obtain ⟨word', tokens₂, helse, rfl, k, hk⟩ := (hfail.open hs hl₁ hp₁).resolve_left hn₁
    refine .inr ⟨k, fun number => ?_⟩
    obtain ⟨body', hbody'⟩ := hk number
    exact ⟨_, by simpa using Compound.alternative hif hexpr hblock helse hbody'⟩
  · exact (failsAll_nil h₂).elim
  · exact (failsAll_nil h₂).elim

/-- The condition does not want for a token, so the block does. -/
theorem open_while (h : FailsAll full.grammar Understood Wanting
    [.literal ["while"] false, .tree exprId, .tree blockId] tokens [] cause)
    (hs : cause ≠ .shape) (hl : LineEnded tokens) (hp : AllPlain tokens) :
    tokens = [] ∨ Closable Compound tokens := by
  rcases failsAll_dropped h with rfl | ⟨word, tokens', rfl, hword, h'⟩
  · exact .inl rfl
  have hn := ne_nil_of_isLiteral hword (by decide) hl
  rcases open_condition h' hs hl.tail hp.tail hn with ⟨t, condition, tokens₁, rfl, hexpr, k, hk⟩ |
    ⟨_, _, _, _, _, _, _, _, _, h₁⟩
  · refine .inr ⟨k, fun number => ?_⟩
    obtain ⟨body, hbody⟩ := hk number
    exact ⟨_, by simpa using Compound.loop (isWord_of_isLiteral hword (by decide)) hexpr hbody⟩
  · exact (failsAll_nil h₁).elim

/-- Name and parameters do not want for a token, so the block does. -/
theorem open_def (h : FailsAll full.grammar Understood Wanting
    [.literal ["def"] false, .token .name (.leaf .plain), .tree paramListId, .tree blockId]
      tokens [] cause)
    (hs : cause ≠ .shape) (hl : LineEnded tokens) (hp : AllPlain tokens) :
    tokens = [] ∨ Closable Compound tokens := by
  rcases failsAll_dropped h with rfl | ⟨word, tokens₁, rfl, hword, h₁⟩
  · exact .inl rfl
  have hn₁ := ne_nil_of_isLiteral hword (by decide) hl
  rcases failsAll_token h₁ with hnil | ⟨name, tokens₂, rfl, hname, h₂⟩
  · exact absurd hnil hn₁
  have hn₂ := hl.tail.tail_ne_nil (isEndOfLine_of_accepts hname)
  rcases failsAll_tree h₂ with hnil | hfail | ⟨parameters, tokens₃, hparameters, h₃⟩
  · exact absurd hnil hn₂
  · exact absurd (hfail.eq_nil rfl hs hl.tail.tail) hn₂
  have hl₃ := hl.tail.tail.suffix hparameters.suffix
  have hp₃ := hp.tail.tail.suffix hparameters.suffix
  have hn₃ := hparameters.ne_nil rfl hl.tail.tail hn₂
  obtain ⟨first, _, hfirst, rfl, last, hlast, t, rfl, hp'⟩ := hparameters.meaning hp.tail.tail
  rcases failsAll_tree h₃ with hnil | hfail | ⟨_, _, _, h₄⟩
  · exact absurd hnil hn₃
  · obtain ⟨k, hk⟩ := hfail.block hs hl₃ hp₃ hn₃
    refine .inr ⟨k, fun number => ?_⟩
    obtain ⟨body, hbody⟩ := hk number
    have hdef := isWord_of_isLiteral hword (by decide)
    have hname := accepts_name_iff.1 hname
    exact ⟨_, by simpa using Compound.definition hdef hname hfirst hp' hlast hbody⟩
  · exact (failsAll_nil h₄).elim

/-! ## Statements -/

/-- A rule that only chooses wants for a token where one of its choices does. -/
theorem open_choice {rules : List RuleId} {P : Prop}
    (h : FailsAll full.grammar Understood Wanting [.choice rules] tokens [] cause)
    (hp : ∀ rule ∈ rules, Wanting rule tokens [] cause → tokens = [] ∨ P) : tokens = [] ∨ P := by
  rcases failsAll_choice h with hnil | ⟨rule, hmem, hfail | ⟨_, _, _, h⟩⟩
  · exact .inl hnil
  · exact hp rule hmem hfail
  · exact (failsAll_nil h).elim

theorem open_compound (h : FailsAll full.grammar Understood Wanting
    [.choice [defId, ifId, whileId]] tokens [] cause) (hs : cause ≠ .shape) (hl : LineEnded tokens)
    (hp : AllPlain tokens) : tokens = [] ∨ Closable Compound tokens := by
  refine open_choice h fun rule hmem hfail => ?_
  simp only [List.mem_cons, List.not_mem_nil, or_false] at hmem
  rcases hmem with rfl | rfl | rfl
  · exact hfail.open hs hl hp
  · exact hfail.open hs hl hp
  · exact hfail.open hs hl hp

theorem open_compoundStatement (h : FailsAll full.grammar Understood Wanting
    [.tree compoundId, .repeated separatorId .atMostOnce] tokens [] cause) (hs : cause ≠ .shape)
    (hl : LineEnded tokens) (hp : AllPlain tokens) : tokens = [] ∨ Closable Compound tokens := by
  rcases failsAll_tree h with hnil | hfail | ⟨tree, tokens', hcompound, h'⟩
  · exact .inl hnil
  · exact hfail.open hs hl hp
  have hn : tokens' ≠ [] := by
    have hmeaning : CompoundSeen tokens tree tokens' := hcompound.meaning hp
    exact ne_nil_of_takes (fun _ _ => Compound.last) hmeaning.1 hl
  rcases failsAll_once h' with hnil | hfail | h'' | ⟨_, _, _, h''⟩
  · exact absurd hnil hn
  · rcases hfail.open hs (hl.suffix hcompound.suffix) (hp.suffix hcompound.suffix) with hnil | hopen
    · exact absurd hnil hn
    · exact hopen.elim
  · exact (failsAll_nil h'').elim
  · exact (failsAll_nil h'').elim

theorem open_blockStatement (h : FailsAll full.grammar Understood Wanting
    [.choice [compoundId, blockSimpleId, separatorId]] tokens [] cause) (hs : cause ≠ .shape)
    (hl : LineEnded tokens)
    (hp : AllPlain tokens) : tokens = [] ∨ Closable Compound tokens := by
  refine open_choice h fun rule hmem hfail => ?_
  simp only [List.mem_cons, List.not_mem_nil, or_false] at hmem
  rcases hmem with rfl | rfl | rfl
  · exact hfail.open hs hl hp
  · exact (hfail.open hs hl hp).imp_right False.elim
  · exact (hfail.open hs hl hp).imp_right False.elim

/-- Of the statements at the top only a compound one can be open. -/
theorem open_program (h : FailsAll full.grammar Understood Wanting
    [.choice [compoundStatementId, simpleStatementId, nullStatementId]] tokens [] cause)
    (hs : cause ≠ .shape) (hl : LineEnded tokens)
    (hp : AllPlain tokens) : tokens = [] ∨ Closable Compound tokens := by
  refine open_choice h fun rule hmem hfail => ?_
  simp only [List.mem_cons, List.not_mem_nil, or_false] at hmem
  rcases hmem with rfl | rfl | rfl
  · exact hfail.open hs hl hp
  · exact (hfail.open hs hl hp).imp_right False.elim
  · exact (hfail.open hs hl hp).imp_right False.elim

/-- After an expression there is a token to look at. -/
theorem eq_nil_of_simple {elements : List Element}
    (h : FailsAll full.grammar Understood Wanting (.tree simpleId :: elements) tokens [] cause)
    (hs : cause ≠ .shape) (hl : LineEnded tokens)
    (hrest : ∀ tokens', tokens' <:+ tokens →
      FailsAll full.grammar Understood Wanting elements tokens' [] cause → tokens' = []) :
    tokens = [] := by
  rcases failsAll_tree h with hnil | hfail | ⟨tree, tokens', hexpr, h'⟩
  · exact hnil
  · exact hfail.eq_nil rfl hs hl
  · obtain rfl := hrest tokens' hexpr.suffix h'
    exact (hexpr.2 rfl).eq_nil hl

theorem eq_nil_of_dropped {F : Failure} {texts : List String}
    (h : FailsAll full.grammar Understood F [.literal texts false] tokens [] cause) :
    tokens = [] := by
  rcases failsAll_dropped h with hnil | ⟨_, _, _, _, h⟩
  · exact hnil
  · exact (failsAll_nil h).elim

theorem eq_nil_of_ahead {F : Failure} {texts : List String}
    (h : FailsAll full.grammar Understood F [.ahead texts] tokens [] cause) :
    tokens = [] := by
  rcases failsAll_ahead h with hnil | h
  · exact hnil
  · exact (failsAll_nil h).elim

/-- A simple statement does not want for a token, since it stays on its line. -/
theorem eq_nil_of_blockSimple (h : FailsAll full.grammar Understood Wanting
    [.tree simpleId, .choice [separatorId, blockEndId]] tokens [] cause) (hs : cause ≠ .shape)
    (hl : LineEnded tokens)
    (hp : AllPlain tokens) : tokens = [] := by
  refine eq_nil_of_simple h hs hl fun tokens' hsuffix h' => ?_
  refine (open_choice h' fun rule hmem hfail => ?_).resolve_right id
  simp only [List.mem_cons, List.not_mem_nil, or_false] at hmem
  rcases hmem with rfl | rfl
  · exact hfail.open hs (hl.suffix hsuffix) (hp.suffix hsuffix)
  · exact hfail.open hs (hl.suffix hsuffix) (hp.suffix hsuffix)

theorem eq_nil_of_simpleStatement (h : FailsAll full.grammar Understood Wanting
    [.tree simpleId, .literal separators false] tokens [] cause) (hs : cause ≠ .shape)
    (hl : LineEnded tokens) : tokens = [] :=
  eq_nil_of_simple h hs hl fun _ _ h' => eq_nil_of_dropped h'

end Rules

/-! ## All rules -/

/-- A rule that wants for a token has read none, or is open. -/
theorem failureClosed_wanting : FailureClosed full.grammar Understood Wanting := by
  refine ⟨?_, fun _ _ _ _ _ hs => absurd rfl hs⟩
  intro id tokens rest cause h hs
  refine ⟨h.suffix trims_understood stopsWithin_wanting hs, ?_⟩
  rintro rfl hl
  have hinline : inline id = true → tokens = [] := fun hi =>
    h.eq_nil inlineSuccess_understood inlineFailure_wanting rfl (inlineRules_full id hi) hs hl
  refine ⟨hinline, fun hp => ?_⟩
  match id with
  | compoundId => exact open_compound h hs hl hp
  | separatorId => exact .inl (eq_nil_of_dropped h)
  | blockEndId => exact .inl (eq_nil_of_ahead h)
  | blockSimpleId => exact .inl (eq_nil_of_blockSimple h hs hl hp)
  | blockStatementId => exact open_blockStatement h hs hl hp
  | blockId => exact open_block h hs hl hp
  | elseId => exact open_else h hs hl hp
  | ifId => exact open_if h hs hl hp
  | whileId => exact open_while h hs hl hp
  | compoundStatementId => exact open_compoundStatement h hs hl hp
  | simpleStatementId => exact .inl (eq_nil_of_simpleStatement h hs hl)
  | nullStatementId => exact .inl (eq_nil_of_dropped h)
  | programId => exact open_program h hs hl hp
  | defId => exact open_def h hs hl hp
  | id + 30 => exact (failsAll_nil h).elim
  | exprId | parenId | numberId | nameId | stringId | primaryId | negativeId | factorId
  | simpleId | paramId | paramTailId | paramsId | paramListId | argTailId | argsId | callId =>
      exact .inl (hinline rfl)

end Language

end TreeScript
