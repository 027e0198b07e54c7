import TreeScript.Proofs.Language.Meaning

/-!
# What the rules read is derived

`Meaning` is closed: whatever the rules of the full language read on plain tokens has a
derivation, and what was looked at after it is as the meaning says (`closedOn_meaning`). There
is one lemma for each rule, and one for each kind of repetition.
-/

namespace TreeScript

namespace Language

open Grammar TreeScript.Derivation

variable {tokens rest : List Token} {trees : List Tree} {tree : Tree}

/-! ## Repetitions -/

/-- Whatever a rule means, a repetition of it is a repetition of its line. -/
theorem many_of_repeats {rule : RuleId} {line : List Token → Tree → Prop}
    (h : Repeats full.grammar Meaning rule tokens trees rest) (hline : Solid line)
    (hm : ∀ tokens tree rest, Meaning rule tokens tree rest → Takes line tokens tree rest) :
    ∃ t, tokens = t ++ rest ∧ Many line t trees := by
  induction h with
  | done => exact ⟨[], rfl, .nil⟩
  | more _ hr _ ih =>
      obtain ⟨t, rfl, hl⟩ := hm _ _ _ hr
      obtain ⟨t', rfl, hmany⟩ := ih
      refine ⟨t ++ t', by simp, ?_⟩
      rw [unlessEmpty_of_not_isEmptyList (hline _ _ hl)]
      exact .cons hl hmany

/-- A line and a repetition of it with commas before it. What was seen after the last one is
seen at the end. -/
theorem listed_of_repeats {rule : RuleId} {line : List Token → Tree → Prop}
    (h : Repeats full.grammar Meaning rule tokens trees rest) (hline : Solid line)
    (Seen : List Token → Prop)
    (hm : ∀ tokens tree rest, Meaning rule tokens tree rest →
      After "," (fun tokens tree rest => Takes line tokens tree rest ∧ Seen rest)
        tokens tree rest) :
    ∀ {t : List Token} {tree : Tree}, line t tree → Seen tokens →
      ∃ t', t ++ tokens = t' ++ rest ∧ Listed line t' (tree :: trees) ∧ Seen rest := by
  induction h with
  | done =>
      intro t tree hl hseen
      exact ⟨t, rfl, .single hl, hseen⟩
  | more _ hr _ ih =>
      intro t tree hl _
      obtain ⟨comma, tokens', hcomma, rfl, ⟨t', rfl, hl'⟩, hseen⟩ := hm _ _ _ hr
      obtain ⟨t'', ht, hlisted, hseen'⟩ := ih hl' hseen
      refine ⟨t ++ comma :: t'', by simp [ht], ?_, hseen'⟩
      rw [unlessEmpty_of_not_isEmptyList (hline _ _ hl')]
      exact .cons hl hcomma hlisted

/-- Links of factors are operations. -/
theorem operations_of_chains {links : List Link}
    (h : Chains Meaning factorId operators (fun _ => true) tokens links rest)
    (hcall : NoCall tokens) :
    ∃ t, tokens = t ++ rest ∧ Operations Factor t links ∧ NoCall rest := by
  induction h with
  | done => exact ⟨[], rfl, .nil, hcall⟩
  | more ho _ hr _ ih =>
      obtain ⟨⟨t, rfl, hf⟩, hcall'⟩ := hr
      obtain ⟨t', rfl, hops, hcall''⟩ := ih hcall'
      obtain ⟨text, hword, hget⟩ := isWord_of_ofToken? ho
      exact ⟨_ :: (t ++ t'), by simp, .cons hword hget hf hops, hcall''⟩

/-- Statements of a block. -/
theorem items_of_repeats (h : Repeats full.grammar Meaning blockStatementId tokens trees rest) :
    ∃ t, tokens = t ++ rest ∧ Items Compound t trees := by
  induction h with
  | done => exact ⟨[], rfl, .nil⟩
  | more _ hr hmore ih =>
      obtain ⟨t', ht, hitems⟩ := ih
      rcases hr with ⟨⟨t, rfl, hc⟩, -⟩ | ⟨separator, hs, ⟨t, rfl, he⟩, -⟩ |
        ⟨⟨⟨t, rfl, he⟩, -⟩, hlast⟩ |
        ⟨rfl, separator, hs, rfl⟩
      · refine ⟨t ++ t', by simp [ht], ?_⟩
        rw [unlessEmpty_of_not_isEmptyList (solid_compound _ _ hc)]
        exact .compound hc hitems
      · refine ⟨t ++ separator :: t', by simp [ht], ?_⟩
        rw [unlessEmpty_of_not_isEmptyList (solid_expr _ _ he)]
        exact .simple he hs hitems
      · rw [unlessEmpty_of_not_isEmptyList (solid_expr _ _ he)]
        have hstop := startsAt_blockStatement_brace (isWord_of_isLiteral hlast (by decide))
        cases hmore with
        | done => exact ⟨t, rfl, .last he⟩
        | more hs _ _ => simp [hstop] at hs
      · exact ⟨separator :: t', by simp [ht], .separator hs hitems⟩

/-! ## Expressions -/

/-- The operand and the operators after it are an expression, and the tree is the way to split them.
-/
theorem meaning_expr (h : ReadsAll full.grammar Meaning
    [.expression factorId operators (.branch .binary)] tokens trees rest) :
    Meaning exprId tokens (.group .list trees) rest := by
  simp only [readsAll_expression, readsAll_nil] at h
  obtain ⟨operand, links, _, tokens', _, rfl, ⟨⟨t, rfl, hf⟩, hcall⟩, hchain, rfl, rfl⟩ := h
  obtain ⟨t', rfl, hops, hcall'⟩ := operations_of_chains hchain hcall
  have hsplits := splits_climb .binary operand links (consistent_operators.links hops.ofToken?_eq)
  refine ⟨⟨t ++ t', by simp, .chain hf hops hsplits⟩, hcall', ?_⟩
  refine Option.eq_none_iff_forall_ne_some.2 fun precedence hnext => ?_
  cases hchain.stop precedence hnext

theorem meaning_paren (h : ReadsAll full.grammar Meaning
    [.literal ["("] false, .tree exprId, .literal [")"] false] tokens trees rest) :
    Meaning parenId tokens (.group .list trees) rest := by
  simp only [readsAll_dropped, readsAll_tree, readsAll_nil] at h
  obtain ⟨first, _, rfl, hfirst, tree, _, _, rfl, ⟨⟨t, rfl, he⟩, -⟩,
    last, _, rfl, hlast, rfl, rfl⟩ := h
  exact ⟨⟨first :: (t ++ [last]), by simp, .paren (isWord_of_isLiteral hfirst (by decide)) he
    (isWord_of_isLiteral hlast (by decide))⟩, hfirst⟩

theorem meaning_number (h : ReadsAll full.grammar Meaning
    [.token .number (.leaf .number)] tokens trees rest) :
    Meaning numberId tokens (.group .list trees) rest := by
  simp only [readsAll_token, readsAll_nil] at h
  obtain ⟨token, _, _, rfl, rfl, haccepts, rfl, rfl⟩ := h
  exact ⟨⟨[token], rfl, .number haccepts⟩, haccepts⟩

theorem meaning_name (h : ReadsAll full.grammar Meaning
    [.token .name (.leaf .variable)] tokens trees rest) :
    Meaning nameId tokens (.group .list trees) rest := by
  simp only [readsAll_token, readsAll_nil] at h
  obtain ⟨token, _, _, rfl, rfl, haccepts, rfl, rfl⟩ := h
  exact ⟨⟨[token], rfl, .name (accepts_name_iff.1 haccepts)⟩, accepts_name_iff.1 haccepts⟩

theorem meaning_string (h : ReadsAll full.grammar Meaning
    [.token .string (.leaf .string)] tokens trees rest) :
    Meaning stringId tokens (.group .list trees) rest := by
  simp only [readsAll_token, readsAll_nil] at h
  obtain ⟨token, _, _, rfl, rfl, haccepts, rfl, rfl⟩ := h
  exact ⟨⟨[token], rfl, .string haccepts⟩, haccepts⟩

/-- An atom and the calls after it are an operand, up to a token that is no parenthesis. -/
theorem meaning_primary (h : ReadsAll full.grammar Meaning
    [.choice [parenId, numberId, nameId, stringId], .repeated callId .any] tokens trees rest) :
    Meaning primaryId tokens (.group .primary trees) rest := by
  simp only [readsAll_choice, readsAll_many, readsAll_nil] at h
  obtain ⟨rule, tree, _, tokens', rfl, hchoose, hr, calls, _, _, rfl, hmany, rfl, rfl⟩ := h
  have hatom : Takes Atom tokens tree tokens' := by
    have hmem := mem_of_firstAt hchoose
    simp only [List.mem_cons, List.not_mem_nil, or_false] at hmem
    rcases hmem with rfl | rfl | rfl | rfl
    · exact hr.1
    · exact hr.1
    · exact hr.1
    · exact hr.1
  obtain ⟨t, rfl, ha⟩ := hatom
  have hstop := hmany.stop
  rw [startsAt_call, Option.some.injEq] at hstop
  obtain ⟨t', rfl, hcalls⟩ := many_of_repeats hmany solid_call fun _ _ _ hr => hr
  refine ⟨⟨t ++ t', by simp, ?_⟩, hstop⟩
  rw [unlessEmpty_of_not_isEmptyList (solid_atom _ _ ha), List.append_nil]
  cases calls with
  | nil =>
      cases hcalls
      rw [List.append_nil]
      exact .plain ha
  | cons call calls => exact .called ha hcalls (by simp)

theorem meaning_negative (h : ReadsAll full.grammar Meaning
    [.literal ["-"] false, .tree primaryId] tokens trees rest) :
    Meaning negativeId tokens (.group .negative trees) rest := by
  simp only [readsAll_dropped, readsAll_tree, readsAll_nil] at h
  obtain ⟨minus, _, rfl, hminus, tree, _, _, rfl, ⟨⟨t, rfl, hp⟩, hcall⟩, rfl, rfl⟩ := h
  exact ⟨⟨⟨minus :: t, rfl, .negative (isWord_of_isLiteral hminus (by decide)) hp⟩, hcall⟩, hminus⟩

/-- Either of the rules that is chosen reads a factor. -/
theorem meaning_factor
    (h : ReadsAll full.grammar Meaning [.choice [negativeId, primaryId]] tokens trees rest) :
    Meaning factorId tokens (.group .list trees) rest := by
  simp only [readsAll_choice, readsAll_nil] at h
  obtain ⟨rule, tree, _, _, rfl, hchoose, hr, rfl, rfl⟩ := h
  rw [List.append_nil, group_unlessEmpty]
  have hmem := mem_of_firstAt hchoose
  simp only [List.mem_cons, List.not_mem_nil, or_false] at hmem
  rcases hmem with rfl | rfl
  · exact hr.1
  · obtain ⟨⟨t, rfl, hp⟩, hcall⟩ := hr
    exact ⟨⟨t, rfl, .primary hp⟩, hcall⟩

theorem meaning_argTail (h : ReadsAll full.grammar Meaning
    [.literal [","] false, .tree exprId] tokens trees rest) :
    Meaning argTailId tokens (.group .list trees) rest := by
  simp only [readsAll_dropped, readsAll_tree, readsAll_nil] at h
  obtain ⟨comma, tokens', rfl, hcomma, tree, _, _, rfl, he, rfl, rfl⟩ := h
  exact ⟨comma, tokens', isWord_of_isLiteral hcomma (by decide), rfl, he⟩

/-- Expressions with commas between them are arguments. -/
theorem meaning_args (h : ReadsAll full.grammar Meaning
    [.tree exprId, .repeated argTailId .any] tokens trees rest) :
    Meaning argsId tokens (.group .arguments trees) rest := by
  simp only [readsAll_tree, readsAll_many, readsAll_nil] at h
  obtain ⟨tree, _, _, rfl, ⟨⟨t, rfl, he⟩, hseen⟩, found, _, _, rfl, hmany, rfl, rfl⟩ := h
  have hstop := hmany.stop
  rw [startsAt_argTail, Option.some.injEq] at hstop
  obtain ⟨t', ht, hlisted, hseen'⟩ := listed_of_repeats hmany solid_expr
    (fun rest => NoCall rest ∧ NoOperator rest) (fun _ _ _ hr => hr) he hseen
  rw [List.append_nil]
  exact ⟨_, rfl, ⟨t', ht, hlisted⟩, hseen', hstop⟩

/-- Between the parentheses there are arguments or nothing. -/
theorem meaning_call (h : ReadsAll full.grammar Meaning
    [.literal ["("] false, .orEmpty argsId, .literal [")"] false] tokens trees rest) :
    Meaning callId tokens (.group .list trees) rest := by
  simp only [readsAll_dropped, readsAll_orEmpty, readsAll_nil] at h
  obtain ⟨first, _, rfl, hfirst, ⟨kind, _, rfl, -, hkind, last, _, rfl, hlast, rfl, rfl⟩ |
    ⟨tree, _, _, rfl, -, ⟨trees, rfl, ⟨t, rfl, hargs⟩, -⟩, last, _, rfl, hlast, rfl, rfl⟩⟩ := h
  · cases hkind
    exact ⟨[first, last], rfl, .empty (isWord_of_isLiteral hfirst (by decide))
      (isWord_of_isLiteral hlast (by decide))⟩
  · exact ⟨first :: (t ++ [last]), by simp, .args (isWord_of_isLiteral hfirst (by decide)) hargs
      (isWord_of_isLiteral hlast (by decide))⟩

/-! ## Parameters -/

theorem meaning_param (h : ReadsAll full.grammar Meaning
    [.token .name (.leaf .plain)] tokens trees rest) :
    Meaning paramId tokens (.group .list trees) rest := by
  simp only [readsAll_token, readsAll_nil] at h
  obtain ⟨token, _, _, rfl, rfl, haccepts, rfl, rfl⟩ := h
  exact ⟨[token], rfl, .name (accepts_name_iff.1 haccepts)⟩

theorem meaning_paramTail (h : ReadsAll full.grammar Meaning
    [.literal [","] false, .tree paramId] tokens trees rest) :
    Meaning paramTailId tokens (.group .list trees) rest := by
  simp only [readsAll_dropped, readsAll_tree, readsAll_nil] at h
  obtain ⟨comma, tokens', rfl, hcomma, tree, _, _, rfl, hp, rfl, rfl⟩ := h
  exact ⟨comma, tokens', isWord_of_isLiteral hcomma (by decide), rfl, hp⟩

/-- Names with commas between them are parameters. -/
theorem meaning_params (h : ReadsAll full.grammar Meaning
    [.tree paramId, .repeated paramTailId .any] tokens trees rest) :
    Meaning paramsId tokens (.group .parameters trees) rest := by
  simp only [readsAll_tree, readsAll_many, readsAll_nil] at h
  obtain ⟨tree, _, _, rfl, ⟨t, rfl, hp⟩, found, _, _, rfl, hmany, rfl, rfl⟩ := h
  have hstop := hmany.stop
  rw [startsAt_paramTail, Option.some.injEq] at hstop
  obtain ⟨t', ht, hlisted, -⟩ := listed_of_repeats hmany solid_parameter (fun _ => True)
    (fun _ _ _ ⟨comma, tokens', hcomma, htokens, hp⟩ =>
      ⟨comma, tokens', hcomma, htokens, hp, trivial⟩)
    hp trivial
  rw [List.append_nil]
  exact ⟨_, rfl, ⟨t', ht, hlisted⟩, hstop⟩

theorem meaning_paramList (h : ReadsAll full.grammar Meaning
    [.literal ["("] false, .orEmpty paramsId, .literal [")"] false] tokens trees rest) :
    Meaning paramListId tokens (.group .list trees) rest := by
  simp only [readsAll_dropped, readsAll_orEmpty, readsAll_nil] at h
  obtain ⟨first, _, rfl, hfirst, ⟨kind, _, rfl, -, hkind, last, _, rfl, hlast, rfl, rfl⟩ |
    ⟨tree, _, _, rfl, -, ⟨trees, rfl, ⟨t, rfl, hparams⟩, -⟩, last, _, rfl, hlast, rfl, rfl⟩⟩ := h
  · cases hkind
    exact ⟨first, _, isWord_of_isLiteral hfirst (by decide), rfl, last,
      isWord_of_isLiteral hlast (by decide), [], rfl, .empty⟩
  · exact ⟨first, _, isWord_of_isLiteral hfirst (by decide), rfl, last,
      isWord_of_isLiteral hlast (by decide), t, rfl, .params hparams⟩

/-! ## Statements -/

theorem meaning_simple (h : ReadsAll full.grammar Meaning [.tree exprId] tokens trees rest) :
    Meaning simpleId tokens (.group .list trees) rest := by
  simp only [readsAll_tree, readsAll_nil] at h
  obtain ⟨tree, _, _, rfl, he, rfl, rfl⟩ := h
  exact he

/-- A rule that is one separator gives an empty tree. -/
theorem separatorAlone_of_reads (hp : ∀ token ∈ tokens, token.Plain)
    (h : ReadsAll full.grammar Meaning [separatorSep] tokens trees rest) :
    trees = [] ∧ ∃ separator, Separator separator ∧ tokens = separator :: rest := by
  simp only [separatorSep, readsAll_dropped, readsAll_nil] at h
  obtain ⟨separator, _, rfl, hs, rfl, rfl⟩ := h
  exact ⟨rfl, separator, separator_of_isLiteral (hp _ List.mem_cons_self) hs, rfl⟩

/-- An expression and a separator, or one before the closing brace. -/
theorem meaning_blockSimple (h : ReadsAll full.grammar Meaning
    [.tree simpleId, .choice [separatorId, blockEndId]] tokens trees rest) :
    Meaning blockSimpleId tokens (.group .list trees) rest := by
  simp only [readsAll_tree, readsAll_choice, readsAll_nil] at h
  obtain ⟨tree, _, _, rfl, he, rule, _, _, _, rfl, hchoose, hr, rfl, rfl⟩ := h
  have hmem := mem_of_firstAt hchoose
  simp only [List.mem_cons, List.not_mem_nil, or_false] at hmem
  rcases hmem with rfl | rfl
  · obtain ⟨rfl, separator, hs, rfl⟩ := hr
    exact .inl ⟨separator, hs, he⟩
  · obtain ⟨rfl, rfl, hbrace⟩ := hr
    exact .inr ⟨he, hbrace⟩

/-- Each rule that may be chosen reads a statement of a block. -/
theorem meaning_blockStatement (h : ReadsAll full.grammar Meaning
    [.choice [compoundId, blockSimpleId, separatorId]] tokens trees rest) :
    Meaning blockStatementId tokens (.group .list trees) rest := by
  simp only [readsAll_choice, readsAll_nil] at h
  obtain ⟨rule, tree, _, _, rfl, hchoose, hr, rfl, rfl⟩ := h
  rw [List.append_nil, group_unlessEmpty]
  have hmem := mem_of_firstAt hchoose
  simp only [List.mem_cons, List.not_mem_nil, or_false] at hmem
  rcases hmem with rfl | rfl | rfl
  · exact .inl hr
  · rcases hr with hr | hr
    · exact .inr (.inl hr)
    · exact .inr (.inr (.inl hr))
  · exact .inr (.inr (.inr hr))

/-- The statements that the repetition reads are those of the block. -/
theorem meaning_block (h : ReadsAll full.grammar Meaning
    [.literal ["\x7b"] false, .repeated blockStatementId .any, .literal ["\x7d"] false]
      tokens trees rest) :
    Meaning blockId tokens (.group .block trees) rest := by
  simp only [readsAll_dropped, readsAll_many, readsAll_nil] at h
  obtain ⟨first, _, rfl, hfirst, found, _, _, rfl, hmany, last, _, rfl, hlast, rfl, rfl⟩ := h
  obtain ⟨t, rfl, hitems⟩ := items_of_repeats hmany
  rw [List.append_nil]
  exact ⟨first :: (t ++ [last]), by simp, .items (isWord_of_isLiteral hfirst (by decide)) hitems
    (isWord_of_isLiteral hlast (by decide))⟩

theorem meaning_else (h : ReadsAll full.grammar Meaning
    [.literal ["else"] false, .tree blockId] tokens trees rest) :
    Meaning elseId tokens (.group .list trees) rest := by
  simp only [readsAll_dropped, readsAll_tree, readsAll_nil] at h
  obtain ⟨word, tokens', rfl, hword, tree, _, _, rfl, hb, rfl, rfl⟩ := h
  exact ⟨word, tokens', isWord_of_isLiteral hword (by decide), rfl, hb⟩

/-- A condition and a block, and another block where `else` comes next. -/
theorem meaning_if (h : ReadsAll full.grammar Meaning
    [.literal ["if"] false, .tree exprId, .tree blockId, .repeated elseId .atMostOnce]
      tokens trees rest) :
    Meaning ifId tokens (.group .conditional trees) rest := by
  simp only [readsAll_dropped, readsAll_tree, readsAll_once, readsAll_nil] at h
  obtain ⟨word, _, rfl, hword, condition, _, _, rfl, ⟨⟨t, rfl, he⟩, -⟩, body, _, _, rfl,
    ⟨t', rfl, hb⟩, ⟨hno, rfl, rfl⟩ | ⟨body', _, _, rfl, -, ⟨word', _, hword', rfl, t'', rfl, hb'⟩,
    rfl, rfl⟩⟩ := h
  · rw [startsAt_else, Option.some.injEq] at hno
    refine ⟨⟨⟨word :: (t ++ t'), by simp, ?_⟩, fun _ _ _ => hno⟩, hword⟩
    exact .conditional (isWord_of_isLiteral hword (by decide)) he hb
  · rw [unlessEmpty_of_not_isEmptyList (by cases hb'; rfl)]
    refine ⟨⟨⟨word :: (t ++ (t' ++ word' :: t'')), by simp, ?_⟩, fun _ _ hn => by cases hn⟩, hword⟩
    exact .alternative (isWord_of_isLiteral hword (by decide)) he hb hword' hb'

theorem meaning_while (h : ReadsAll full.grammar Meaning
    [.literal ["while"] false, .tree exprId, .tree blockId] tokens trees rest) :
    Meaning whileId tokens (.group .loop trees) rest := by
  simp only [readsAll_dropped, readsAll_tree, readsAll_nil] at h
  obtain ⟨word, _, rfl, hword, condition, _, _, rfl, ⟨⟨t, rfl, he⟩, -⟩, body, _, _, rfl,
    ⟨t', rfl, hb⟩, rfl, rfl⟩ := h
  refine ⟨⟨⟨word :: (t ++ t'), by simp, ?_⟩, fun _ _ hn => by cases hn⟩, hword⟩
  exact .loop (isWord_of_isLiteral hword (by decide)) he hb

theorem meaning_def (h : ReadsAll full.grammar Meaning
    [.literal ["def"] false, .token .name (.leaf .plain), .tree paramListId, .tree blockId]
      tokens trees rest) :
    Meaning defId tokens (.group .definition trees) rest := by
  simp only [readsAll_dropped, readsAll_token, readsAll_tree, readsAll_nil] at h
  obtain ⟨word, _, rfl, hword, name, _, _, rfl, rfl, hname, parameters, _, _, rfl,
    ⟨first, _, hfirst, rfl, last, hlast, t, rfl, hp⟩, body, _, _, rfl, ⟨t', rfl, hb⟩, rfl, rfl⟩ := h
  refine ⟨⟨⟨word :: name :: first :: (t ++ last :: t'), by simp, ?_⟩, fun _ _ hn => by cases hn⟩,
    hword⟩
  exact .definition (isWord_of_isLiteral hword (by decide)) (accepts_name_iff.1 hname) hfirst hp
    hlast hb

/-- Each rule that may be chosen reads a compound statement. -/
theorem meaning_compound (h : ReadsAll full.grammar Meaning
    [.choice [defId, ifId, whileId]] tokens trees rest) :
    Meaning compoundId tokens (.group .list trees) rest := by
  simp only [readsAll_choice, readsAll_nil] at h
  obtain ⟨rule, tree, _, _, rfl, hchoose, hr, rfl, rfl⟩ := h
  rw [List.append_nil, group_unlessEmpty]
  have hmem := mem_of_firstAt hchoose
  simp only [List.mem_cons, List.not_mem_nil, or_false] at hmem
  rcases hmem with rfl | rfl | rfl
  · exact hr.1
  · exact hr.1
  · exact hr.1

/-- A compound statement and the separator after it, if there is one. -/
theorem meaning_compoundStatement (h : ReadsAll full.grammar Meaning
    [.tree compoundId, .repeated separatorId .atMostOnce] tokens trees rest) :
    Meaning compoundStatementId tokens (.group .list trees) rest := by
  simp only [readsAll_tree, readsAll_once, readsAll_nil] at h
  obtain ⟨tree, _, _, rfl, hc, ⟨hno, rfl, rfl⟩ |
    ⟨_, _, _, rfl, -, ⟨rfl, separator, hs, rfl⟩, rfl, rfl⟩⟩ := h
  · rw [startsAt_separator, Option.some.injEq] at hno
    exact .inl ⟨hc, hno⟩
  · exact .inr ⟨separator, hs, hc⟩

/-- An expression and the separator after it. -/
theorem meaning_simpleStatement (hp : ∀ token ∈ tokens, token.Plain)
    (h : ReadsAll full.grammar Meaning [.tree simpleId, separatorSep] tokens trees rest) :
    Meaning simpleStatementId tokens (.group .list trees) rest := by
  rw [readsAll_tree] at h
  obtain ⟨tree, _, tokens', rfl, he, h⟩ := h
  obtain ⟨rfl, separator, hs, rfl⟩ :=
    separatorAlone_of_reads (fun token ht => hp token (he.1.suffix.subset ht)) h
  exact ⟨separator, hs, he⟩

/-- Each rule that may be chosen reads a statement at the top. -/
theorem meaning_program (h : ReadsAll full.grammar Meaning
    [.choice [compoundStatementId, simpleStatementId, nullStatementId]] tokens trees rest) :
    Meaning programId tokens (.group .list trees) rest := by
  simp only [readsAll_choice, readsAll_nil] at h
  obtain ⟨rule, tree, _, _, rfl, hchoose, hr, rfl, rfl⟩ := h
  rw [List.append_nil, group_unlessEmpty]
  have hmem := mem_of_firstAt hchoose
  simp only [List.mem_cons, List.not_mem_nil, or_false] at hmem
  rcases hmem with rfl | rfl | rfl
  · exact .inl hr
  · exact .inr (.inl hr)
  · exact .inr (.inr hr)

/-! ## All rules -/

/-- The tokens are plain. -/
def AllPlain (tokens : List Token) : Prop := ∀ token ∈ tokens, token.Plain

theorem AllPlain.suffix {tokens rest : List Token} (hs : rest <:+ tokens) (h : AllPlain tokens) :
    AllPlain rest := fun token ht => h token (hs.subset ht)

/-- Whatever the rules read on plain tokens means what they mean. -/
theorem closedOn_meaning : ClosedOn full.grammar AllPlain Meaning := by
  intro id kind tokens trees rest hp hkind h
  match id with
  | exprId => cases hkind; exact meaning_expr h
  | compoundId => cases hkind; exact meaning_compound h
  | parenId => cases hkind; exact meaning_paren h
  | numberId => cases hkind; exact meaning_number h
  | nameId => cases hkind; exact meaning_name h
  | stringId => cases hkind; exact meaning_string h
  | primaryId => cases hkind; exact meaning_primary h
  | negativeId => cases hkind; exact meaning_negative h
  | factorId => cases hkind; exact meaning_factor h
  | simpleId => cases hkind; exact meaning_simple h
  | separatorId =>
      cases hkind
      obtain ⟨rfl, hs⟩ := separatorAlone_of_reads hp h
      exact ⟨rfl, hs⟩
  | blockEndId =>
      cases hkind
      obtain ⟨hbrace, rfl, rfl⟩ := (readsAll_ahead.1 h).imp_right readsAll_nil.1
      exact ⟨rfl, rfl, hbrace⟩
  | blockSimpleId => cases hkind; exact meaning_blockSimple h
  | blockStatementId => cases hkind; exact meaning_blockStatement h
  | blockId => cases hkind; exact meaning_block h
  | elseId => cases hkind; exact meaning_else h
  | ifId => cases hkind; exact meaning_if h
  | whileId => cases hkind; exact meaning_while h
  | compoundStatementId => cases hkind; exact meaning_compoundStatement h
  | simpleStatementId => cases hkind; exact meaning_simpleStatement hp h
  | nullStatementId =>
      cases hkind
      obtain ⟨rfl, hs⟩ := separatorAlone_of_reads hp h
      exact ⟨rfl, hs⟩
  | programId => cases hkind; exact meaning_program h
  | paramId => cases hkind; exact meaning_param h
  | paramTailId => cases hkind; exact meaning_paramTail h
  | paramsId => cases hkind; exact meaning_params h
  | paramListId => cases hkind; exact meaning_paramList h
  | defId => cases hkind; exact meaning_def h
  | argTailId => cases hkind; exact meaning_argTail h
  | argsId => cases hkind; exact meaning_args h
  | callId => cases hkind; exact meaning_call h
  | id + 30 =>
      cases hkind
      obtain ⟨rfl, rfl⟩ := readsAll_nil.1 h
      exact ⟨rfl, rfl⟩

end Language

end TreeScript
