import TreeScript.Proofs.Language.Meaning

/-!
# What is derived is read by the rules

`Meaning` is supported: whatever has a derivation is read by the elements of its rule, with
the choices that the parser makes (`supported_meaning`). A choice looks at one token, so each
case says which token comes first and why the rules before the right one do not start there.
-/

namespace TreeScript

namespace Language

open Grammar TreeScript.Derivation

variable {tokens rest : List Token} {trees : List Tree} {tree : Tree} {t : List Token}

/-! ## What can be seen after an expression -/

theorem noCall_of_isWord {text : String} {token : Token} (h : IsWord text token) (ht : text ≠ "(")
    (tokens : List Token) : NoCall (token :: tokens) := by
  rw [NoCall, front_cons, h.isLiteral_eq]
  simpa using ht

theorem noOperator_of_isWord {text : String} {token : Token} (h : IsWord text token)
    (ht : operators.get? text = none) (tokens : List Token) : NoOperator (token :: tokens) := by
  rw [NoOperator, front_cons, h.ofToken?_eq, ht]

theorem exprSeen_of_separator {separator : Token} (hs : Separator separator) (h : Expr t tree)
    (tokens : List Token) : ExprSeen (t ++ separator :: tokens) tree (separator :: tokens) :=
  ⟨⟨t, rfl, h⟩, hs.isLiteral_paren, hs.ofToken?_eq⟩

/-- An expression before a word that goes on with none is read to its end. -/
theorem exprSeen_of_isWord {text : String} {token : Token} (h : Expr t tree)
    (hword : IsWord text token) (hcall : text ≠ "(") (hop : operators.get? text = none)
    (tokens : List Token) : ExprSeen (t ++ token :: tokens) tree (token :: tokens) :=
  ⟨⟨t, rfl, h⟩, noCall_of_isWord hword hcall tokens, noOperator_of_isWord hword hop tokens⟩

/-! ## Repetitions -/

/-- The lines of a list are read turn by turn, up to a token where no further one starts. -/
theorem repeats_of_many {rule : RuleId} {line : List Token → Tree → Prop} (h : Many line t trees)
    (hline : Solid line)
    (hm : ∀ tokens tree rest, Takes line tokens tree rest → Meaning rule tokens tree rest)
    (hstart : ∀ t tree rest, line t tree →
      full.grammar.startsAt rule (front (t ++ rest)) = some true)
    (hstop : full.grammar.startsAt rule (front rest) = some false) :
    Repeats full.grammar Meaning rule (t ++ rest) trees rest := by
  induction h with
  | nil => exact .done hstop
  | @cons t t' tree trees hl _ ih =>
      rw [List.append_assoc]
      have hmore := Repeats.more (hstart _ _ (t' ++ rest) hl) (hm _ _ _ ⟨t, rfl, hl⟩) ih
      rwa [unlessEmpty_of_not_isEmptyList (hline _ _ hl)] at hmore

/-- The first item of a list, and a repetition of the others with the commas before them. -/
theorem repeats_of_listed {rule : RuleId} {line : List Token → Tree → Prop}
    (h : Listed line t trees) (hline : Solid line) (Seen : List Token → Prop)
    (hm : ∀ tokens tree rest,
      After "," (fun tokens tree rest => Takes line tokens tree rest ∧ Seen rest) tokens tree rest →
      Meaning rule tokens tree rest)
    (hstart : ∀ token, full.grammar.startsAt rule token = some (isLiteral [","] token))
    (hcomma : ∀ comma tokens, IsWord "," comma → Seen (comma :: tokens))
    (hseen : Seen rest) (hstop : isLiteral [","] (front rest) = false) :
    ∃ tree trees' t₁ t₂, trees = tree :: trees' ∧ t = t₁ ++ t₂ ∧ line t₁ tree ∧ Seen (t₂ ++ rest) ∧
      Repeats full.grammar Meaning rule (t₂ ++ rest) trees' rest := by
  induction h with
  | @single t tree hl =>
      refine ⟨tree, [], t, [], rfl, by simp, hl, hseen, .done ?_⟩
      rw [hstart, List.nil_append, hstop]
  | @cons t t' comma tree trees hl hc _ ih =>
      obtain ⟨tree', trees', t₁, t₂, rfl, rfl, hl', hseen', hrep⟩ := ih
      refine ⟨tree, tree' :: trees', t, comma :: (t₁ ++ t₂), rfl, rfl, hl, hcomma _ _ hc, ?_⟩
      have hyes : full.grammar.startsAt rule (front (comma :: (t₁ ++ t₂) ++ rest)) = some true := by
        rw [hstart, List.cons_append, front_cons, hc.isLiteral_eq]
        rfl
      have hitem := hm (comma :: (t₁ ++ t₂) ++ rest) tree' (t₂ ++ rest)
        ⟨comma, t₁ ++ (t₂ ++ rest), hc, by simp, ⟨t₁, rfl, hl'⟩, hseen'⟩
      have hmore := Repeats.more hyes hitem hrep
      rwa [unlessEmpty_of_not_isEmptyList (hline _ _ hl')] at hmore

/-- The operations of an expression are a chain, each operand with the meaning of a factor. -/
theorem chains_of_operations {links : List Link} (h : Operations Factor t links)
    (hcall : NoCall rest) (hop : NoOperator rest) :
    Chains Meaning factorId operators (fun _ => true) (t ++ rest) links rest ∧
      NoCall (t ++ rest) := by
  induction h with
  | nil =>
      refine ⟨.done ?_, hcall⟩
      intro precedence hp
      rw [NoOperator] at hop
      rw [List.nil_append, hop] at hp
      cases hp
  | @cons operator text precedence t t' operand links hword hget hf _ ih =>
      have ho : operators.ofToken? operator = some precedence := by rw [hword.ofToken?_eq, hget]
      refine ⟨?_, isLiteral_paren_of_ofToken? ho⟩
      rw [List.cons_append, List.append_assoc]
      exact .more ho rfl ⟨⟨t, rfl, hf⟩, ih.2⟩ ih.1

/-- After a compound statement in a block there is no `else`. -/
theorem isLiteral_else_of_items (h : Items Compound t trees) {brace : Token}
    (hbrace : IsWord "\x7d" brace) : isLiteral ["else"] (front (t ++ brace :: rest)) = false := by
  cases h with
  | nil =>
      rw [List.nil_append, front_cons, hbrace.isLiteral_eq]
      rfl
  | compound hc _ =>
      obtain ⟨token, t', rfl, ho⟩ := hc.opens
      rcases opensCompound_cases ho with hw | hw | hw <;>
        simp [hw.isLiteral_eq]
  | simple he _ _ =>
      obtain ⟨token, t', rfl, ho⟩ := he.opens
      exact isLiteral_of_opensFactor ho (by decide) (by decide) (by decide)
  | last he =>
      obtain ⟨token, t', rfl, ho⟩ := he.opens
      exact isLiteral_of_opensFactor ho (by decide) (by decide) (by decide)
  | separator hs _ => exact hs.isLiteral_else

/-- The statements of a block are read turn by turn up to the closing brace. A simple statement may
be the last one without a separator. -/
theorem repeats_of_items (h : Items Compound t trees) {brace : Token}
    (hbrace : IsWord "\x7d" brace) :
    Repeats full.grammar Meaning blockStatementId (t ++ brace :: rest) trees (brace :: rest) := by
  have hstop : full.grammar.startsAt blockStatementId (front (brace :: rest)) = some false :=
    startsAt_blockStatement_brace hbrace
  have hexpr : ∀ {t tree tokens}, Expr t tree →
      full.grammar.startsAt blockStatementId (front (t ++ tokens)) = some true := by
    intro t tree tokens he
    obtain ⟨token, t', rfl, ho⟩ := he.opens
    rw [startsAt_blockStatement, List.cons_append, front_cons, ho]
    simp
  induction h with
  | nil => exact .done hstop
  | @compound t t' tree trees hc hitems ih =>
      rw [List.append_assoc]
      have hyes : full.grammar.startsAt blockStatementId (front (t ++ (t' ++ brace :: rest))) =
          some true := by
        obtain ⟨token, t', rfl, ho⟩ := hc.opens
        rw [startsAt_blockStatement, List.cons_append, front_cons, ho]
        simp
      have hmore := Repeats.more hyes
        (.inl ⟨⟨t, rfl, hc⟩, fun _ _ _ => isLiteral_else_of_items hitems hbrace⟩) ih
      rwa [unlessEmpty_of_not_isEmptyList (solid_compound _ _ hc)] at hmore
  | @simple t t' separator tree trees he hs _ ih =>
      rw [List.append_assoc, List.cons_append]
      have hmore := Repeats.more (hexpr he)
        (.inr (.inl ⟨separator, hs, exprSeen_of_separator hs he _⟩)) ih
      rwa [unlessEmpty_of_not_isEmptyList (solid_expr _ _ he)] at hmore
  | @last t tree he =>
      have hlast : isLiteral ["\x7d"] (front (brace :: rest)) = true := by
        rw [front_cons, hbrace.isLiteral_eq]
        rfl
      have hmeans : Meaning blockStatementId (t ++ brace :: rest) tree (brace :: rest) :=
        .inr (.inr (.inl ⟨exprSeen_of_isWord he hbrace (by decide) (by decide) rest, hlast⟩))
      have hmore := Repeats.more (hexpr he) hmeans (.done hstop)
      rwa [unlessEmpty_of_not_isEmptyList (solid_expr _ _ he)] at hmore
  | @separator separator t trees hs _ ih =>
      have hyes :
          full.grammar.startsAt blockStatementId (front (separator :: (t ++ brace :: rest))) =
            some true := by
        rw [startsAt_blockStatement, front_cons, hs.isLiteral_separators]
        simp
      exact Repeats.more hyes (.inr (.inr (.inr ⟨rfl, separator, hs, rfl⟩))) ih

/-! ## Expressions -/

/-- The tree is what the elements of a rule give. -/
def ReadBy (kind : Tree.BranchKind) (elements : List Element) (tokens : List Token) (tree : Tree)
    (rest : List Token) : Prop :=
  ∃ trees, tree = .group kind trees ∧ ReadsAll full.grammar Meaning elements tokens trees rest

/-- An expression is an operand and the operators after it, and its tree is the way to split them.
-/
theorem readBy_expr (h : ExprSeen tokens tree rest) :
    ReadBy .list [.expression factorId operators (.branch .binary)] tokens tree rest := by
  obtain ⟨⟨_, rfl, h⟩, hcall, hop⟩ := h
  cases h with
  | @chain t t' operand _ links hf hops hsplits =>
      have hclimb := splits_climb .binary operand links
        (consistent_operators.links hops.ofToken?_eq)
      obtain rfl := hclimb.unique (consistent_operators.links hops.ofToken?_eq) hsplits
      obtain ⟨hchains, hcall'⟩ := chains_of_operations hops hcall hop
      refine ⟨[climb .binary operand links], rfl, ?_⟩
      rw [readsAll_expression]
      exact ⟨operand, links, [], t' ++ rest, rest, rfl, ⟨⟨t, by simp, hf⟩, hcall'⟩, hchains, .nil⟩

theorem isLiteral_self {text : String} {token : Token} (h : IsWord text token) :
    isLiteral [text] token = true := by
  rw [h.isLiteral_eq]
  simp

theorem readBy_paren (h : Takes Atom tokens tree rest)
    (hfront : isLiteral ["("] (front tokens) = true) :
    ReadBy .list [.literal ["("] false, .tree exprId, .literal [")"] false] tokens tree rest := by
  obtain ⟨_, rfl, h⟩ := h
  cases h with
  | @paren first last t _ hfirst he hlast =>
      refine ⟨[tree], rfl, ?_⟩
      simp only [readsAll_dropped, readsAll_tree, readsAll_nil, List.cons_append, List.append_assoc,
        List.nil_append]
      exact ⟨first, _, rfl, hfront, tree, [], _, rfl,
        exprSeen_of_isWord he hlast (by decide) (by decide) rest, last, rest, rfl,
        isLiteral_self hlast, rfl, rfl⟩
  | number hn => simp [isLiteral_of_isNumber hn] at hfront
  | name hi =>
      rw [List.cons_append, front_cons, hi.isLiteral_eq (by decide)] at hfront
      cases hfront
  | string hs => simp [isLiteral_of_isString hs] at hfront

theorem readBy_number (h : Takes Atom tokens tree rest) (hfront : (front tokens).isNumber = true) :
    ReadBy .list [.token .number (.leaf .number)] tokens tree rest := by
  obtain ⟨_, rfl, h⟩ := h
  cases h with
  | paren hfirst _ _ => simp [hfirst.isNumber_eq] at hfront
  | @number token hn =>
      exact ⟨[.leaf .number token], rfl, readsAll_token.2 ⟨token, [], rest, rfl, rfl, hn, .nil⟩⟩
  | name hi => simp [hi.isNumber_eq] at hfront
  | string hs => simp [(accepts_name_of_isString hs).1] at hfront

theorem readBy_name (h : Takes Atom tokens tree rest) (hfront : Identifier (front tokens)) :
    ReadBy .list [.token .name (.leaf .variable)] tokens tree rest := by
  obtain ⟨_, rfl, h⟩ := h
  rw [← accepts_name_iff] at hfront
  cases h with
  | paren hfirst _ _ =>
      rw [List.cons_append, front_cons, hfirst.accepts_name_eq] at hfront
      cases hfront
  | number hn =>
      rw [accepts_name_iff] at hfront
      cases hfront.isNumber_eq.symm.trans hn
  | @name token hi => exact ⟨[.leaf .variable token], rfl, .cons (.token hfront) .nil⟩
  | string hs => simp [(accepts_name_of_isString hs).2] at hfront

theorem readBy_string (h : Takes Atom tokens tree rest) (hfront : (front tokens).isString = true) :
    ReadBy .list [.token .string (.leaf .string)] tokens tree rest := by
  obtain ⟨_, rfl, h⟩ := h
  have hother := accepts_name_of_isString hfront
  cases h with
  | paren hfirst _ _ => simp [hfirst.isString_eq] at hfront
  | number hn => simp [hn] at hother
  | name hi => simp [accepts_name_iff.2 hi] at hother
  | @string token hs =>
      exact ⟨[.leaf .string token], rfl, readsAll_token.2 ⟨token, [], rest, rfl, rfl, hs, .nil⟩⟩

/-- An atom is read by the rule that is chosen for it. -/
theorem exists_choose_atom (h : Atom t tree) (rest : List Token) :
    ∃ rule, full.grammar.chooseAt [parenId, numberId, nameId, stringId] (front (t ++ rest)) =
      some (some rule) ∧ Meaning rule (t ++ rest) tree rest := by
  cases h with
  | @paren first last t _ hfirst he hlast =>
      have hself := isLiteral_self hfirst
      refine ⟨2, ?_, ⟨_, rfl, .paren hfirst he hlast⟩, hself⟩
      rw [List.cons_append, front_cons, chooseAt_atom, hself]
      rfl
  | @number token hn =>
      refine ⟨3, ?_, ⟨[token], rfl, .number hn⟩, hn⟩
      rw [List.cons_append, front_cons, chooseAt_atom, isLiteral_of_isNumber hn, hn]
      rfl
  | @name token hi =>
      refine ⟨4, ?_, ⟨[token], rfl, .name hi⟩, hi⟩
      rw [List.cons_append, front_cons, chooseAt_atom, hi.isLiteral_eq (by decide), hi.isNumber_eq,
        accepts_name_iff.2 hi]
      rfl
  | @string token hs =>
      refine ⟨5, ?_, ⟨[token], rfl, .string hs⟩, hs⟩
      obtain ⟨hn, ha⟩ := accepts_name_of_isString hs
      rw [List.cons_append, front_cons, chooseAt_atom, isLiteral_of_isString hs, hn, ha, hs]
      rfl

/-- An atom and the calls after it. An operand without calls is one with a repetition of none. -/
theorem readBy_primary (h : Takes Primary tokens tree rest) (hcall : NoCall rest) :
    ReadBy .primary [.choice [parenId, numberId, nameId, stringId], .repeated callId .any]
      tokens tree rest := by
  obtain ⟨t, t', atom, calls, rfl, ha, hcalls, rfl⟩ : ∃ t t' atom calls,
      tokens = t ++ (t' ++ rest) ∧
      Atom t atom ∧ Many (Call Expr) t' calls ∧ tree = .group .primary (atom :: calls) := by
    obtain ⟨_, rfl, h⟩ := h
    cases h with
    | plain ha => exact ⟨_, [], tree, [], rfl, ha, .nil, rfl⟩
    | @called t t' atom calls ha hcalls hne =>
        obtain ⟨call, calls, rfl⟩ := List.exists_cons_of_ne_nil hne
        exact ⟨t, t', atom, call :: calls, by simp, ha, hcalls, rfl⟩
  obtain ⟨rule, hchoose, hmeans⟩ := exists_choose_atom ha (t' ++ rest)
  refine ⟨atom :: calls, rfl, ?_⟩
  simp only [readsAll_choice, readsAll_many, readsAll_nil]
  refine ⟨rule, atom, calls, _, ?_, hchoose, hmeans, calls, [], rest, by simp, ?_, rfl, rfl⟩
  · rw [unlessEmpty_of_not_isEmptyList (solid_atom _ _ ha)]
    rfl
  · refine repeats_of_many hcalls solid_call (fun _ _ _ hm => hm) ?_ ?_
    · intro t tree rest hc
      rw [startsAt_call]
      cases hc with
      | empty hfirst _ => exact congrArg some (isLiteral_self hfirst)
      | args hfirst _ _ => exact congrArg some (isLiteral_self hfirst)
    · rw [startsAt_call, hcall]

theorem readBy_negative (h : Takes Factor tokens tree rest) (hcall : NoCall rest)
    (hfront : isLiteral ["-"] (front tokens) = true) :
    ReadBy .negative [.literal ["-"] false, .tree primaryId] tokens tree rest := by
  obtain ⟨_, rfl, h⟩ := h
  cases h with
  | @negative minus t tree hminus hp =>
      refine ⟨[tree], rfl, ?_⟩
      simp only [readsAll_dropped, readsAll_tree, readsAll_nil]
      exact ⟨minus, t ++ rest, rfl, hfront, tree, [], rest, rfl, ⟨⟨t, rfl, hp⟩, hcall⟩, rfl, rfl⟩
  | primary hp =>
      obtain ⟨token, t', rfl, ho⟩ := hp.opens
      rw [List.cons_append, front_cons] at hfront
      rw [isLiteral_of_opensOperand ho (by decide) (by decide)] at hfront
      cases hfront

/-- A rule that only chooses reads what the chosen rule reads. -/
theorem readBy_choice {rules : List RuleId} {rule : RuleId}
    (hchoose : full.grammar.chooseAt rules (front tokens) = some (some rule))
    (hmeans : Meaning rule tokens tree rest) : ReadBy .list [.choice rules] tokens tree rest := by
  refine ⟨unlessEmpty tree, (group_unlessEmpty tree).symm, ?_⟩
  simp only [readsAll_choice, readsAll_nil]
  exact ⟨rule, tree, [], rest, by simp, hchoose, hmeans, rfl, rfl⟩

/-- A minus sign chooses the negative rule, and any other token the one of operands. -/
theorem readBy_factor (h : Takes Factor tokens tree rest) (hcall : NoCall rest) :
    ReadBy .list [.choice [negativeId, primaryId]] tokens tree rest := by
  have htakes := h
  obtain ⟨_, rfl, h⟩ := h
  cases h with
  | @negative minus t tree hminus hp =>
      have hself := isLiteral_self hminus
      refine readBy_choice ?_ (show Meaning negativeId _ _ _ from ⟨⟨htakes, hcall⟩, hself⟩)
      rw [List.cons_append, front_cons, chooseAt_factor, hself]
      rfl
  | primary hp =>
      refine readBy_choice ?_ (show Meaning primaryId _ _ _ from ⟨⟨_, rfl, hp⟩, hcall⟩)
      obtain ⟨token, t', rfl, ho⟩ := hp.opens
      rw [List.cons_append, front_cons, chooseAt_factor,
        isLiteral_of_opensOperand ho (by decide) (by decide), ho]
      rfl

/-- A rule that is a word and another rule. -/
theorem readBy_tail (text : String) (rule : RuleId)
    (h : After text (Meaning rule) tokens tree rest) :
    ReadBy .list [.literal [text] false, .tree rule] tokens tree rest := by
  obtain ⟨word, tokens', hword, rfl, hm⟩ := h
  refine ⟨[tree], rfl, ?_⟩
  simp only [readsAll_dropped, readsAll_tree, readsAll_nil]
  exact ⟨word, tokens', rfl, isLiteral_self hword, tree, [], rest, rfl, hm, rfl, rfl⟩

/-- Arguments are expressions with commas between them. -/
theorem readBy_args (h : Listed Expr t trees) (hseen : NoCall rest ∧ NoOperator rest)
    (hstop : isLiteral [","] (front rest) = false) :
    ReadBy .arguments [.tree exprId, .repeated argTailId .any] (t ++ rest)
      (.branch .arguments trees) rest := by
  obtain ⟨tree, trees, t₁, t₂, rfl, rfl, he, hseen', hrep⟩ := repeats_of_listed h solid_expr
    (fun rest => NoCall rest ∧ NoOperator rest)
    (show ∀ tokens tree rest, After "," ExprSeen tokens tree rest →
        Meaning argTailId tokens tree rest from
      fun _ _ _ hm => hm) startsAt_argTail
    (fun _ tokens hc => ⟨noCall_of_isWord hc (by decide) tokens,
      noOperator_of_isWord hc (by decide) tokens⟩) hseen hstop
  refine ⟨tree :: trees, rfl, ?_⟩
  simp only [readsAll_tree, readsAll_many, readsAll_nil]
  exact ⟨tree, trees, t₂ ++ rest, rfl, ⟨⟨t₁, by simp, he⟩, hseen'⟩, trees, [], rest, by simp, hrep,
    rfl, rfl⟩

/-- Between the parentheses there are arguments or nothing. -/
theorem readBy_call (h : Takes (Call Expr) tokens tree rest) :
    ReadBy .list [.literal ["("] false, .orEmpty argsId, .literal [")"] false]
      tokens tree rest := by
  obtain ⟨_, rfl, h⟩ := h
  cases h with
  | @empty first last hfirst hlast =>
      refine ⟨[.branch .arguments []], rfl, ?_⟩
      simp only [readsAll_dropped, readsAll_orEmpty, readsAll_nil]
      refine ⟨first, last :: rest, rfl, isLiteral_self hfirst,
        .inl ⟨.arguments, [], rfl, ?_, rfl, last, rest, rfl, isLiteral_self hlast, rfl, rfl⟩⟩
      rw [startsAt_args, front_cons, hlast.opensFactor_eq (by decide) (by decide) (by decide)]
  | @args first last t trees hfirst hargs hlast =>
      refine ⟨[.branch .arguments trees], rfl, ?_⟩
      simp only [readsAll_dropped, readsAll_orEmpty, readsAll_nil, List.cons_append,
        List.append_assoc, List.nil_append]
      refine ⟨first, _, rfl, isLiteral_self hfirst, .inr ⟨_, [], last :: rest, rfl, ?_, ⟨trees, rfl,
        ⟨t, rfl, hargs⟩, ⟨noCall_of_isWord hlast (by decide) rest,
          noOperator_of_isWord hlast (by decide) rest⟩, ?_⟩, last, rest, rfl, isLiteral_self hlast,
        rfl, rfl⟩⟩
      · have hopens : ∃ token t', t = token :: t' ∧ opensFactor token = true := by
          cases hargs with
          | single he => exact he.opens
          | cons he _ _ =>
              obtain ⟨token, t', rfl, ho⟩ := he.opens
              exact ⟨token, _, rfl, ho⟩
        obtain ⟨token, t', rfl, ho⟩ := hopens
        rw [startsAt_args, List.cons_append, front_cons, ho]
      · rw [front_cons, hlast.isLiteral_eq]
        rfl

/-! ## Parameters -/

theorem readBy_param (h : Takes Parameter tokens tree rest) :
    ReadBy .list [.token .name (.leaf .plain)] tokens tree rest := by
  obtain ⟨_, rfl, h⟩ := h
  cases h with
  | @name token hi =>
      exact ⟨[.leaf .plain token], rfl,
        readsAll_token.2 ⟨token, [], rest, rfl, rfl, accepts_name_iff.2 hi, .nil⟩⟩

/-- Parameters are names with commas between them. -/
theorem readBy_params (h : Listed Parameter t trees)
    (hstop : isLiteral [","] (front rest) = false) :
    ReadBy .parameters [.tree paramId, .repeated paramTailId .any] (t ++ rest)
      (.branch .parameters trees) rest := by
  obtain ⟨tree, trees, t₁, t₂, rfl, rfl, hp, -, hrep⟩ := repeats_of_listed h solid_parameter
    (fun _ => True)
    (show ∀ tokens tree rest, After "," _ tokens tree rest →
        Meaning paramTailId tokens tree rest from
      fun _ _ _ ⟨comma, tokens', hcomma, htokens, hp, _⟩ => ⟨comma, tokens', hcomma, htokens, hp⟩)
    startsAt_paramTail (fun _ _ _ => trivial) trivial hstop
  refine ⟨tree :: trees, rfl, ?_⟩
  simp only [readsAll_tree, readsAll_many, readsAll_nil]
  exact ⟨tree, trees, t₂ ++ rest, rfl, ⟨t₁, by simp, hp⟩, trees, [], rest, by simp, hrep, rfl, rfl⟩

theorem readBy_paramList {first last : Token} (hfirst : IsWord "(" first) (hlast : IsWord ")" last)
    (h : Takes Parameters tokens tree (last :: rest)) :
    ReadBy .list [.literal ["("] false, .orEmpty paramsId, .literal [")"] false]
      (first :: tokens) tree rest := by
  obtain ⟨t, rfl, h⟩ := h
  cases h with
  | empty =>
      refine ⟨[.branch .parameters []], rfl, ?_⟩
      simp only [readsAll_dropped, readsAll_orEmpty, readsAll_nil]
      refine ⟨first, last :: rest, rfl, isLiteral_self hfirst, .inl ⟨.parameters, [], rfl, ?_, rfl,
        last, rest, rfl, isLiteral_self hlast, rfl, rfl⟩⟩
      rw [startsAt_params, front_cons, hlast.accepts_name_eq]
      rfl
  | @params _ trees hparams =>
      refine ⟨[.branch .parameters trees], rfl, ?_⟩
      simp only [readsAll_dropped, readsAll_orEmpty, readsAll_nil]
      refine ⟨first, _, rfl, isLiteral_self hfirst, .inr ⟨_, [], last :: rest, rfl, ?_, ⟨trees, rfl,
        ⟨t, rfl, hparams⟩, ?_⟩, last, rest, rfl, isLiteral_self hlast, rfl, rfl⟩⟩
      · have hopens : ∃ token t', t = token :: t' ∧ Identifier token := by
          cases hparams with
          | single hp =>
              cases hp with
              | name hi => exact ⟨_, _, rfl, hi⟩
          | cons hp _ _ =>
              cases hp with
              | name hi => exact ⟨_, _, rfl, hi⟩
        obtain ⟨token, t', rfl, hi⟩ := hopens
        rw [startsAt_params, List.cons_append, front_cons, accepts_name_iff.2 hi]
      · rw [front_cons, hlast.isLiteral_eq]
        rfl

/-! ## Statements -/

theorem readBy_simple (h : ExprSeen tokens tree rest) :
    ReadBy .list [.tree exprId] tokens tree rest :=
  ⟨[tree], rfl, readsAll_tree.2 ⟨tree, [], rest, rfl, h, .nil⟩⟩

theorem readsAll_separator {separator : Token} (hs : Separator separator) :
    ReadsAll full.grammar Meaning [separatorSep] (separator :: rest) [] rest :=
  readsAll_dropped.2 ⟨separator, rest, rfl, hs.isLiteral_separators, .nil⟩

/-- A rule that is a separator. -/
theorem readBy_separator {kind : Tree.BranchKind} (hk : Tree.group kind [] = .branch kind [])
    (h : SeparatorAlone kind tokens tree rest) : ReadBy kind [separatorSep] tokens tree rest := by
  obtain ⟨rfl, separator, hs, rfl⟩ := h
  exact ⟨[], hk.symm, readsAll_separator hs⟩

/-- A simple statement of a block ends with a separator or before the closing brace. -/
theorem readBy_blockSimple (h : SimpleEnded tokens tree rest ∨ SimpleLast tokens tree rest) :
    ReadBy .list [.tree simpleId, .choice [separatorId, blockEndId]] tokens tree rest := by
  refine ⟨[tree], rfl, ?_⟩
  simp only [readsAll_tree, readsAll_choice, readsAll_nil]
  rcases h with ⟨separator, hs, he⟩ | ⟨he, hbrace⟩
  · refine ⟨tree, [], separator :: rest, rfl, he, 10, .branch .list [], [], rest, rfl, ?_,
      ⟨rfl, separator, hs, rfl⟩, rfl, rfl⟩
    rw [front_cons, chooseAt_blockSimple, hs.isLiteral_separators]
    rfl
  · refine ⟨tree, [], rest, rfl, he, 11, .branch .list [], [], rest, rfl, ?_, ⟨rfl, rfl, hbrace⟩,
      rfl, rfl⟩
    rw [chooseAt_blockSimple, (isWord_of_isLiteral hbrace (by decide)).isLiteral_eq, hbrace]
    rfl

theorem opensFactor_of_takes (h : Takes Expr tokens tree rest) :
    opensFactor (front tokens) = true := by
  obtain ⟨_, rfl, h⟩ := h
  obtain ⟨token, t', rfl, ho⟩ := h.opens
  exact ho

theorem opensCompound_of_takes (h : Takes Compound tokens tree rest) :
    opensCompound (front tokens) = true := by
  obtain ⟨_, rfl, h⟩ := h
  obtain ⟨token, t', rfl, ho⟩ := h.opens
  exact ho

/-- The first token tells which of the three statements it is. -/
theorem readBy_blockStatement (h : Meaning blockStatementId tokens tree rest) :
    ReadBy .list [.choice [compoundId, blockSimpleId, separatorId]] tokens tree rest := by
  have hexpr : opensFactor (front tokens) = true →
      full.grammar.chooseAt [compoundId, blockSimpleId, separatorId] (front tokens) =
        some (some blockSimpleId) := by
    intro ho
    rw [chooseAt_blockStatement, opensCompound_of_opensFactor ho, ho]
    rfl
  rcases h with h | h | h | h
  · refine readBy_choice ?_ (show Meaning compoundId _ _ _ from h)
    rw [chooseAt_blockStatement, opensCompound_of_takes h.1]
    rfl
  · obtain ⟨separator, hs, he⟩ := h
    exact readBy_choice (hexpr (opensFactor_of_takes he.1))
      (show Meaning blockSimpleId _ _ _ from .inl ⟨separator, hs, he⟩)
  · exact readBy_choice (hexpr (opensFactor_of_takes h.1.1))
      (show Meaning blockSimpleId _ _ _ from .inr h)
  · obtain ⟨rfl, separator, hs, rfl⟩ := h
    refine readBy_choice ?_ (show Meaning separatorId _ _ _ from ⟨rfl, separator, hs, rfl⟩)
    rw [front_cons, chooseAt_blockStatement, hs.opensCompound_eq, hs.opensFactor_eq,
      hs.isLiteral_separators]
    rfl

theorem readBy_block (h : Takes (Block Compound) tokens tree rest) :
    ReadBy .block
      [.literal ["\x7b"] false, .repeated blockStatementId .any, .literal ["\x7d"] false]
      tokens tree rest := by
  obtain ⟨_, rfl, h⟩ := h
  cases h with
  | @items first last t trees hfirst hitems hlast =>
      refine ⟨trees, rfl, ?_⟩
      simp only [readsAll_dropped, readsAll_many, readsAll_nil, List.cons_append, List.append_assoc,
        List.nil_append]
      exact ⟨first, _, rfl, isLiteral_self hfirst, trees, [], last :: rest, by simp,
        repeats_of_items hitems hlast, last, rest, rfl, isLiteral_self hlast, rfl, rfl⟩

/-- The condition of a statement is seen up to the brace of its block. -/
theorem exprSeen_of_block {body : Tree} {t' : List Token} (he : Expr t tree)
    (hb : Block Compound t' body) (rest : List Token) :
    ExprSeen (t ++ (t' ++ rest)) tree (t' ++ rest) := by
  obtain ⟨brace, t', rfl, hbrace⟩ := hb.opens
  exact exprSeen_of_isWord he hbrace (by decide) (by decide) _

/-- A statement begins with its own word. -/
theorem elim_of_isWord {P : Prop} {text : String} {texts : List String} {word : Token}
    (hword : IsWord text word) (hn : texts.contains text = false)
    (h : isLiteral texts (front (word :: tokens)) = true) : P := by
  rw [front_cons, hword.isLiteral_eq, hn] at h
  cases h

/-- The condition, the block and perhaps another block after `else`. -/
theorem readBy_if (h : CompoundSeen tokens tree rest)
    (hfront : isLiteral ["if"] (front tokens) = true) :
    ReadBy .conditional
      [.literal ["if"] false, .tree exprId, .tree blockId, .repeated elseId .atMostOnce]
      tokens tree rest := by
  obtain ⟨⟨_, rfl, h⟩, helse⟩ := h
  cases h with
  | @conditional word t t' condition body hword he hb =>
      refine ⟨[condition, body], rfl, ?_⟩
      simp only [readsAll_dropped, readsAll_tree, readsAll_once, readsAll_nil, List.cons_append,
        List.append_assoc]
      refine ⟨word, _, rfl, hfront, condition, [body], _, rfl, exprSeen_of_block he hb rest,
        body, [], rest, rfl, ⟨t', rfl, hb⟩, .inl ⟨?_, rfl, rfl⟩⟩
      rw [startsAt_else, helse condition body rfl]
  | @alternative word word' t t' t'' condition body body' hword he hb hword' hb' =>
      refine ⟨[condition, body, body'], rfl, ?_⟩
      simp only [readsAll_dropped, readsAll_tree, readsAll_once, readsAll_nil, List.cons_append,
        List.append_assoc]
      refine ⟨word, _, rfl, hfront, condition, [body, body'], _, rfl, exprSeen_of_block he hb _,
        body, [body'], word' :: (t'' ++ rest), rfl, ⟨t', rfl, hb⟩,
        .inr ⟨body', [], rest, ?_, ?_, ⟨word', _, hword', rfl, t'', rfl, hb'⟩, rfl, rfl⟩⟩
      · cases hb'
        rfl
      · rw [startsAt_else, front_cons, isLiteral_self hword']
  | loop hword _ _ => exact elim_of_isWord hword rfl hfront
  | definition hword _ _ _ _ _ => exact elim_of_isWord hword rfl hfront

theorem readBy_while (h : Takes Compound tokens tree rest)
    (hfront : isLiteral ["while"] (front tokens) = true) :
    ReadBy .loop [.literal ["while"] false, .tree exprId, .tree blockId] tokens tree rest := by
  obtain ⟨_, rfl, h⟩ := h
  cases h with
  | @loop word t t' condition body hword he hb =>
      refine ⟨[condition, body], rfl, ?_⟩
      simp only [readsAll_dropped, readsAll_tree, readsAll_nil, List.cons_append, List.append_assoc]
      exact ⟨word, _, rfl, hfront, condition, [body], _, rfl, exprSeen_of_block he hb rest,
        body, [], rest, rfl, ⟨t', rfl, hb⟩, rfl, rfl⟩
  | conditional hword _ _ => exact elim_of_isWord hword rfl hfront
  | alternative hword _ _ _ _ => exact elim_of_isWord hword rfl hfront
  | definition hword _ _ _ _ _ => exact elim_of_isWord hword rfl hfront

theorem readBy_def (h : Takes Compound tokens tree rest)
    (hfront : isLiteral ["def"] (front tokens) = true) :
    ReadBy .definition
      [.literal ["def"] false, .token .name (.leaf .plain), .tree paramListId, .tree blockId]
      tokens tree rest := by
  obtain ⟨_, rfl, h⟩ := h
  cases h with
  | @definition word name first last t t' parameters body hword hname hfirst hp hlast hb =>
      refine ⟨[.leaf .plain name, parameters, body], rfl, ?_⟩
      simp only [readsAll_dropped, readsAll_token, readsAll_tree, readsAll_nil, List.cons_append,
        List.append_assoc]
      exact ⟨word, _, rfl, hfront, name, [parameters, body], _, rfl, rfl, accepts_name_iff.2 hname,
        parameters, [body], t' ++ rest, rfl, ⟨first, _, hfirst, rfl, last, hlast, t, rfl, hp⟩,
        body, [], rest, rfl, ⟨t', rfl, hb⟩, rfl, rfl⟩
  | conditional hword _ _ => exact elim_of_isWord hword rfl hfront
  | alternative hword _ _ _ _ => exact elim_of_isWord hword rfl hfront
  | loop hword _ _ => exact elim_of_isWord hword rfl hfront

/-- The first word tells which of the three statements it is. -/
theorem readBy_compound (h : CompoundSeen tokens tree rest) :
    ReadBy .list [.choice [defId, ifId, whileId]] tokens tree rest := by
  rcases opensCompound_cases (opensCompound_of_takes h.1) with hw | hw | hw
  · refine readBy_choice ?_ (show Meaning defId _ _ _ from ⟨h, isLiteral_self hw⟩)
    rw [chooseAt_compound, isLiteral_self hw]
    rfl
  · refine readBy_choice ?_ (show Meaning ifId _ _ _ from ⟨h, isLiteral_self hw⟩)
    rw [chooseAt_compound, hw.isLiteral_eq, isLiteral_self hw]
    rfl
  · refine readBy_choice ?_ (show Meaning whileId _ _ _ from ⟨h, isLiteral_self hw⟩)
    rw [chooseAt_compound, hw.isLiteral_eq, hw.isLiteral_eq, isLiteral_self hw]
    rfl

/-- A separator after a compound statement is taken with it. -/
theorem readBy_compoundStatement (h : CompoundEnded tokens tree rest) :
    ReadBy .list [.tree compoundId, .repeated separatorId .atMostOnce] tokens tree rest := by
  refine ⟨[tree], rfl, ?_⟩
  simp only [readsAll_tree, readsAll_once, readsAll_nil]
  rcases h with ⟨hc, hno⟩ | ⟨separator, hs, hc⟩
  · refine ⟨tree, [], rest, rfl, hc, .inl ⟨?_, rfl, rfl⟩⟩
    rw [startsAt_separator, hno]
  · refine ⟨tree, [], separator :: rest, rfl, hc, .inr ⟨.branch .list [], [], rest, rfl, ?_,
      ⟨rfl, separator, hs, rfl⟩, rfl, rfl⟩⟩
    rw [startsAt_separator, front_cons, hs.isLiteral_separators]

theorem readBy_simpleStatement (h : SimpleEnded tokens tree rest) :
    ReadBy .list [.tree simpleId, separatorSep] tokens tree rest := by
  obtain ⟨separator, hs, he⟩ := h
  exact ⟨[tree], rfl, readsAll_tree.2 ⟨tree, [], separator :: rest, rfl, he, readsAll_separator hs⟩⟩

/-- The first token tells which of the three statements it is. -/
theorem readBy_program (h : Meaning programId tokens tree rest) :
    ReadBy .list [.choice [compoundStatementId, simpleStatementId, nullStatementId]]
      tokens tree rest := by
  rcases h with h | h | h
  · have ho : opensCompound (front tokens) = true := by
      rcases h with ⟨hc, -⟩ | ⟨separator, -, hc⟩
      · exact opensCompound_of_takes hc.1
      · exact opensCompound_of_takes hc.1
    refine readBy_choice ?_ (show Meaning compoundStatementId _ _ _ from h)
    rw [chooseAt_program, ho]
    rfl
  · obtain ⟨separator, hs, he⟩ := h
    have ho := opensFactor_of_takes he.1
    refine readBy_choice ?_ (show Meaning simpleStatementId _ _ _ from ⟨separator, hs, he⟩)
    rw [chooseAt_program, opensCompound_of_opensFactor ho, ho]
    rfl
  · obtain ⟨rfl, separator, hs, rfl⟩ := h
    refine readBy_choice ?_ (show Meaning nullStatementId _ _ _ from ⟨rfl, separator, hs, rfl⟩)
    rw [front_cons, chooseAt_program, hs.opensCompound_eq, hs.opensFactor_eq,
      hs.isLiteral_separators]
    rfl

/-! ## All rules -/

/-- What is read by the elements of a rule supports its meaning. -/
theorem ReadBy.supported {id : RuleId} {kind : Tree.BranchKind} {elements : List Element}
    (h : ReadBy kind elements tokens tree rest) (hkind : (full.grammar.rule id).kind = .branch kind)
    (helements : (full.grammar.rule id).elements = elements) :
    ∃ kind trees, (full.grammar.rule id).kind = .branch kind ∧ tree = .group kind trees ∧
      ReadsAll full.grammar Meaning (full.grammar.rule id).elements tokens trees rest := by
  obtain ⟨trees, htree, hreads⟩ := h
  exact ⟨kind, trees, hkind, htree, by rw [helements]; exact hreads⟩

/-- Whatever the rules mean is read by them. -/
theorem supported_meaning : Supported full.grammar Meaning := by
  intro id tokens tree rest h
  match id with
  | exprId => exact (readBy_expr h).supported rfl rfl
  | compoundId => exact (readBy_compound h).supported rfl rfl
  | parenId => exact (readBy_paren h.1 h.2).supported rfl rfl
  | numberId => exact (readBy_number h.1 h.2).supported rfl rfl
  | nameId => exact (readBy_name h.1 h.2).supported rfl rfl
  | stringId => exact (readBy_string h.1 h.2).supported rfl rfl
  | primaryId => exact (readBy_primary h.1 h.2).supported rfl rfl
  | negativeId => exact (readBy_negative h.1.1 h.1.2 h.2).supported rfl rfl
  | factorId => exact (readBy_factor h.1 h.2).supported rfl rfl
  | simpleId => exact (readBy_simple h).supported rfl rfl
  | separatorId => exact (readBy_separator rfl h).supported rfl rfl
  | blockEndId =>
      obtain ⟨rfl, rfl, hbrace⟩ := h
      exact ⟨.list, [], rfl, rfl, readsAll_ahead.2 ⟨hbrace, .nil⟩⟩
  | blockSimpleId => exact (readBy_blockSimple h).supported rfl rfl
  | blockStatementId => exact (readBy_blockStatement h).supported rfl rfl
  | blockId => exact (readBy_block h).supported rfl rfl
  | elseId => exact (readBy_tail "else" blockId h).supported rfl rfl
  | ifId => exact (readBy_if h.1 h.2).supported rfl rfl
  | whileId => exact (readBy_while h.1.1 h.2).supported rfl rfl
  | compoundStatementId => exact (readBy_compoundStatement h).supported rfl rfl
  | simpleStatementId => exact (readBy_simpleStatement h).supported rfl rfl
  | nullStatementId => exact (readBy_separator rfl h).supported rfl rfl
  | programId => exact (readBy_program h).supported rfl rfl
  | paramId => exact (readBy_param h).supported rfl rfl
  | paramTailId => exact (readBy_tail "," paramId h).supported rfl rfl
  | paramsId =>
      obtain ⟨trees, rfl, ⟨t, rfl, hparams⟩, hstop⟩ := h
      exact (readBy_params hparams hstop).supported rfl rfl
  | paramListId =>
      obtain ⟨first, tokens', hfirst, rfl, last, hlast, hp⟩ := h
      exact (readBy_paramList hfirst hlast hp).supported rfl rfl
  | defId => exact (readBy_def h.1.1 h.2).supported rfl rfl
  | argTailId => exact (readBy_tail "," exprId h).supported rfl rfl
  | argsId =>
      obtain ⟨trees, rfl, ⟨t, rfl, hargs⟩, hseen, hstop⟩ := h
      exact (readBy_args hargs hseen hstop).supported rfl rfl
  | callId => exact (readBy_call h).supported rfl rfl
  | id + 30 =>
      obtain ⟨rfl, rfl⟩ := h
      exact ⟨.list, [], rfl, rfl, .nil⟩

end Language

end TreeScript
