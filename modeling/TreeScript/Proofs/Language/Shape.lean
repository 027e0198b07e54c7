import TreeScript.Proofs.Language.Rules

/-!
# The shapes of trees

Which trees the two languages give. A tree of an expression is a literal, a variable, a negated
operand, an operand with calls, or two operands with an operator of the table between them. A
tree of a statement is one of these or has the children that its kind needs. No block holds a
statement that does nothing, and no list is left.

`Shape` says this of each rule. It is closed for the full language and for the basic one: these
share their rules but for two, so most lemmas are about any grammar.
-/

namespace TreeScript

namespace Tree

/-! ## Shapes -/

/-- The trees of expressions. -/
inductive IsExpression : Tree → Prop where
  /-- An integer literal. -/
  | number {token : Token} : token.isNumber = true → IsExpression (.leaf .number token)
  /-- A string literal. -/
  | string {token : Token} : token.isString = true → IsExpression (.leaf .string token)
  /-- A variable. -/
  | name {token : Token} : token.isName = true → IsExpression (.leaf .variable token)
  /-- A minus sign before an operand. -/
  | negative {operand : Tree} : IsExpression operand → IsExpression (.branch .negative [operand])
  /-- Two operands with an operator between them. -/
  | binary {left right : Tree} {operator : Token} {precedence : Grammar.Precedence} :
      IsExpression left → Language.operators.ofToken? operator = some precedence →
      IsExpression right →
      IsExpression (.branch .binary [left, .leaf .plain operator, right])
  /-- An operand with at least one call after it. -/
  | primary {target : Tree} {calls : List (List Tree)} :
      IsExpression target → calls ≠ [] →
      (∀ arguments ∈ calls, ∀ argument ∈ arguments, IsExpression argument) →
      IsExpression (.branch .primary (target :: calls.map (.branch .arguments)))

/-- The trees of arguments. -/
inductive IsArguments : Tree → Prop where
  /-- Any number of expressions. -/
  | arguments {arguments : List Tree} :
      (∀ argument ∈ arguments, IsExpression argument) → IsArguments (.branch .arguments arguments)

/-- The tree of one parameter. -/
inductive IsParameter : Tree → Prop where
  /-- A name. -/
  | name {token : Token} : token.isName = true → IsParameter (.leaf .plain token)

/-- The trees of parameters. -/
inductive IsParameters : Tree → Prop where
  /-- Any number of names. -/
  | parameters {parameters : List Tree} :
      (∀ parameter ∈ parameters, IsParameter parameter) →
      IsParameters (.branch .parameters parameters)

/-- The trees of statements that do something. -/
inductive IsStatement : Tree → Prop where
  /-- An expression. -/
  | expression {tree : Tree} : IsExpression tree → IsStatement tree
  /-- A choice with one block. -/
  | conditional {condition : Tree} {body : List Tree} :
      IsExpression condition → (∀ statement ∈ body, IsStatement statement) →
      IsStatement (.branch .conditional [condition, .branch .block body])
  /-- A choice with two blocks. -/
  | alternative {condition : Tree} {body body' : List Tree} :
      IsExpression condition → (∀ statement ∈ body, IsStatement statement) →
      (∀ statement ∈ body', IsStatement statement) →
      IsStatement (.branch .conditional [condition, .branch .block body, .branch .block body'])
  /-- A loop. -/
  | loop {condition : Tree} {body : List Tree} :
      IsExpression condition → (∀ statement ∈ body, IsStatement statement) →
      IsStatement (.branch .loop [condition, .branch .block body])
  /-- A definition. -/
  | definition {token : Token} {parameters : Tree} {body : List Tree} :
      token.isName = true → IsParameters parameters →
      (∀ statement ∈ body, IsStatement statement) →
      IsStatement (.branch .definition [.leaf .plain token, parameters, .branch .block body])

/-- The trees of blocks. -/
inductive IsBlock : Tree → Prop where
  /-- Any number of statements. -/
  | block {statements : List Tree} :
      (∀ statement ∈ statements, IsStatement statement) → IsBlock (.branch .block statements)

theorem IsExpression.isEmptyList_eq {tree : Tree} (h : IsExpression tree) :
    tree.isEmptyList = false := by
  cases h <;> rfl

theorem IsStatement.isNull_eq {tree : Tree} (h : IsStatement tree) : tree.isNull = false := by
  cases h with
  | expression h => cases h <;> rfl
  | conditional => rfl
  | alternative => rfl
  | loop => rfl
  | definition => rfl

end Tree

/-- The error that no source should meet: a tree that cannot be built. -/
def Grammar.ParseError.Internal (error : Grammar.ParseError) : Prop := ∃ cause, error = .shape cause

namespace Language

open Grammar TreeScript.Tree

/-- The trees that each rule gives, in a language with functions or without. -/
def Shape (functions : Bool) : RuleId → Tree → Prop
  | exprId, tree | parenId, tree | numberId, tree | nameId, tree | stringId, tree
  | primaryId, tree | negativeId, tree | factorId, tree | simpleId, tree =>
      IsExpression tree
  | blockSimpleId, tree | simpleStatementId, tree => IsExpression tree
  | compoundId, tree | ifId, tree | whileId, tree | compoundStatementId, tree => IsStatement tree
  | separatorId, tree | blockEndId, tree => tree = .branch .list []
  | blockStatementId, tree => IsStatement tree ∨ tree = .branch .list []
  | blockId, tree | elseId, tree => IsBlock tree
  | nullStatementId, tree => tree = .branch .null []
  | programId, tree => IsStatement tree ∨ tree = .branch .null []
  | paramId, tree | paramTailId, tree => functions = true → IsParameter tree
  | paramsId, tree | paramListId, tree => functions = true → IsParameters tree
  | defId, tree => functions = true → IsStatement tree
  | argTailId, tree => functions = true → IsExpression tree
  | argsId, tree | callId, tree => functions = true → IsArguments tree
  | _, _ => True

/-- The shape of the tree that a rule gives, whatever it reads. -/
abbrev Shaped (functions : Bool) : Success := fun id _ tree _ => Shape functions id tree

variable {grammar : Grammar} {functions : Bool}
variable {tokens rest : List Token} {trees : List Tree} {tree : Tree}

/-! ## Repetitions and chains -/

/-- A repetition gives trees of its rule that are not empty lists. -/
theorem forall_mem_of_repeats {rule : RuleId} {P : Tree → Prop}
    (h : Repeats grammar (Shaped functions) rule tokens trees rest)
    (hp : ∀ tree, Shape functions rule tree → tree = .branch .list [] ∨ P tree) :
    ∀ tree ∈ trees, P tree := by
  induction h with
  | done => simp
  | @more _ _ _ tree _ _ hr _ ih =>
      intro other hmem
      rcases List.mem_append.1 hmem with hmem | hmem
      · rcases hp tree hr with rfl | hp
        · simp [unlessEmpty, isEmptyList] at hmem
        · unfold unlessEmpty at hmem
          split at hmem
          · cases hmem
          · rw [List.mem_singleton] at hmem
            rw [hmem]
            exact hp
      · exact ih other hmem

theorem isExpression_of_splits {operand : Tree} {links : List Link}
    (h : Splits .binary operand links tree) (ho : IsExpression operand)
    (hl : ∀ link ∈ links, IsExpression link.operand ∧
      operators.ofToken? link.operator = some link.precedence) : IsExpression tree := by
  induction h with
  | single => exact ho
  | @split operand before link after left right _ _ _ _ _ ihl ihr =>
      have hlink := hl link (by simp)
      refine .binary (ihl ho fun other hmem => hl other (by simp [hmem])) hlink.2 ?_
      exact ihr hlink.1 fun other hmem => hl other (by simp [hmem])

theorem forall_link_of_chains {links : List Link}
    (h : Chains (Shaped functions) factorId operators (fun _ => true) tokens links rest) :
    ∀ link ∈ links, IsExpression link.operand ∧
      operators.ofToken? link.operator = some link.precedence := by
  induction h with
  | done => simp
  | more ho _ hr _ ih =>
      intro link hmem
      rcases List.mem_cons.1 hmem with rfl | hmem
      · exact ⟨hr, ho⟩
      · exact ih link hmem

/-- Calls are branches of arguments. -/
theorem exists_calls : ∀ {calls : List Tree}, (∀ call ∈ calls, IsArguments call) →
    ∃ arguments : List (List Tree), calls = arguments.map (.branch .arguments) ∧
      ∀ some ∈ arguments, ∀ argument ∈ some, IsExpression argument
  | [], _ => ⟨[], rfl, by simp⟩
  | call :: calls, h => by
      obtain ⟨arguments, rfl, ha⟩ := exists_calls fun call hmem =>
        h call (List.mem_cons_of_mem _ hmem)
      cases h call List.mem_cons_self with
      | @arguments first hfirst => exact ⟨first :: arguments, rfl, by simpa using ⟨hfirst, ha⟩⟩

/-! ## Expressions -/

theorem shape_expr (h : ReadsAll grammar (Shaped functions)
    [.expression factorId operators (.branch .binary)] tokens trees rest) :
    IsExpression (.group .list trees) := by
  simp only [readsAll_expression, readsAll_nil] at h
  obtain ⟨operand, links, _, _, _, rfl, ho, hchain, rfl, rfl⟩ := h
  have hlinks := forall_link_of_chains hchain
  refine isExpression_of_splits ?_ ho hlinks
  exact splits_climb .binary operand links
    (consistent_operators.links fun link hmem => (hlinks link hmem).2)

theorem shape_number (h : ReadsAll grammar (Shaped functions)
    [.token .number (.leaf .number)] tokens trees rest) : IsExpression (.group .list trees) := by
  simp only [readsAll_token, readsAll_nil] at h
  obtain ⟨token, _, _, rfl, rfl, haccepts, rfl, rfl⟩ := h
  exact .number haccepts

theorem shape_name (h : ReadsAll grammar (Shaped functions)
    [.token .name (.leaf .variable)] tokens trees rest) : IsExpression (.group .list trees) := by
  simp only [readsAll_token, readsAll_nil] at h
  obtain ⟨token, _, _, rfl, rfl, haccepts, rfl, rfl⟩ := h
  exact .name (Bool.and_eq_true_iff.1 haccepts).1

theorem shape_string (h : ReadsAll grammar (Shaped functions)
    [.token .string (.leaf .string)] tokens trees rest) : IsExpression (.group .list trees) := by
  simp only [readsAll_token, readsAll_nil] at h
  obtain ⟨token, _, _, rfl, rfl, haccepts, rfl, rfl⟩ := h
  exact .string haccepts

/-- A rule that reads one tree between texts that are dropped gives that tree. -/
theorem shape_enclosed {first last : List String} (rule : RuleId)
    (h : ReadsAll grammar (Shaped functions)
    [.literal first false, .tree rule, .literal last false] tokens trees rest) :
    Shape functions rule (.group .list trees) := by
  simp only [readsAll_dropped, readsAll_tree, readsAll_nil] at h
  obtain ⟨_, _, rfl, _, tree, _, _, rfl, hr, _, _, rfl, _, rfl, rfl⟩ := h
  exact hr

/-- A rule that reads one tree after a text that is dropped gives that tree. -/
theorem shape_tail {first : List String} (rule : RuleId)
    (h : ReadsAll grammar (Shaped functions) [.literal first false, .tree rule] tokens trees rest) :
    Shape functions rule (.group .list trees) := by
  simp only [readsAll_dropped, readsAll_tree, readsAll_nil] at h
  obtain ⟨_, _, rfl, _, tree, _, _, rfl, hr, rfl, rfl⟩ := h
  exact hr

/-- A rule that reads one tree gives that tree. -/
theorem shape_single (rule : RuleId)
    (h : ReadsAll grammar (Shaped functions) [.tree rule] tokens trees rest) :
    Shape functions rule (.group .list trees) := by
  simp only [readsAll_tree, readsAll_nil] at h
  obtain ⟨tree, _, _, rfl, hr, rfl, rfl⟩ := h
  exact hr

/-- A rule that chooses gives what the rules it chooses from give. -/
theorem shape_choice {rules : List RuleId} {P : Tree → Prop}
    (h : ReadsAll grammar (Shaped functions) [.choice rules] tokens trees rest)
    (hp : ∀ rule ∈ rules, ∀ tree, Shape functions rule tree → P tree) : P (.group .list trees) := by
  simp only [readsAll_choice, readsAll_nil] at h
  obtain ⟨rule, tree, _, _, rfl, hchoose, hr, rfl, rfl⟩ := h
  rw [List.append_nil, group_unlessEmpty]
  exact hp rule (mem_of_firstAt hchoose) tree hr

/-- Each atom is an expression. -/
theorem shape_atom {rule : RuleId} (hmem : rule ∈ [parenId, numberId, nameId, stringId])
    (h : Shape functions rule tree) :
    IsExpression tree := by
  simp only [List.mem_cons, List.not_mem_nil, or_false] at hmem
  rcases hmem with rfl | rfl | rfl | rfl
  · exact h
  · exact h
  · exact h
  · exact h

/-- In the basic language an operand is followed by nothing. -/
theorem shape_primary_basic
    (h : ReadsAll grammar (Shaped functions) [.choice [parenId, numberId, nameId, stringId]]
      tokens trees rest) :
    IsExpression (.group .primary trees) := by
  simp only [readsAll_choice, readsAll_nil] at h
  obtain ⟨rule, tree, _, _, rfl, hchoose, hr, rfl, rfl⟩ := h
  have hatom := shape_atom (mem_of_firstAt hchoose) hr
  rw [unlessEmpty_of_not_isEmptyList hatom.isEmptyList_eq]
  exact hatom

/-- An operand with calls is an expression, and so is one without. -/
theorem shape_primary (h : ReadsAll grammar (Shaped true)
    [.choice [parenId, numberId, nameId, stringId], .repeated callId .any] tokens trees rest) :
    IsExpression (.group .primary trees) := by
  simp only [readsAll_choice, readsAll_many, readsAll_nil] at h
  obtain ⟨rule, tree, _, _, rfl, hchoose, hr, calls, _, _, rfl, hmany, rfl, rfl⟩ := h
  have hatom := shape_atom (mem_of_firstAt hchoose) hr
  have hcalls : ∀ call ∈ calls, IsArguments call :=
    forall_mem_of_repeats hmany fun _ h => .inr (h rfl)
  obtain ⟨arguments, rfl, ha⟩ := exists_calls hcalls
  rw [unlessEmpty_of_not_isEmptyList hatom.isEmptyList_eq, List.append_nil]
  cases arguments with
  | nil => exact hatom
  | cons first arguments => exact .primary hatom (List.cons_ne_nil _ _) ha

theorem shape_negative (h : ReadsAll grammar (Shaped functions)
    [.literal ["-"] false, .tree primaryId] tokens trees rest) :
    IsExpression (.group .negative trees) := by
  simp only [readsAll_dropped, readsAll_tree, readsAll_nil] at h
  obtain ⟨_, _, rfl, _, tree, _, _, rfl, hr, rfl, rfl⟩ := h
  exact .negative hr

theorem shape_args (h : ReadsAll grammar (Shaped true)
    [.tree exprId, .repeated argTailId .any] tokens trees rest) :
    IsArguments (.group .arguments trees) := by
  simp only [readsAll_tree, readsAll_many, readsAll_nil] at h
  obtain ⟨tree, _, _, rfl, hr, found, _, _, rfl, hmany, rfl, rfl⟩ := h
  have hfound : ∀ tree ∈ found, IsExpression tree :=
    forall_mem_of_repeats hmany fun _ h => .inr (h rfl)
  exact .arguments (by simpa using ⟨hr, hfound⟩)

/-- A rule that may be empty gives its own trees or an empty one. -/
theorem shape_orEmpty {first last : List String} (rule : RuleId) {kind : Tree.BranchKind}
    (h : ReadsAll grammar (Shaped functions)
      [.literal first false, .orEmpty rule, .literal last false] tokens trees rest)
    (hkind : (grammar.rule rule).kind = .branch kind) :
    Tree.group .list trees = .group kind [] ∨ Shape functions rule (.group .list trees) := by
  simp only [readsAll_dropped, readsAll_orEmpty, readsAll_nil] at h
  obtain ⟨_, _, rfl, _, h⟩ := h
  rcases h with ⟨kind', _, rfl, _, hkind', _, _, rfl, _, rfl, rfl⟩ |
    ⟨tree, _, _, rfl, _, hr, _, _, rfl, _, rfl, rfl⟩
  · rw [hkind] at hkind'
    cases hkind'
    exact .inl rfl
  · exact .inr hr

/-! ## Statements -/

theorem shape_separator {texts : List String} {kind : Tree.BranchKind}
    (hkind : Tree.group kind [] = .branch kind [])
    (h : ReadsAll grammar (Shaped functions) [.literal texts false] tokens trees rest) :
    Tree.group kind trees = .branch kind [] := by
  simp only [readsAll_dropped, readsAll_nil] at h
  obtain ⟨_, _, rfl, _, rfl, rfl⟩ := h
  exact hkind

theorem shape_blockEnd {texts : List String}
    (h : ReadsAll grammar (Shaped functions) [.ahead texts] tokens trees rest) :
    Tree.group .list trees = .branch .list [] := by
  simp only [readsAll_ahead, readsAll_nil] at h
  obtain ⟨_, rfl, rfl⟩ := h
  rfl

theorem shape_blockSimple (h : ReadsAll grammar (Shaped functions)
    [.tree simpleId, .choice [separatorId, blockEndId]] tokens trees rest) :
    IsExpression (.group .list trees) := by
  simp only [readsAll_tree, readsAll_choice, readsAll_nil] at h
  obtain ⟨tree, _, _, rfl, hr, rule, separator, _, _, rfl, hchoose, hs, rfl, rfl⟩ := h
  have hempty : separator = .branch .list [] := by
    have hmem := mem_of_firstAt hchoose
    simp only [List.mem_cons, List.not_mem_nil, or_false] at hmem
    rcases hmem with rfl | rfl
    · exact hs
    · exact hs
  subst hempty
  exact hr

/-- A statement of a block is one of the three, or an empty list for a separator. -/
theorem shape_blockStatement
    (h : ReadsAll grammar (Shaped functions) [.choice [compoundId, blockSimpleId, separatorId]]
      tokens trees rest) :
    Shape functions blockStatementId (.group .list trees) := by
  refine shape_choice h fun rule hmem tree hr => ?_
  simp only [List.mem_cons, List.not_mem_nil, or_false] at hmem
  rcases hmem with rfl | rfl | rfl
  · exact .inl hr
  · exact .inl (.expression hr)
  · exact .inr hr

/-- A block holds statements. The empty lists of separators are dropped. -/
theorem shape_block {first last : List String} (h : ReadsAll grammar (Shaped functions)
    [.literal first false, .repeated blockStatementId .any, .literal last false]
      tokens trees rest) :
    IsBlock (.group .block trees) := by
  simp only [readsAll_dropped, readsAll_many, readsAll_nil] at h
  obtain ⟨_, _, rfl, _, found, _, _, rfl, hmany, _, _, rfl, _, rfl, rfl⟩ := h
  rw [List.append_nil]
  exact .block (forall_mem_of_repeats hmany fun _ h => h.symm)

/-- There are a condition and a block, and perhaps another block. -/
theorem shape_if (h : ReadsAll grammar (Shaped functions)
    [.literal ["if"] false, .tree exprId, .tree blockId, .repeated elseId .atMostOnce]
      tokens trees rest) :
    IsStatement (.group .conditional trees) := by
  simp only [readsAll_dropped, readsAll_tree, readsAll_once, readsAll_nil] at h
  obtain ⟨_, _, rfl, _, condition, _, _, rfl, hc, body, _, _, rfl, hb, h⟩ := h
  cases hb with
  | block hbody =>
      rcases h with ⟨_, rfl, rfl⟩ | ⟨body', _, _, rfl, _, hb', rfl, rfl⟩
      · exact .conditional hc hbody
      · cases hb' with
        | block hbody' => exact .alternative hc hbody hbody'

theorem shape_while (h : ReadsAll grammar (Shaped functions)
    [.literal ["while"] false, .tree exprId, .tree blockId] tokens trees rest) :
    IsStatement (.group .loop trees) := by
  simp only [readsAll_dropped, readsAll_tree, readsAll_nil] at h
  obtain ⟨_, _, rfl, _, condition, _, _, rfl, hc, body, _, _, rfl, hb, rfl, rfl⟩ := h
  cases hb with
  | block hbody => exact .loop hc hbody

/-- Each compound statement is a statement. -/
theorem shape_compound
    (h : ReadsAll grammar (Shaped true) [.choice [defId, ifId, whileId]] tokens trees rest) :
    IsStatement (.group .list trees) := by
  refine shape_choice h fun rule hmem tree hr => ?_
  simp only [List.mem_cons, List.not_mem_nil, or_false] at hmem
  rcases hmem with rfl | rfl | rfl
  · exact hr rfl
  · exact hr
  · exact hr

/-- In the basic language there are no definitions. -/
theorem shape_compound_basic
    (h : ReadsAll grammar (Shaped functions) [.choice [ifId, whileId]] tokens trees rest) :
    IsStatement (.group .list trees) := by
  refine shape_choice h fun rule hmem tree hr => ?_
  simp only [List.mem_cons, List.not_mem_nil, or_false] at hmem
  rcases hmem with rfl | rfl
  · exact hr
  · exact hr

theorem shape_compoundStatement (h : ReadsAll grammar (Shaped functions)
    [.tree compoundId, .repeated separatorId .atMostOnce] tokens trees rest) :
    IsStatement (.group .list trees) := by
  simp only [readsAll_tree, readsAll_once, readsAll_nil] at h
  obtain ⟨tree, _, _, rfl, hr, h⟩ := h
  rcases h with ⟨_, rfl, rfl⟩ | ⟨separator, _, _, rfl, _, hs, rfl, rfl⟩
  · exact hr
  · obtain rfl : separator = .branch .list [] := hs
    exact hr

theorem shape_simpleStatement {texts : List String} (h : ReadsAll grammar (Shaped functions)
    [.tree simpleId, .literal texts false] tokens trees rest) :
    IsExpression (.group .list trees) := by
  simp only [readsAll_tree, readsAll_dropped, readsAll_nil] at h
  obtain ⟨tree, _, _, rfl, hr, _, _, rfl, _, rfl, rfl⟩ := h
  exact hr

/-- A statement at the top is one of the three. -/
theorem shape_program
    (h : ReadsAll grammar (Shaped functions)
      [.choice [compoundStatementId, simpleStatementId, nullStatementId]] tokens trees rest) :
    Shape functions programId (.group .list trees) := by
  refine shape_choice h fun rule hmem tree hr => ?_
  simp only [List.mem_cons, List.not_mem_nil, or_false] at hmem
  rcases hmem with rfl | rfl | rfl
  · exact .inl hr
  · exact .inl (.expression hr)
  · exact .inr hr

theorem shape_param (h : ReadsAll grammar (Shaped functions)
    [.token .name (.leaf .plain)] tokens trees rest) : IsParameter (.group .list trees) := by
  simp only [readsAll_token, readsAll_nil] at h
  obtain ⟨token, _, _, rfl, rfl, haccepts, rfl, rfl⟩ := h
  exact .name (Bool.and_eq_true_iff.1 haccepts).1

theorem shape_params (h : ReadsAll grammar (Shaped true)
    [.tree paramId, .repeated paramTailId .any] tokens trees rest) :
    IsParameters (.group .parameters trees) := by
  simp only [readsAll_tree, readsAll_many, readsAll_nil] at h
  obtain ⟨tree, _, _, rfl, hr, found, _, _, rfl, hmany, rfl, rfl⟩ := h
  have hfound : ∀ tree ∈ found, IsParameter tree :=
    forall_mem_of_repeats hmany fun _ h => .inr (h rfl)
  exact .parameters (by simpa using ⟨hr rfl, hfound⟩)

/-- There are a name, parameters and a block. -/
theorem shape_def (h : ReadsAll grammar (Shaped true)
    [.literal ["def"] false, .token .name (.leaf .plain), .tree paramListId, .tree blockId]
      tokens trees rest) :
    IsStatement (.group .definition trees) := by
  simp only [readsAll_dropped, readsAll_token, readsAll_tree, readsAll_nil] at h
  obtain ⟨_, _, rfl, _, name, _, _, rfl, rfl, haccepts, parameters, _, _, rfl, hp, body, _, _, rfl,
    hb, rfl, rfl⟩ := h
  cases hb with
  | block hbody => exact .definition (Bool.and_eq_true_iff.1 haccepts).1 (hp rfl) hbody

/-! ## All rules -/

/-- What holds of the rules that both languages have. -/
theorem shape_common {id : RuleId} {kind : Tree.BranchKind} (hid : id < basicSize)
    (hc : id ≠ compoundId) (hp : id ≠ primaryId)
    (hkind : (full.grammar.rule id).kind = .branch kind)
    (h : ReadsAll grammar (Shaped functions) (full.grammar.rule id).elements tokens trees rest) :
    Shape functions id (.group kind trees) := by
  match id with
  | exprId => cases hkind; exact shape_expr h
  | compoundId => exact absurd rfl hc
  | parenId => cases hkind; exact shape_enclosed exprId h
  | numberId => cases hkind; exact shape_number h
  | nameId => cases hkind; exact shape_name h
  | stringId => cases hkind; exact shape_string h
  | primaryId => exact absurd rfl hp
  | negativeId => cases hkind; exact shape_negative h
  | factorId =>
      cases hkind
      refine shape_choice h fun rule hmem tree hr => ?_
      simp only [List.mem_cons, List.not_mem_nil, or_false] at hmem
      rcases hmem with rfl | rfl
      · exact hr
      · exact hr
  | simpleId => cases hkind; exact shape_single exprId h
  | separatorId => cases hkind; exact shape_separator rfl h
  | blockEndId => cases hkind; exact shape_blockEnd h
  | blockSimpleId => cases hkind; exact shape_blockSimple h
  | blockStatementId => cases hkind; exact shape_blockStatement h
  | blockId => cases hkind; exact shape_block h
  | elseId => cases hkind; exact shape_tail blockId h
  | ifId => cases hkind; exact shape_if h
  | whileId => cases hkind; exact shape_while h
  | compoundStatementId => cases hkind; exact shape_compoundStatement h
  | simpleStatementId => cases hkind; exact shape_simpleStatement h
  | nullStatementId => cases hkind; exact shape_separator rfl h
  | programId => cases hkind; exact shape_program h
  | id + 22 => exact absurd hid (Nat.not_lt.2 (Nat.le_add_left 22 id))

/-- Every tree of the full language has the shape of its rule. -/
theorem closed_shape_full : Closed full.grammar (Shaped true) := by
  intro id kind tokens trees rest hkind h
  match id with
  | compoundId => cases hkind; exact shape_compound h
  | primaryId => cases hkind; exact shape_primary h
  | paramId => cases hkind; exact fun _ => shape_param h
  | paramTailId => cases hkind; exact shape_tail paramId h
  | paramsId => cases hkind; exact fun _ => shape_params h
  | paramListId =>
      cases hkind
      rcases shape_orEmpty paramsId h rfl with he | hp
      · rw [he]
        exact fun _ => .parameters (by simp)
      · exact hp
  | defId => cases hkind; exact fun _ => shape_def h
  | argTailId => cases hkind; exact fun _ => shape_tail exprId h
  | argsId => cases hkind; exact fun _ => shape_args h
  | callId =>
      cases hkind
      rcases shape_orEmpty argsId h rfl with he | ha
      · rw [he]
        exact fun _ => .arguments (by simp)
      · exact ha
  | id + 30 => trivial
  | exprId | parenId | numberId | nameId | stringId | negativeId | factorId | simpleId
  | separatorId | blockEndId | blockSimpleId | blockStatementId | blockId | elseId | ifId
  | whileId | compoundStatementId | simpleStatementId | nullStatementId | programId =>
      exact shape_common (by decide) (by decide) (by decide) hkind h

/-- The languages share their rules but for those that functions change. -/
theorem rule_basic_eq : ∀ id < basicSize, id ≠ compoundId → id ≠ primaryId →
    basic.grammar.rule id = full.grammar.rule id := by decide +kernel

/-- Every tree of the basic language has the shape of its rule. -/
theorem closed_shape_basic : Closed basic.grammar (Shaped false) := by
  intro id kind tokens trees rest hkind h
  match id with
  | compoundId => cases hkind; exact shape_compound_basic h
  | primaryId => cases hkind; exact shape_primary_basic h
  | paramId | paramTailId | paramsId | paramListId | defId | argTailId | argsId | callId =>
      exact fun hf => absurd hf (by decide)
  | id + 30 => trivial
  | exprId | parenId | numberId | nameId | stringId | negativeId | factorId | simpleId
  | separatorId | blockEndId | blockSimpleId | blockStatementId | blockId | elseId | ifId
  | whileId | compoundStatementId | simpleStatementId | nullStatementId | programId =>
      rw [rule_basic_eq _ (by decide) (by decide) (by decide)] at hkind h
      exact shape_common (by decide) (by decide) (by decide) hkind h

/-- Parsing gives trees of the right shape, and never fails to build one. -/
theorem ensures_shape (hc : Closed grammar (Shaped functions)) (hw : grammar.WellKinded)
    (id : RuleId) (stream : TokenStream) :
    (grammar.parse id).Ensures stream (fun tree _ => Shape functions id tree)
      fun error _ => ¬ error.Internal := by
  obtain ⟨tokens, tail, hs⟩ := stream.exists_shows
  refine ensures_parse fun n =>
    (ensures_parseWithin hc hw.failureClosed n id stream tokens hs).mono ?_ ?_
  · rintro tree stream' ⟨rest, -, hshape⟩
    exact hshape
  · rintro error _ he ⟨cause, rfl⟩
    generalize hcause : ParseError.shape cause = error at he
    cases he with
    | unexpected =>
        unfold ParseError.ofToken at hcause
        split at hcause
        · cases hcause
        · cases hcause
    | unread => cases hcause
    | shape h => exact absurd rfl h

/-- A statement at the top does something or is null. -/
theorem ensures_statement_shape {language : Language} (hl : language = full ∨ language = basic)
    (stream : TokenStream) :
    language.statement.Ensures stream (fun tree _ => IsStatement tree ∨ tree = .branch .null [])
      fun error _ => ¬ error.Internal := by
  rcases hl with rfl | rfl
  · exact ensures_shape closed_shape_full wellKinded_full programId stream
  · exact ensures_shape closed_shape_basic wellKinded_basic programId stream

/-- A statement at the top is read or refused in both languages. -/
theorem ends_statement {language : Language} (hl : language = full ∨ language = basic)
    (stream : TokenStream) : language.statement.Ends stream := by
  rcases hl with rfl | rfl
  · exact ends_statement_full stream
  · exact ends_statement_basic stream

end Language

end TreeScript
