import TreeScript.Proofs.Grammar.Climb
import TreeScript.Proofs.Grammar.Starts

/-!
# How elements read tokens

Parsing goes through the rules of a grammar, but what one rule does is settled by what the
rules in it do. This module says how, on lists of tokens and without streams, budgets and
journals.

A `Success` says which tree a rule gives on the tokens before it and which tokens it
leaves. A `Failure` says at which tokens it stops and why: the next token does not fit or
cannot be read, or the grammar asks for a tree that cannot be built. Given both for rules,
`ReadsAll` and `FailsAll` say what a sequence of elements does.

A success is `Closed` if it holds of whatever its rules read. It is `Supported` if whatever
it holds of is read by its rules. What is read agrees with every supported success
(`ReadsAll.agree`), and nothing fails where one holds (`FailsAll.absurd`).
-/

namespace TreeScript

namespace Grammar

/-- Why a rule stops. -/
inductive Cause where
  /-- The next token does not fit. -/
  | unexpected (message : String)
  /-- The next token cannot be read. -/
  | unread
  /-- A tree cannot be built, as its kind is of the wrong sort. -/
  | shape
deriving DecidableEq, Repr

/-- Which tree a rule gives on the tokens before it, and which tokens it leaves. -/
abbrev Success := RuleId → List Token → Tree → List Token → Prop

/-- At which tokens a rule stops, and why. -/
abbrev Failure := RuleId → List Token → List Token → Cause → Prop

section Relations

variable (grammar : Grammar) (R : Success) (F : Failure)

/-! ## Reading -/

/-- A rule as often as it could start. -/
inductive Repeats (rule : RuleId) : List Token → List Tree → List Token → Prop where
  /-- The rule could not start. -/
  | done {tokens : List Token} :
      grammar.startsAt rule (front tokens) = some false → Repeats rule tokens [] tokens
  /-- The rule is read once more. -/
  | more {tokens tokens' rest : List Token} {tree : Tree} {trees : List Tree} :
      grammar.startsAt rule (front tokens) = some true →
      R rule tokens tree tokens' →
      Repeats rule tokens' trees rest →
      Repeats rule tokens (unlessEmpty tree ++ trees) rest

/-- Links as long as the next token is an operator that is taken. -/
inductive Chains (factor : RuleId) (operators : Operators) (takes : Precedence → Bool) :
    List Token → List Link → List Token → Prop where
  /-- No operator comes next, or it is not taken. -/
  | done {tokens : List Token} :
      (∀ precedence, operators.ofToken? (front tokens) = some precedence →
        takes precedence = false) →
      Chains factor operators takes tokens [] tokens
  /-- An operator and its operand are read. -/
  | more {operator : Token} {precedence : Precedence} {operand : Tree}
      {tokens tokens' rest : List Token} {links : List Link} :
      operators.ofToken? operator = some precedence →
      takes precedence = true →
      R factor tokens operand tokens' →
      Chains factor operators takes tokens' links rest →
      Chains factor operators takes (operator :: tokens)
        (⟨operator, precedence, operand⟩ :: links) rest

/-- The trees that an element gives. -/
inductive Reads : Element → List Token → List Tree → List Token → Prop where
  /-- What another rule gives. -/
  | tree {rule : RuleId} {tokens rest : List Token} {tree : Tree} :
      R rule tokens tree rest → Reads (.tree rule) tokens [tree] rest
  /-- What the chosen rule gives. -/
  | choice {rules : List RuleId} {rule : RuleId} {tokens rest : List Token} {tree : Tree} :
      grammar.chooseAt rules (front tokens) = some (some rule) →
      R rule tokens tree rest →
      Reads (.choice rules) tokens (unlessEmpty tree) rest
  /-- Any number of times. -/
  | many {rule : RuleId} {tokens rest : List Token} {trees : List Tree} :
      Repeats grammar R rule tokens trees rest → Reads (.repeated rule .any) tokens trees rest
  /-- Not at all. -/
  | never {rule : RuleId} {tokens : List Token} :
      grammar.startsAt rule (front tokens) = some false →
      Reads (.repeated rule .atMostOnce) tokens [] tokens
  /-- Once. -/
  | once {rule : RuleId} {tokens rest : List Token} {tree : Tree} :
      grammar.startsAt rule (front tokens) = some true →
      R rule tokens tree rest →
      Reads (.repeated rule .atMostOnce) tokens (unlessEmpty tree) rest
  /-- An empty tree. -/
  | empty {rule : RuleId} {kind : Tree.BranchKind} {tokens : List Token} :
      grammar.startsAt rule (front tokens) = some false →
      (grammar.rule rule).kind = .branch kind →
      Reads (.orEmpty rule) tokens [.group kind []] tokens
  /-- A tree that could have been empty. -/
  | filled {rule : RuleId} {tokens rest : List Token} {tree : Tree} :
      grammar.startsAt rule (front tokens) = some true →
      R rule tokens tree rest →
      Reads (.orEmpty rule) tokens [tree] rest
  /-- A token of a class. -/
  | token {wanted : TokenClass} {kind : Tree.LeafKind} {token : Token} {rest : List Token} :
      grammar.accepts wanted token = true →
      Reads (.token wanted (.leaf kind)) (token :: rest) [.leaf kind token] rest
  /-- A text that is dropped. -/
  | dropped {texts : List String} {token : Token} {rest : List Token} :
      isLiteral texts token = true → Reads (.literal texts false) (token :: rest) [] rest
  /-- A text that is kept. -/
  | kept {texts : List String} {token : Token} {rest : List Token} :
      isLiteral texts token = true →
      Reads (.literal texts true) (token :: rest) [.leaf .plain token] rest
  /-- A text that stays where it is. -/
  | ahead {texts : List String} {tokens : List Token} :
      isLiteral texts (front tokens) = true → Reads (.ahead texts) tokens [] tokens
  /-- Operands with operators between them. A kind of leaf holds no operator. -/
  | expression {factor : RuleId} {operators : Operators} {kind : Tree.Kind}
      {branchKind : Tree.BranchKind} {tokens tokens' rest : List Token} {operand : Tree}
      {links : List Link} :
      kind = .branch branchKind ∨ links = [] →
      R factor tokens operand tokens' →
      Chains R factor operators (fun _ => true) tokens' links rest →
      Reads (.expression factor operators kind) tokens [climb branchKind operand links] rest

/-- The trees that a sequence of elements gives. -/
inductive ReadsAll : List Element → List Token → List Tree → List Token → Prop where
  /-- No element gives no tree. -/
  | nil {tokens : List Token} : ReadsAll [] tokens [] tokens
  /-- One element after another. -/
  | cons {element : Element} {elements : List Element} {tokens tokens' rest : List Token}
      {trees trees' : List Tree} :
      Reads grammar R element tokens trees tokens' →
      ReadsAll elements tokens' trees' rest →
      ReadsAll (element :: elements) tokens (trees ++ trees') rest

/-! ## Failing -/

/-- A repetition fails the first time or later. -/
inductive RepeatsFail (rule : RuleId) : List Token → List Token → Cause → Prop where
  /-- Whether the rule could start is not known. -/
  | unread : RepeatsFail rule [] [] .unread
  /-- The rule fails. -/
  | now {tokens rest : List Token} {cause : Cause} :
      grammar.startsAt rule (front tokens) = some true →
      F rule tokens rest cause →
      RepeatsFail rule tokens rest cause
  /-- The rule is read once more before it fails. -/
  | later {tokens tokens' rest : List Token} {tree : Tree} {cause : Cause} :
      grammar.startsAt rule (front tokens) = some true →
      R rule tokens tree tokens' →
      RepeatsFail rule tokens' rest cause →
      RepeatsFail rule tokens rest cause

/-- A chain fails at its first operand or later. -/
inductive ChainsFail (factor : RuleId) (operators : Operators) (kind : Tree.Kind) :
    List Token → List Token → Cause → Prop where
  /-- Whether an operator comes next is not known. -/
  | unread : ChainsFail factor operators kind [] [] .unread
  /-- The operand of an operator fails. -/
  | now {operator : Token} {precedence : Precedence} {tokens rest : List Token}
      {cause : Cause} :
      operators.ofToken? operator = some precedence →
      F factor tokens rest cause →
      ChainsFail factor operators kind (operator :: tokens) rest cause
  /-- A kind of leaf holds no operator. -/
  | shape {operator : Token} {precedence : Precedence} {leafKind : Tree.LeafKind}
      {tokens rest : List Token} :
      operators.ofToken? operator = some precedence →
      kind = .leaf leafKind →
      ChainsFail factor operators kind (operator :: tokens) rest .shape
  /-- An operator and its operand are read before the chain fails. -/
  | later {operator : Token} {precedence : Precedence} {operand : Tree}
      {tokens tokens' rest : List Token} {cause : Cause} :
      operators.ofToken? operator = some precedence →
      R factor tokens operand tokens' →
      ChainsFail factor operators kind tokens' rest cause →
      ChainsFail factor operators kind (operator :: tokens) rest cause

/-- Where an element stops. -/
inductive Fails : Element → List Token → List Token → Cause → Prop where
  /-- The next token cannot be read. -/
  | unread {element : Element} : Fails element [] [] .unread
  /-- Another rule fails. -/
  | tree {rule : RuleId} {tokens rest : List Token} {cause : Cause} :
      F rule tokens rest cause → Fails (.tree rule) tokens rest cause
  /-- The chosen rule fails. -/
  | chosen {rules : List RuleId} {rule : RuleId} {tokens rest : List Token}
      {cause : Cause} :
      grammar.chooseAt rules (front tokens) = some (some rule) →
      F rule tokens rest cause →
      Fails (.choice rules) tokens rest cause
  /-- No rule could start. -/
  | unchosen {rules : List RuleId} {tokens : List Token} :
      grammar.chooseAt rules (front tokens) = some none →
      Fails (.choice rules) tokens tokens (.unexpected "unexpected token.")
  /-- A repetition fails. -/
  | many {rule : RuleId} {tokens rest : List Token} {cause : Cause} :
      RepeatsFail grammar R F rule tokens rest cause →
      Fails (.repeated rule .any) tokens rest cause
  /-- The rule that comes at most once fails. -/
  | once {rule : RuleId} {tokens rest : List Token} {cause : Cause} :
      grammar.startsAt rule (front tokens) = some true →
      F rule tokens rest cause →
      Fails (.repeated rule .atMostOnce) tokens rest cause
  /-- The rule that may be empty fails. -/
  | filled {rule : RuleId} {tokens rest : List Token} {cause : Cause} :
      grammar.startsAt rule (front tokens) = some true →
      F rule tokens rest cause →
      Fails (.orEmpty rule) tokens rest cause
  /-- A kind of leaf is never empty. -/
  | shapeEmpty {rule : RuleId} {kind : Tree.LeafKind} {tokens : List Token} :
      grammar.startsAt rule (front tokens) = some false →
      (grammar.rule rule).kind = .leaf kind →
      Fails (.orEmpty rule) tokens tokens .shape
  /-- A kind of branch holds no token. -/
  | shapeToken {wanted : TokenClass} {kind : Tree.BranchKind} {tokens rest : List Token} :
      Fails (.token wanted (.branch kind)) tokens rest .shape
  /-- A token of another class. -/
  | token {wanted : TokenClass} {kind : Tree.Kind} {tokens : List Token} :
      grammar.accepts wanted (front tokens) = false →
      Fails (.token wanted kind) tokens tokens (.unexpected wanted.expected)
  /-- Another text. -/
  | literal {texts : List String} {keep : Bool} {tokens : List Token} :
      isLiteral texts (front tokens) = false →
      Fails (.literal texts keep) tokens tokens (.unexpected (expected texts))
  /-- Another text ahead. -/
  | ahead {texts : List String} {tokens : List Token} :
      isLiteral texts (front tokens) = false →
      Fails (.ahead texts) tokens tokens (.unexpected (expected texts))
  /-- The first operand fails. -/
  | operand {factor : RuleId} {operators : Operators} {kind : Tree.Kind}
      {tokens rest : List Token} {cause : Cause} :
      F factor tokens rest cause →
      Fails (.expression factor operators kind) tokens rest cause
  /-- A later operand fails. -/
  | chain {factor : RuleId} {operators : Operators} {kind : Tree.Kind}
      {tokens tokens' rest : List Token} {operand : Tree} {cause : Cause} :
      R factor tokens operand tokens' →
      ChainsFail R F factor operators kind tokens' rest cause →
      Fails (.expression factor operators kind) tokens rest cause

/-- Where a sequence of elements stops. -/
inductive FailsAll : List Element → List Token → List Token → Cause → Prop where
  /-- The first element fails. -/
  | here {element : Element} {elements : List Element} {tokens rest : List Token}
      {cause : Cause} :
      Fails grammar R F element tokens rest cause →
      FailsAll (element :: elements) tokens rest cause
  /-- A later element fails. -/
  | there {element : Element} {elements : List Element} {tokens tokens' rest : List Token}
      {trees : List Tree} {cause : Cause} :
      Reads grammar R element tokens trees tokens' →
      FailsAll elements tokens' rest cause →
      FailsAll (element :: elements) tokens rest cause

end Relations

/-! ## Closed and supported successes -/

/-- The success holds of whatever its rules read. -/
def Closed (grammar : Grammar) (R : Success) : Prop :=
  ∀ id kind tokens trees rest, (grammar.rule id).kind = .branch kind →
    ReadsAll grammar R (grammar.rule id).elements tokens trees rest →
    R id tokens (.group kind trees) rest

/-- The failure holds of wherever its rules stop, and of rules that make no branch. -/
structure FailureClosed (grammar : Grammar) (R : Success) (F : Failure) : Prop where
  /-- An element stops. -/
  fails : ∀ id tokens rest cause,
    FailsAll grammar R F (grammar.rule id).elements tokens rest cause →
    F id tokens rest cause
  /-- A rule makes no branch. -/
  shape : ∀ id kind tokens rest, (grammar.rule id).kind = .leaf kind → F id tokens rest .shape

/-- Whatever the success holds of is read by its rules. -/
def Supported (grammar : Grammar) (A : Success) : Prop :=
  ∀ id tokens tree rest, A id tokens tree rest →
    ∃ kind trees, (grammar.rule id).kind = .branch kind ∧ tree = .group kind trees ∧
      ReadsAll grammar A (grammar.rule id).elements tokens trees rest

/-- A repetition stops where its rule could not start. -/
theorem Repeats.stop {grammar : Grammar} {R : Success} {rule : RuleId} {tokens rest : List Token}
    {trees : List Tree} (h : Repeats grammar R rule tokens trees rest) :
    grammar.startsAt rule (front rest) = some false := by
  induction h with
  | done hs => exact hs
  | more _ _ _ ih => exact ih

/-! ## Tokens that are left -/

/-- What a rule leaves is a suffix of what it had. -/
def Trims (R : Success) : Prop := ∀ id tokens tree rest, R id tokens tree rest → rest <:+ tokens

section Trims

variable {grammar : Grammar} {R : Success} (ht : Trims R)
include ht

/-- A repetition leaves a suffix. -/
theorem Repeats.suffix {rule : RuleId} {tokens rest : List Token} {trees : List Tree}
    (h : Repeats grammar R rule tokens trees rest) : rest <:+ tokens := by
  induction h with
  | done => exact List.suffix_rfl
  | more _ hr _ ih => exact ih.trans (ht _ _ _ _ hr)

/-- A chain leaves a suffix. -/
theorem Chains.suffix {factor : RuleId} {operators : Operators} {takes : Precedence → Bool}
    {tokens rest : List Token} {links : List Link}
    (h : Chains R factor operators takes tokens links rest) : rest <:+ tokens := by
  induction h with
  | done => exact List.suffix_rfl
  | more _ _ hr _ ih => exact (ih.trans (ht _ _ _ _ hr)).trans (List.suffix_cons _ _)

/-- An element leaves a suffix. -/
theorem Reads.suffix {element : Element} {tokens rest : List Token} {trees : List Tree}
    (h : Reads grammar R element tokens trees rest) : rest <:+ tokens := by
  cases h with
  | tree hr => exact ht _ _ _ _ hr
  | choice _ hr => exact ht _ _ _ _ hr
  | many hr => exact hr.suffix ht
  | never => exact List.suffix_rfl
  | once _ hr => exact ht _ _ _ _ hr
  | empty => exact List.suffix_rfl
  | filled _ hr => exact ht _ _ _ _ hr
  | token => exact List.suffix_cons _ _
  | dropped => exact List.suffix_cons _ _
  | kept => exact List.suffix_cons _ _
  | ahead => exact List.suffix_rfl
  | expression _ hr hc => exact (hc.suffix ht).trans (ht _ _ _ _ hr)

/-- Elements leave a suffix. -/
theorem ReadsAll.suffix {elements : List Element} {tokens rest : List Token} {trees : List Tree}
    (h : ReadsAll grammar R elements tokens trees rest) : rest <:+ tokens := by
  induction h with
  | nil => exact List.suffix_rfl
  | cons hr _ ih => exact ih.trans (hr.suffix ht)

end Trims

/-! ## Sequences, element by element -/

section Sequences

variable {grammar : Grammar} {R : Success} {elements : List Element} {tokens rest : List Token}
variable {trees : List Tree}

theorem readsAll_nil : ReadsAll grammar R [] tokens trees rest ↔ trees = [] ∧ tokens = rest := by
  constructor
  · intro h
    cases h with
    | nil => exact ⟨rfl, rfl⟩
  · rintro ⟨rfl, rfl⟩
    exact .nil

/-- The first element reads a rule, and its tree is kept. -/
theorem readsAll_tree {rule : RuleId} :
    ReadsAll grammar R (.tree rule :: elements) tokens trees rest ↔
      ∃ tree trees' tokens', trees = tree :: trees' ∧ R rule tokens tree tokens' ∧
        ReadsAll grammar R elements tokens' trees' rest := by
  constructor
  · intro h
    cases h with
    | cons hr hs => cases hr with | tree hr => exact ⟨_, _, _, rfl, hr, hs⟩
  · rintro ⟨tree, trees', tokens', rfl, hr, hs⟩
    exact .cons (.tree hr) hs

/-- The first element reads the rule that is chosen, and its tree is kept unless it is an empty
list. -/
theorem readsAll_choice {rules : List RuleId} :
    ReadsAll grammar R (.choice rules :: elements) tokens trees rest ↔
      ∃ rule tree trees' tokens', trees = unlessEmpty tree ++ trees' ∧
        grammar.chooseAt rules (front tokens) = some (some rule) ∧ R rule tokens tree tokens' ∧
        ReadsAll grammar R elements tokens' trees' rest := by
  constructor
  · intro h
    cases h with
    | cons hr hs => cases hr with | choice hc hr => exact ⟨_, _, _, _, rfl, hc, hr, hs⟩
  · rintro ⟨rule, tree, trees', tokens', rfl, hc, hr, hs⟩
    exact .cons (.choice hc hr) hs

/-- The first element reads a rule as often as it starts. -/
theorem readsAll_many {rule : RuleId} :
    ReadsAll grammar R (.repeated rule .any :: elements) tokens trees rest ↔
      ∃ found trees' tokens', trees = found ++ trees' ∧
        Repeats grammar R rule tokens found tokens' ∧
        ReadsAll grammar R elements tokens' trees' rest := by
  constructor
  · intro h
    cases h with
    | cons hr hs => cases hr with | many hr => exact ⟨_, _, _, rfl, hr, hs⟩
  · rintro ⟨found, trees', tokens', rfl, hr, hs⟩
    exact .cons (.many hr) hs

/-- The first element reads a rule if it starts, and nothing if it does not. -/
theorem readsAll_once {rule : RuleId} :
    ReadsAll grammar R (.repeated rule .atMostOnce :: elements) tokens trees rest ↔
      (grammar.startsAt rule (front tokens) = some false ∧
        ReadsAll grammar R elements tokens trees rest) ∨
      ∃ tree trees' tokens', trees = unlessEmpty tree ++ trees' ∧
        grammar.startsAt rule (front tokens) = some true ∧ R rule tokens tree tokens' ∧
        ReadsAll grammar R elements tokens' trees' rest := by
  constructor
  · intro h
    cases h with
    | cons hr hs =>
        cases hr with
        | never hn => exact .inl ⟨hn, hs⟩
        | once hy hr => exact .inr ⟨_, _, _, rfl, hy, hr, hs⟩
  · rintro (⟨hn, hs⟩ | ⟨tree, trees', tokens', rfl, hy, hr, hs⟩)
    · exact .cons (.never hn) hs
    · exact .cons (.once hy hr) hs

/-- The first element reads a rule if it starts, and is an empty branch of its kind if it does not.
-/
theorem readsAll_orEmpty {rule : RuleId} :
    ReadsAll grammar R (.orEmpty rule :: elements) tokens trees rest ↔
      (∃ kind trees', trees = .group kind [] :: trees' ∧
        grammar.startsAt rule (front tokens) = some false ∧
        (grammar.rule rule).kind = .branch kind ∧ ReadsAll grammar R elements tokens trees' rest) ∨
      ∃ tree trees' tokens', trees = tree :: trees' ∧
        grammar.startsAt rule (front tokens) = some true ∧ R rule tokens tree tokens' ∧
        ReadsAll grammar R elements tokens' trees' rest := by
  constructor
  · intro h
    cases h with
    | cons hr hs =>
        cases hr with
        | empty hn hk => exact .inl ⟨_, _, rfl, hn, hk, hs⟩
        | filled hy hr => exact .inr ⟨_, _, _, rfl, hy, hr, hs⟩
  · rintro (⟨kind, trees', rfl, hn, hk, hs⟩ | ⟨tree, trees', tokens', rfl, hy, hr, hs⟩)
    · exact .cons (.empty hn hk) hs
    · exact .cons (.filled hy hr) hs

theorem readsAll_token {wanted : TokenClass} {kind : Tree.LeafKind} :
    ReadsAll grammar R (.token wanted (.leaf kind) :: elements) tokens trees rest ↔
      ∃ token trees' tokens', trees = .leaf kind token :: trees' ∧ tokens = token :: tokens' ∧
        grammar.accepts wanted token = true ∧ ReadsAll grammar R elements tokens' trees' rest := by
  constructor
  · intro h
    cases h with
    | cons hr hs => cases hr with | token ha => exact ⟨_, _, _, rfl, rfl, ha, hs⟩
  · rintro ⟨token, trees', tokens', rfl, rfl, ha, hs⟩
    exact .cons (.token ha) hs

/-- The first element takes one of the texts and drops it. -/
theorem readsAll_dropped {texts : List String} :
    ReadsAll grammar R (.literal texts false :: elements) tokens trees rest ↔
      ∃ token tokens', tokens = token :: tokens' ∧ isLiteral texts token = true ∧
        ReadsAll grammar R elements tokens' trees rest := by
  constructor
  · intro h
    cases h with
    | cons hr hs => cases hr with | dropped hl => exact ⟨_, _, rfl, hl, hs⟩
  · rintro ⟨token, tokens', rfl, hl, hs⟩
    exact .cons (.dropped hl) hs

theorem readsAll_ahead {texts : List String} :
    ReadsAll grammar R (.ahead texts :: elements) tokens trees rest ↔
      isLiteral texts (front tokens) = true ∧ ReadsAll grammar R elements tokens trees rest := by
  constructor
  · intro h
    cases h with
    | cons hr hs => cases hr with | ahead hl => exact ⟨hl, hs⟩
  · rintro ⟨hl, hs⟩
    exact .cons (.ahead hl) hs

/-- The first element reads an operand and the operators after it, and its tree is that of the
chain. -/
theorem readsAll_expression {factor : RuleId} {operators : Operators} {kind : Tree.BranchKind} :
    ReadsAll grammar R (.expression factor operators (.branch kind) :: elements) tokens trees rest ↔
      ∃ operand links trees' tokens' tokens'', trees = climb kind operand links :: trees' ∧
        R factor tokens operand tokens' ∧
        Chains R factor operators (fun _ => true) tokens' links tokens'' ∧
        ReadsAll grammar R elements tokens'' trees' rest := by
  constructor
  · intro h
    cases h with
    | cons hr hs =>
        cases hr with
        | @expression _ _ _ kind' _ _ _ operand links hk hr hc =>
            refine ⟨operand, links, _, _, _, ?_, hr, hc, hs⟩
            rcases hk with hk | rfl
            · cases hk
              rfl
            · simp [climb]
  · rintro ⟨operand, links, trees', tokens', tokens'', rfl, hr, hc, hs⟩
    exact .cons (.expression (.inl rfl) hr hc) hs

end Sequences

/-! ## Where sequences stop -/

/-- A rule stops at a suffix of what it had, unless a tree cannot be built. -/
def StopsWithin (F : Failure) : Prop :=
  ∀ id tokens rest cause, F id tokens rest cause → cause ≠ .shape → rest <:+ tokens

section StopsWithin

variable {grammar : Grammar} {R : Success} {F : Failure} (ht : Trims R) (hf : StopsWithin F)
include ht hf

/-- But for trees that cannot be built, a failure is about a suffix. -/
theorem RepeatsFail.suffix {rule : RuleId} {tokens rest : List Token} {cause : Cause}
    (h : RepeatsFail grammar R F rule tokens rest cause) (hs : cause ≠ .shape) :
    rest <:+ tokens := by
  induction h with
  | unread => exact List.suffix_rfl
  | now _ hfail => exact hf _ _ _ _ hfail hs
  | later _ hr _ ih => exact (ih hs).trans (ht _ _ _ _ hr)

theorem ChainsFail.suffix {factor : RuleId} {operators : Operators} {kind : Tree.Kind}
    {tokens rest : List Token} {cause : Cause}
    (h : ChainsFail R F factor operators kind tokens rest cause) (hs : cause ≠ .shape) :
    rest <:+ tokens := by
  induction h with
  | unread => exact List.suffix_rfl
  | now _ hfail => exact (hf _ _ _ _ hfail hs).trans (List.suffix_cons _ _)
  | shape => exact (hs rfl).elim
  | later _ hr _ ih => exact ((ih hs).trans (ht _ _ _ _ hr)).trans (List.suffix_cons _ _)

theorem Fails.suffix {element : Element} {tokens rest : List Token} {cause : Cause}
    (h : Fails grammar R F element tokens rest cause) (hs : cause ≠ .shape) : rest <:+ tokens := by
  cases h with
  | unread => exact List.suffix_rfl
  | tree hfail => exact hf _ _ _ _ hfail hs
  | chosen _ hfail => exact hf _ _ _ _ hfail hs
  | unchosen => exact List.suffix_rfl
  | many hfail => exact hfail.suffix ht hf hs
  | once _ hfail => exact hf _ _ _ _ hfail hs
  | filled _ hfail => exact hf _ _ _ _ hfail hs
  | shapeEmpty => exact List.suffix_rfl
  | shapeToken => exact (hs rfl).elim
  | token => exact List.suffix_rfl
  | literal => exact List.suffix_rfl
  | ahead => exact List.suffix_rfl
  | operand hfail => exact hf _ _ _ _ hfail hs
  | chain hr hfail => exact (hfail.suffix ht hf hs).trans (ht _ _ _ _ hr)

theorem FailsAll.suffix {elements : List Element} {tokens rest : List Token} {cause : Cause}
    (h : FailsAll grammar R F elements tokens rest cause) (hs : cause ≠ .shape) :
    rest <:+ tokens := by
  induction h with
  | here hfail => exact hfail.suffix ht hf hs
  | there hr _ ih => exact (ih hs).trans (hr.suffix ht)

end StopsWithin

/-! ## Sequences that want for a token

A sequence that stops where no token is left had none to begin with, or it stops in its first
element, or after it. -/

section Wants

variable {grammar : Grammar} {R : Success} {F : Failure} {elements : List Element}
variable {tokens : List Token} {cause : Cause}

theorem failsAll_nil (h : FailsAll grammar R F [] tokens [] cause) : False := by cases h

/-- No token is there for the rule, or it wants for one itself, or the elements after it do. -/
theorem failsAll_tree {rule : RuleId}
    (h : FailsAll grammar R F (.tree rule :: elements) tokens [] cause) :
    tokens = [] ∨ F rule tokens [] cause ∨
      ∃ tree tokens', R rule tokens tree tokens' ∧
        FailsAll grammar R F elements tokens' [] cause := by
  cases h with
  | here h =>
      cases h with
      | unread => exact .inl rfl
      | tree h => exact .inr (.inl h)
  | there hr h =>
      cases hr with
      | tree hr => exact .inr (.inr ⟨_, _, hr, h⟩)

/-- No token is there to choose at, or the chosen rule wants for one, or the elements after it do.
-/
theorem failsAll_choice {rules : List RuleId}
    (h : FailsAll grammar R F (.choice rules :: elements) tokens [] cause) :
    tokens = [] ∨ ∃ rule ∈ rules, F rule tokens [] cause ∨
      ∃ tree tokens', R rule tokens tree tokens' ∧
        FailsAll grammar R F elements tokens' [] cause := by
  cases h with
  | here h =>
      cases h with
      | unread => exact .inl rfl
      | chosen hc h => exact .inr ⟨_, mem_of_firstAt hc, .inl h⟩
      | unchosen => exact .inl rfl
  | there hr h =>
      cases hr with
      | choice hc hr => exact .inr ⟨_, mem_of_firstAt hc, .inr ⟨_, _, hr, h⟩⟩

/-- No token is there, or one of the turns wants for one, or the elements after them do. -/
theorem failsAll_many {rule : RuleId}
    (h : FailsAll grammar R F (.repeated rule .any :: elements) tokens [] cause) :
    tokens = [] ∨ RepeatsFail grammar R F rule tokens [] cause ∨
      ∃ trees tokens', Repeats grammar R rule tokens trees tokens' ∧
        FailsAll grammar R F elements tokens' [] cause := by
  cases h with
  | here h =>
      cases h with
      | unread => exact .inl rfl
      | many h => exact .inr (.inl h)
  | there hr h =>
      cases hr with
      | many hr => exact .inr (.inr ⟨_, _, hr, h⟩)

theorem failsAll_once {rule : RuleId}
    (h : FailsAll grammar R F (.repeated rule .atMostOnce :: elements) tokens [] cause) :
    tokens = [] ∨ F rule tokens [] cause ∨ FailsAll grammar R F elements tokens [] cause ∨
      ∃ tree tokens', R rule tokens tree tokens' ∧
        FailsAll grammar R F elements tokens' [] cause := by
  cases h with
  | here h =>
      cases h with
      | unread => exact .inl rfl
      | once _ h => exact .inr (.inl h)
  | there hr h =>
      cases hr with
      | never => exact .inr (.inr (.inl h))
      | once _ hr => exact .inr (.inr (.inr ⟨_, _, hr, h⟩))

/-- No token is there, or it is accepted and the elements after it want for one. -/
theorem failsAll_token {wanted : TokenClass} {kind : Tree.LeafKind}
    (h : FailsAll grammar R F (.token wanted (.leaf kind) :: elements) tokens [] cause) :
    tokens = [] ∨ ∃ token tokens', tokens = token :: tokens' ∧ grammar.accepts wanted token = true ∧
      FailsAll grammar R F elements tokens' [] cause := by
  cases h with
  | here h =>
      cases h with
      | unread => exact .inl rfl
      | token => exact .inl rfl
  | there hr h =>
      cases hr with
      | token ha => exact .inr ⟨_, _, rfl, ha, h⟩

/-- No token is there, or it is one of the texts and the elements after it want for one. -/
theorem failsAll_dropped {texts : List String}
    (h : FailsAll grammar R F (.literal texts false :: elements) tokens [] cause) :
    tokens = [] ∨ ∃ token tokens', tokens = token :: tokens' ∧ isLiteral texts token = true ∧
      FailsAll grammar R F elements tokens' [] cause := by
  cases h with
  | here h =>
      cases h with
      | unread => exact .inl rfl
      | literal => exact .inl rfl
  | there hr h =>
      cases hr with
      | dropped hl => exact .inr ⟨_, _, rfl, hl, h⟩

theorem failsAll_ahead {texts : List String}
    (h : FailsAll grammar R F (.ahead texts :: elements) tokens [] cause) :
    tokens = [] ∨ FailsAll grammar R F elements tokens [] cause := by
  cases h with
  | here h =>
      cases h with
      | unread => exact .inl rfl
      | ahead => exact .inl rfl
  | there hr h =>
      cases hr with
      | ahead => exact .inr h

theorem failsAll_orEmpty {rule : RuleId}
    (h : FailsAll grammar R F (.orEmpty rule :: elements) tokens [] cause) :
    tokens = [] ∨ F rule tokens [] cause ∨ FailsAll grammar R F elements tokens [] cause ∨
      ∃ tree tokens', R rule tokens tree tokens' ∧
        FailsAll grammar R F elements tokens' [] cause := by
  cases h with
  | here h =>
      cases h with
      | unread => exact .inl rfl
      | filled _ h => exact .inr (.inl h)
      | shapeEmpty => exact .inl rfl
  | there hr h =>
      cases hr with
      | empty => exact .inr (.inr (.inl h))
      | filled _ hr => exact .inr (.inr (.inr ⟨_, _, hr, h⟩))

/-- No token is there, or the first operand wants for one, or an operator after it does, or the
elements after the expression do. -/
theorem failsAll_expression {factor : RuleId} {operators : Operators} {kind : Tree.Kind}
    (h : FailsAll grammar R F (.expression factor operators kind :: elements) tokens [] cause) :
    tokens = [] ∨ F factor tokens [] cause ∨ ∃ operand tokens', R factor tokens operand tokens' ∧
      (ChainsFail R F factor operators kind tokens' [] cause ∨
        ∃ tokens'', FailsAll grammar R F elements tokens'' [] cause) := by
  cases h with
  | here h =>
      cases h with
      | unread => exact .inl rfl
      | operand h => exact .inr (.inl h)
      | chain hr h => exact .inr (.inr ⟨_, _, hr, .inl h⟩)
  | there hr h =>
      cases hr with
      | expression _ hr _ => exact .inr (.inr ⟨_, _, hr, .inr ⟨_, h⟩⟩)

end Wants

/-! ## Reading with another success -/

section Mono

variable {grammar : Grammar} {R R' : Success} {Good : List Token → Prop} (ht : Trims R)
variable (hg : ∀ {tokens rest : List Token}, rest <:+ tokens → Good tokens → Good rest)
variable (hm : ∀ id tokens tree rest, Good tokens → R id tokens tree rest → R' id tokens tree rest)
include ht hg hm

/-- What rules read may be weakened on good tokens, since all that is left of them is good. -/
theorem Repeats.mono {rule : RuleId} {tokens rest : List Token} {trees : List Tree}
    (h : Repeats grammar R rule tokens trees rest) (hgood : Good tokens) :
    Repeats grammar R' rule tokens trees rest := by
  induction h with
  | done hs => exact .done hs
  | more hs hr _ ih => exact .more hs (hm _ _ _ _ hgood hr) (ih (hg (ht _ _ _ _ hr) hgood))

/-- What operands read may be weakened on good tokens. -/
theorem Chains.mono {factor : RuleId} {operators : Operators} {takes : Precedence → Bool}
    {tokens rest : List Token} {links : List Link}
    (h : Chains R factor operators takes tokens links rest) (hgood : Good tokens) :
    Chains R' factor operators takes tokens links rest := by
  induction h with
  | done hs => exact .done hs
  | more ho htakes hr _ ih =>
      have hgood' := hg (List.suffix_cons _ _) hgood
      exact .more ho htakes (hm _ _ _ _ hgood' hr) (ih (hg (ht _ _ _ _ hr) hgood'))

/-- What rules read may be weakened on good tokens. -/
theorem Reads.mono {element : Element} {tokens rest : List Token} {trees : List Tree}
    (h : Reads grammar R element tokens trees rest) (hgood : Good tokens) :
    Reads grammar R' element tokens trees rest := by
  cases h with
  | tree hr => exact .tree (hm _ _ _ _ hgood hr)
  | choice hc hr => exact .choice hc (hm _ _ _ _ hgood hr)
  | many hr => exact .many (hr.mono ht hg hm hgood)
  | never hs => exact .never hs
  | once hs hr => exact .once hs (hm _ _ _ _ hgood hr)
  | empty hs hk => exact .empty hs hk
  | filled hs hr => exact .filled hs (hm _ _ _ _ hgood hr)
  | token ha => exact .token ha
  | dropped hl => exact .dropped hl
  | kept hl => exact .kept hl
  | ahead hl => exact .ahead hl
  | expression hk hr hc =>
      exact .expression hk (hm _ _ _ _ hgood hr) (hc.mono ht hg hm (hg (ht _ _ _ _ hr) hgood))

/-- What rules read may be weakened on good tokens. -/
theorem ReadsAll.mono {elements : List Element} {tokens rest : List Token} {trees : List Tree}
    (h : ReadsAll grammar R elements tokens trees rest) (hgood : Good tokens) :
    ReadsAll grammar R' elements tokens trees rest := by
  induction h with
  | nil => exact .nil
  | cons hr _ ih => exact .cons (hr.mono ht hg hm hgood) (ih (hg (hr.suffix ht) hgood))

end Mono

theorem unlessEmpty_of_not_isEmptyList {tree : Tree} (h : tree.isEmptyList = false) :
    unlessEmpty tree = [tree] := by
  simp [unlessEmpty, h]

/-- A rule that only chooses gives the tree of its choice. -/
theorem group_unlessEmpty (tree : Tree) : Tree.group .list (unlessEmpty tree) = tree := by
  unfold unlessEmpty
  split
  · rename_i h
    unfold Tree.isEmptyList at h
    split at h
    · rfl
    · cases h
  · rfl

/-- The success holds of whatever its rules read from good tokens. -/
def ClosedOn (grammar : Grammar) (Good : List Token → Prop) (R : Success) : Prop :=
  ∀ id kind tokens trees rest, Good tokens → (grammar.rule id).kind = .branch kind →
    ReadsAll grammar R (grammar.rule id).elements tokens trees rest →
    R id tokens (.group kind trees) rest

/-- A success that is closed on good tokens is closed where it is asked of these only. -/
theorem ClosedOn.closed {grammar : Grammar} {Good : List Token → Prop} {R : Success}
    (h : ClosedOn grammar Good R)
    (hg : ∀ {tokens rest : List Token}, rest <:+ tokens → Good tokens → Good rest) :
    Closed grammar fun id tokens tree rest =>
      rest <:+ tokens ∧ (Good tokens → R id tokens tree rest) := by
  have ht : Trims fun id tokens tree rest => rest <:+ tokens ∧
    (Good tokens → R id tokens tree rest) :=
    fun _ _ _ _ hr => hr.1
  intro id kind tokens trees rest hkind hr
  refine ⟨hr.suffix ht, fun hgood => h id kind tokens trees rest hgood hkind ?_⟩
  exact hr.mono ht hg (fun _ _ _ _ hgood hr => hr.2 hgood) hgood

/-! ## What is read is determined -/

/-- Where a rule reads and `A` holds with an acceptable rest, the two are the same. -/
def Agrees (R A : Success) (Fine : List Token → Prop) : Prop :=
  ∀ id tokens tree rest tree' rest', R id tokens tree rest → A id tokens tree' rest' →
    Fine rest' → tree = tree' ∧ rest = rest'

/-- Where a rule fails, `A` does not hold with an acceptable rest. If the failure is that no
token can be read, it is not acceptable to have none. -/
def Refutes (F : Failure) (A : Success) (Fine : List Token → Prop) : Prop :=
  ∀ id tokens rest cause tree' rest', F id tokens rest cause → A id tokens tree' rest' →
    Fine rest' → (cause = .unread → ¬ Fine []) → False

section Agree

variable {grammar : Grammar} {R A : Success} {F : Failure} {Fine : List Token → Prop}
variable (ht : Trims A)
    (hf : ∀ {tokens rest : List Token}, rest <:+ tokens → Fine rest → Fine tokens)
variable (ha : Agrees R A Fine) (hr : Refutes F A Fine)

include ht hf ha

/-- Two readings of a repetition agree if those of its rule do. -/
theorem Repeats.agree {rule : RuleId} {tokens rest : List Token} {trees : List Tree}
    (h : Repeats grammar R rule tokens trees rest) :
    ∀ {trees' : List Tree} {rest' : List Token}, Repeats grammar A rule tokens trees' rest' →
      Fine rest' → trees = trees' ∧ rest = rest' := by
  induction h with
  | done hs =>
      intro trees' rest' h' _
      cases h' with
      | done => exact ⟨rfl, rfl⟩
      | more hs' => simp [hs] at hs'
  | more hs hr _ ih =>
      intro trees' rest' h' hfine
      cases h' with
      | done hs' => simp [hs] at hs'
      | more _ hr' hm' =>
          obtain ⟨rfl, rfl⟩ := ha _ _ _ _ _ _ hr hr' (hf (hm'.suffix ht) hfine)
          obtain ⟨rfl, rfl⟩ := ih hm' hfine
          exact ⟨rfl, rfl⟩

/-- Two readings of a chain agree if those of its operands do. -/
theorem Chains.agree {factor : RuleId} {operators : Operators} {takes : Precedence → Bool}
    {tokens rest : List Token} {links : List Link}
    (h : Chains R factor operators takes tokens links rest) :
    ∀ {links' : List Link} {rest' : List Token},
      Chains A factor operators takes tokens links' rest' →
      Fine rest' → links = links' ∧ rest = rest' := by
  induction h with
  | done hs =>
      intro links' rest' h' _
      cases h' with
      | done => exact ⟨rfl, rfl⟩
      | more ho htakes => simp [hs _ ho] at htakes
  | more ho htakes hr _ ih =>
      intro links' rest' h' hfine
      cases h' with
      | done hs' => simp [hs' _ ho] at htakes
      | more ho' _ hr' hc' =>
          obtain ⟨rfl, rfl⟩ := ha _ _ _ _ _ _ hr hr' (hf (hc'.suffix ht) hfine)
          obtain ⟨rfl, rfl⟩ := ih hc' hfine
          rw [ho] at ho'
          cases ho'
          exact ⟨rfl, rfl⟩

/-- Two readings of an element agree if those of its rules do. -/
theorem Reads.agree {element : Element} {tokens rest rest' : List Token} {trees trees' : List Tree}
    (h : Reads grammar R element tokens trees rest)
    (h' : Reads grammar A element tokens trees' rest') (hfine : Fine rest') :
    trees = trees' ∧ rest = rest' := by
  cases h with
  | tree hr =>
      cases h' with
      | tree hr' =>
          obtain ⟨rfl, rfl⟩ := ha _ _ _ _ _ _ hr hr' hfine
          exact ⟨rfl, rfl⟩
  | choice hc hr =>
      cases h' with
      | choice hc' hr' =>
          rw [hc] at hc'
          cases hc'
          obtain ⟨rfl, rfl⟩ := ha _ _ _ _ _ _ hr hr' hfine
          exact ⟨rfl, rfl⟩
  | many hr =>
      cases h' with
      | many hr' => exact hr.agree ht hf ha hr' hfine
  | never hs =>
      cases h' with
      | never => exact ⟨rfl, rfl⟩
      | once hs' => simp [hs] at hs'
  | once hs hr =>
      cases h' with
      | never hs' => simp [hs] at hs'
      | once _ hr' =>
          obtain ⟨rfl, rfl⟩ := ha _ _ _ _ _ _ hr hr' hfine
          exact ⟨rfl, rfl⟩
  | empty hs hk =>
      cases h' with
      | empty _ hk' =>
          rw [hk] at hk'
          cases hk'
          exact ⟨rfl, rfl⟩
      | filled hs' => simp [hs] at hs'
  | filled hs hr =>
      cases h' with
      | empty hs' => simp [hs] at hs'
      | filled _ hr' =>
          obtain ⟨rfl, rfl⟩ := ha _ _ _ _ _ _ hr hr' hfine
          exact ⟨rfl, rfl⟩
  | token _ => cases h' with | token _ => exact ⟨rfl, rfl⟩
  | dropped _ => cases h' with | dropped _ => exact ⟨rfl, rfl⟩
  | kept _ => cases h' with | kept _ => exact ⟨rfl, rfl⟩
  | ahead _ => cases h' with | ahead _ => exact ⟨rfl, rfl⟩
  | @expression _ _ _ branchKind _ _ _ _ _ hk hr hc =>
      cases h' with
      | @expression _ _ _ branchKind' _ _ _ _ _ hk' hr' hc' =>
          obtain ⟨rfl, rfl⟩ := ha _ _ _ _ _ _ hr hr' (hf (hc'.suffix ht) hfine)
          obtain ⟨rfl, rfl⟩ := hc.agree ht hf ha hc' hfine
          refine ⟨?_, rfl⟩
          rcases hk with rfl | rfl
          · rcases hk' with hk' | rfl
            · cases hk'
              rfl
            · simp [climb]
          · simp [climb]

/-- What elements read is what a supported success says. -/
theorem ReadsAll.agree {elements : List Element} {tokens rest : List Token} {trees : List Tree}
    (h : ReadsAll grammar R elements tokens trees rest) :
    ∀ {trees' : List Tree} {rest' : List Token},
      ReadsAll grammar A elements tokens trees' rest' →
      Fine rest' → trees = trees' ∧ rest = rest' := by
  induction h with
  | nil =>
      intro trees' rest' h' _
      cases h' with
      | nil => exact ⟨rfl, rfl⟩
  | cons hr _ ih =>
      intro trees' rest' h' hfine
      cases h' with
      | cons hr' hs' =>
          obtain ⟨rfl, rfl⟩ := hr.agree ht hf ha hr' (hf (hs'.suffix ht) hfine)
          obtain ⟨rfl, rfl⟩ := ih hs' hfine
          exact ⟨rfl, rfl⟩

include hr

/-- A repetition that fails is not read, if the rules that fail are not. -/
theorem RepeatsFail.absurd {rule : RuleId} {tokens rest : List Token} {cause : Cause}
    (h : RepeatsFail grammar R F rule tokens rest cause) :
    ∀ {trees' : List Tree} {rest' : List Token}, Repeats grammar A rule tokens trees' rest' →
      Fine rest' → (cause = .unread → ¬ Fine []) → False := by
  induction h with
  | unread =>
      intro trees' rest' h' hfine hn
      exact hn rfl (hf (h'.suffix ht) hfine)
  | now hs hfail =>
      intro trees' rest' h' hfine hn
      cases h' with
      | done hs' => simp [hs] at hs'
      | more _ hr' hm' => exact hr _ _ _ _ _ _ hfail hr' (hf (hm'.suffix ht) hfine) hn
  | later hs hread _ ih =>
      intro trees' rest' h' hfine hn
      cases h' with
      | done hs' => simp [hs] at hs'
      | more _ hr' hm' =>
          obtain ⟨rfl, rfl⟩ := ha _ _ _ _ _ _ hread hr' (hf (hm'.suffix ht) hfine)
          exact ih hm' hfine hn

/-- A chain that fails is not read, if the operands that fail are not. -/
theorem ChainsFail.absurd {factor : RuleId} {operators : Operators} {kind : Tree.Kind}
    {tokens rest : List Token} {cause : Cause}
    (h : ChainsFail R F factor operators kind tokens rest cause) :
    ∀ {links' : List Link} {rest' : List Token},
      (∀ leafKind, kind = .leaf leafKind → links' = []) →
      Chains A factor operators (fun _ => true) tokens links' rest' →
      Fine rest' → (cause = .unread → ¬ Fine []) → False := by
  induction h with
  | unread =>
      intro links' rest' _ h' hfine hn
      exact hn rfl (hf (h'.suffix ht) hfine)
  | now ho hfail =>
      intro links' rest' _ h' hfine hn
      cases h' with
      | done hs' => simp at hs'; simp [hs'] at ho
      | more _ _ hr' hc' => exact hr _ _ _ _ _ _ hfail hr' (hf (hc'.suffix ht) hfine) hn
  | shape ho hk =>
      intro links' rest' hkind h' hfine hn
      cases h' with
      | done hs' => simp at hs'; simp [hs'] at ho
      | more _ _ hr' hc' => cases hkind _ hk
  | later ho hread _ ih =>
      intro links' rest' hkind h' hfine hn
      cases h' with
      | done hs' => simp at hs'; simp [hs'] at ho
      | more _ _ hr' hc' =>
          obtain ⟨rfl, rfl⟩ := ha _ _ _ _ _ _ hread hr' (hf (hc'.suffix ht) hfine)
          exact ih (fun leafKind hk => by cases hkind leafKind hk) hc' hfine hn

/-- An element that fails is not read, if the rules that fail are not. -/
theorem Fails.absurd {element : Element} {tokens rest rest' : List Token} {trees' : List Tree}
    {cause : Cause} (h : Fails grammar R F element tokens rest cause)
    (h' : Reads grammar A element tokens trees' rest') (hfine : Fine rest')
    (hn : cause = .unread → ¬ Fine []) : False := by
  cases h with
  | unread => exact hn rfl (hf (h'.suffix ht) hfine)
  | tree hfail =>
      cases h' with
      | tree hr' => exact hr _ _ _ _ _ _ hfail hr' hfine hn
  | chosen hc hfail =>
      cases h' with
      | choice hc' hr' =>
          rw [hc] at hc'
          cases hc'
          exact hr _ _ _ _ _ _ hfail hr' hfine hn
  | unchosen hc =>
      cases h' with
      | choice hc' _ => simp [hc] at hc'
  | many hfail =>
      cases h' with
      | many hr' => exact hfail.absurd ht hf ha hr hr' hfine hn
  | once hs hfail =>
      cases h' with
      | never hs' => simp [hs] at hs'
      | once _ hr' => exact hr _ _ _ _ _ _ hfail hr' hfine hn
  | filled hs hfail =>
      cases h' with
      | empty hs' => simp [hs] at hs'
      | filled _ hr' => exact hr _ _ _ _ _ _ hfail hr' hfine hn
  | shapeEmpty hs hk =>
      cases h' with
      | empty _ hk' => simp [hk] at hk'
      | filled hs' => simp [hs] at hs'
  | shapeToken => cases h'
  | token hno => cases h' with | token hyes => cases hno.symm.trans hyes
  | literal hno =>
      cases h' with
      | dropped hyes => cases hno.symm.trans hyes
      | kept hyes => cases hno.symm.trans hyes
  | ahead hno => cases h' with | ahead hyes => cases hno.symm.trans hyes
  | operand hfail =>
      cases h' with
      | expression _ hr' hc' => exact hr _ _ _ _ _ _ hfail hr' (hf (hc'.suffix ht) hfine) hn
  | chain hread hfail =>
      cases h' with
      | expression hk' hr' hc' =>
          obtain ⟨rfl, rfl⟩ := ha _ _ _ _ _ _ hread hr' (hf (hc'.suffix ht) hfine)
          refine hfail.absurd ht hf ha hr (fun leafKind hk => ?_) hc' hfine hn
          rcases hk' with hb | hl
          · rw [hk] at hb
            cases hb
          · exact hl

/-- Elements do not fail where a supported success holds. -/
theorem FailsAll.absurd {elements : List Element} {tokens rest : List Token}
    {cause : Cause} (h : FailsAll grammar R F elements tokens rest cause) :
    ∀ {trees' : List Tree} {rest' : List Token},
      ReadsAll grammar A elements tokens trees' rest' →
      Fine rest' → (cause = .unread → ¬ Fine []) → False := by
  induction h with
  | here hfail =>
      intro trees' rest' h' hfine hn
      cases h' with
      | cons hr' hs' => exact hfail.absurd ht hf ha hr hr' (hf (hs'.suffix ht) hfine) hn
  | there hread _ ih =>
      intro trees' rest' h' hfine hn
      cases h' with
      | cons hr' hs' =>
          obtain ⟨rfl, rfl⟩ := hread.agree ht hf ha hr' (hf (hs'.suffix ht) hfine)
          exact ih hs' hfine hn

end Agree

end Grammar

end TreeScript
