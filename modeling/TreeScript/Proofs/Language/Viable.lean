import TreeScript.Proofs.Language.Open
import TreeScript.Proofs.Language.Statement

/-!
# Tokens that can be completed

Where a rule of the full language wants for a token, some more tokens complete what it has read
(`failureClosed_pending`). There is one lemma for each rule: it goes through the elements, up to the
one that wants for the token, and adds what is missing of that element and of those after it. What
was optional and has been left out is left out for good, which does no harm, since it can always be
left out.

A few tokens are enough for all completions (`fillers`), and none of them ends the line.
-/

namespace TreeScript

namespace Language

open Grammar TreeScript.Derivation

/-! ## Completions -/

/-- What lines are completed with. -/
def fillers : List Token.Kind :=
  [.number 0, .word "x", .word "while", .word "else", .word "(", .word ")", .word "\x7b",
    .word "\x7d", .word ",", .word ";"]

/-- The tokens complete something, all on one line. -/
def Filling (number : Nat) (tokens : List Token) : Prop :=
  ∀ token ∈ tokens, token.line = number ∧ token.kind ∈ fillers

/-- The tokens derive from a line of the grammar. -/
def Derived (line : List Token → Tree → Prop) (t : List Token) : Prop := ∃ tree, line t tree

/-- With some more tokens the tokens have the property. -/
def Completable (number : Nat) (P : List Token → Prop) (tokens : List Token) : Prop :=
  ∃ more, Filling number more ∧ P (tokens ++ more)

section Completable

variable {number : Nat} {P Q : List Token → Prop} {tokens : List Token}

theorem filling_nil : Filling number [] := by simp [Filling]

theorem Filling.append {t t' : List Token} (h : Filling number t) (h' : Filling number t') :
    Filling number (t ++ t') := List.forall_mem_append.2 ⟨h, h'⟩

/-- What is complete can be completed by nothing. -/
theorem Completable.of_holds (h : P tokens) : Completable number P tokens :=
  ⟨[], filling_nil, by rwa [List.append_nil]⟩

theorem Completable.of_filling (h : P tokens) (ht : Filling number tokens) :
    Completable number P [] := ⟨tokens, ht, h⟩

/-- What completes a part of a line completes the line, with what comes before and after it. -/
theorem Completable.frame (h : Completable number P tokens) (before after : List Token)
    (hafter : Filling number after) (hline : ∀ t, P t → Q (before ++ (t ++ after))) :
    Completable number Q (before ++ tokens) := by
  obtain ⟨more, hmore, ht⟩ := h
  refine ⟨more ++ after, hmore.append hafter, ?_⟩
  simpa only [List.append_assoc] using hline _ ht

/-- What completes the end of a line completes the line. -/
theorem Completable.append_left (h : Completable number P tokens) (before : List Token)
    (hline : ∀ t, P t → Q (before ++ t)) : Completable number Q (before ++ tokens) := by
  refine h.frame before [] filling_nil fun t ht => ?_
  rw [List.append_nil]
  exact hline t ht

/-- A completion is one of everything weaker. -/
theorem Completable.mono (h : Completable number P tokens) (hline : ∀ t, P t → Q t) :
    Completable number Q tokens := h.append_left [] hline

/-- What has to be completed may begin with one token more. -/
theorem Completable.cons (h : Completable number P []) (kind : Token.Kind) (hkind : kind ∈ fillers)
    (hline : ∀ t, P t → Q (⟨kind, number⟩ :: t)) : Completable number Q [] := by
  obtain ⟨more, hmore, ht⟩ := h
  refine .of_filling (hline more ht) ?_
  exact Filling.append (t := [_]) (by simpa [Filling] using hkind) hmore

end Completable

/-! ## What the rules want -/

/-- A word and what comes after it. -/
def Headed (text : String) (P : List Token → Prop) (t : List Token) : Prop :=
  ∃ word t', IsWord text word ∧ t = word :: t' ∧ P t'

/-- Lines with commas between them. -/
def CommaList (line : List Token → Tree → Prop) (t : List Token) : Prop :=
  ∃ trees, Listed line t trees

/-- Statements of a block. -/
def BlockItems (t : List Token) : Prop := ∃ trees, Items Compound t trees

/-- Parameters in parentheses. -/
def ParameterList (t : List Token) : Prop :=
  ∃ first last t', IsWord "(" first ∧ IsWord ")" last ∧ t = first :: (t' ++ [last]) ∧
    Derived Parameters t'

/-- Something and a block after it. -/
def WithBlock (P : List Token → Prop) (t : List Token) : Prop :=
  ∃ t₁ t₂, t = t₁ ++ t₂ ∧ P t₁ ∧ Derived (Block Compound) t₂

/-- What is known of the tokens that a rule has read when it wants for another one. -/
def Viable (number : Nat) : RuleId → List Token → Prop
  | exprId, tokens | simpleId, tokens | blockSimpleId, tokens | simpleStatementId, tokens =>
      Completable number (Derived Expr) tokens
  | compoundId, tokens | ifId, tokens | whileId, tokens | compoundStatementId, tokens
  | defId, tokens =>
      Completable number (Derived Compound) tokens
  | parenId, tokens | numberId, tokens | nameId, tokens | stringId, tokens =>
      Completable number (Derived Atom) tokens
  | primaryId, tokens => Completable number (Derived Primary) tokens
  | negativeId, tokens | factorId, tokens => Completable number (Derived Factor) tokens
  | blockStatementId, tokens => Completable number BlockItems tokens
  | blockId, tokens => Completable number (Derived (Block Compound)) tokens
  | elseId, tokens => Completable number (Headed "else" (Derived (Block Compound))) tokens
  | programId, tokens => tokens = [] ∨ Completable number (Derived Compound) tokens ∨
      Completable number (Derived Expr) tokens
  | paramId, tokens => Completable number (Derived Parameter) tokens
  | paramTailId, tokens => Completable number (Headed "," (Derived Parameter)) tokens
  | paramsId, tokens => Completable number (CommaList Parameter) tokens
  | paramListId, tokens => Completable number ParameterList tokens
  | argTailId, tokens => Completable number (Headed "," (Derived Expr)) tokens
  | argsId, tokens => Completable number (CommaList Expr) tokens
  | callId, tokens => Completable number (Derived (Call Expr)) tokens
  | _, tokens => tokens = []

/-- A rule that wants for a token has read what can be completed. -/
def Pending (number : Nat) : Failure := fun id tokens rest cause =>
  cause ≠ .shape → rest = [] → AllPlain tokens → Viable number id tokens

/-- The elements want for a token after the tokens. -/
abbrev Halts (number : Nat) (elements : List Element) (tokens : List Token) (cause : Cause) :
    Prop :=
  FailsAll full.grammar Understood (Pending number) elements tokens [] cause

/-! ## Least completions -/

section Least

variable (number : Nat)

theorem atom_zero : Derived Atom [⟨.number 0, number⟩] := ⟨_, .number rfl⟩

theorem expr_zero : Derived Expr [⟨.number 0, number⟩] :=
  ⟨_, expr_of_factor (.primary (.plain (.number rfl)))⟩

theorem block_empty : Derived (Block Compound) [⟨.word "\x7b", number⟩, ⟨.word "\x7d", number⟩] :=
  ⟨_, .items (isWord_word "\x7b" number) .nil (isWord_word "\x7d" number)⟩

/-- The least compound statement is a loop that does nothing. -/
theorem compound_least : Derived Compound [⟨.word "while", number⟩, ⟨.number 0, number⟩,
    ⟨.word "\x7b", number⟩, ⟨.word "\x7d", number⟩] := by
  obtain ⟨condition, hcondition⟩ := expr_zero number
  obtain ⟨body, hbody⟩ := block_empty number
  exact ⟨_, .loop (isWord_word "while" number) hcondition hbody⟩

theorem identifier_x : Identifier ⟨.word "x", number⟩ :=
  ⟨rfl, by simp [Token.toText, Token.Kind.toText]⟩

theorem parameter_x : Derived Parameter [⟨.word "x", number⟩] := ⟨_, .name (identifier_x number)⟩

/-- Nothing can always be completed. -/
theorem viable_nil (id : RuleId) : Viable number id [] := by
  have hexpr : Completable number (Derived Expr) [] :=
    .of_filling (expr_zero number) (by simp [Filling, fillers])
  have hatom : Completable number (Derived Atom) [] :=
    .of_filling (atom_zero number) (by simp [Filling, fillers])
  have hprimary : Completable number (Derived Primary) [] :=
    hatom.mono fun _ ⟨_, h⟩ => ⟨_, .plain h⟩
  have hparameter : Completable number (Derived Parameter) [] :=
    .of_filling (parameter_x number) (by simp [Filling, fillers])
  match id with
  | exprId | simpleId | blockSimpleId | simpleStatementId => exact hexpr
  | compoundId | ifId | whileId | compoundStatementId | defId =>
      exact .of_filling (compound_least number) (by simp [Filling, fillers])
  | parenId | numberId | nameId | stringId => exact hatom
  | primaryId => exact hprimary
  | negativeId | factorId => exact hprimary.mono fun _ ⟨_, h⟩ => ⟨_, .primary h⟩
  | separatorId | blockEndId | nullStatementId => exact rfl
  | blockStatementId => exact .of_holds ⟨[], .nil⟩
  | blockId => exact .of_filling (block_empty number) (by simp [Filling, fillers])
  | elseId =>
      exact .of_filling ⟨_, _, isWord_word "else" number, rfl, block_empty number⟩
        (by simp [Filling, fillers])
  | programId => exact .inl rfl
  | paramId => exact hparameter
  | paramTailId =>
      exact .of_filling ⟨_, _, isWord_word "," number, rfl, parameter_x number⟩
        (by simp [Filling, fillers])
  | paramsId => exact hparameter.mono fun _ ⟨_, h⟩ => ⟨_, .single h⟩
  | paramListId =>
      exact .of_filling ⟨_, _, [], isWord_word "(" number, isWord_word ")" number, rfl, _, .empty⟩
        (by simp [Filling, fillers])
  | argTailId =>
      exact .of_filling ⟨_, _, isWord_word "," number, rfl, expr_zero number⟩
        (by simp [Filling, fillers])
  | argsId => exact hexpr.mono fun _ ⟨_, h⟩ => ⟨_, .single h⟩
  | callId =>
      exact .of_filling ⟨_, .empty (isWord_word "(" number) (isWord_word ")" number)⟩
        (by simp [Filling, fillers])
  | _ + 30 => exact rfl

end Least

section Rules

variable {number : Nat} {elements : List Element} {tokens rest : List Token} {cause : Cause}

/-! ## Elements that want for a token -/

/-- A rule in a sequence wants for the token, or what comes after it does. -/
theorem Halts.tree {rule : RuleId} (h : Halts number (.tree rule :: elements) tokens cause)
    (hs : cause ≠ .shape) (hp : AllPlain tokens) :
    Viable number rule tokens ∨
      ∃ tree tokens', Understood rule tokens tree tokens' ∧
        Halts number elements tokens' cause := by
  rcases failsAll_tree h with rfl | hfail | hread
  · exact .inl (viable_nil number rule)
  · exact .inl (hfail hs rfl hp)
  · exact .inr hread

/-- The chosen rule wants for the token, or what comes after it does. -/
theorem Halts.choice {rules : List RuleId}
    (h : Halts number (.choice rules :: elements) tokens cause)
    (hne : rules ≠ []) (hs : cause ≠ .shape) (hp : AllPlain tokens) :
    ∃ rule ∈ rules, Viable number rule tokens ∨
      ∃ tree tokens', Understood rule tokens tree tokens' ∧
        Halts number elements tokens' cause := by
  rcases failsAll_choice h with rfl | ⟨rule, hmem, hfail | hread⟩
  · exact ⟨_, List.head_mem hne, .inl (viable_nil number _)⟩
  · exact ⟨rule, hmem, .inl (hfail hs rfl hp)⟩
  · exact ⟨rule, hmem, .inr hread⟩

/-- A choice that comes last wants for the token where the chosen rule does. -/
theorem Halts.chosen {rules : List RuleId} (h : Halts number [.choice rules] tokens cause)
    (hne : rules ≠ []) (hs : cause ≠ .shape) (hp : AllPlain tokens) :
    ∃ rule ∈ rules, Viable number rule tokens := by
  obtain ⟨rule, hmem, hviable | ⟨_, _, _, h'⟩⟩ := Halts.choice h hne hs hp
  · exact ⟨rule, hmem, hviable⟩
  · exact (failsAll_nil h').elim

theorem Halts.only {rule : RuleId} (h : Halts number [.tree rule] tokens cause)
    (hs : cause ≠ .shape) (hp : AllPlain tokens) : Viable number rule tokens := by
  rcases Halts.tree h hs hp with hviable | ⟨_, _, _, h'⟩
  · exact hviable
  · exact (failsAll_nil h').elim

theorem Halts.token {wanted : TokenClass} {kind : Tree.LeafKind}
    (h : Halts number [.token wanted (.leaf kind)] tokens cause) : tokens = [] := by
  rcases failsAll_token h with hnil | ⟨_, _, _, _, h'⟩
  · exact hnil
  · exact (failsAll_nil h').elim

/-! ## Expressions -/

theorem expr_of_operations {t t' : List Token} {operand : Tree} {links : List Link}
    (hfactor : Factor t operand) (hops : Operations Factor t' links) : Derived Expr (t ++ t') :=
  ⟨_, .chain hfactor hops
    (splits_climb .binary operand links (consistent_operators.links hops.ofToken?_eq))⟩

/-- Operators and operands, the last of which may be missing, can be completed. The induction is on
the chain. -/
theorem operations_of_chainsFail {kind : Tree.Kind}
    (h : ChainsFail Understood (Pending number) factorId operators kind tokens rest cause)
    (hrest : rest = []) (hs : cause ≠ .shape) (hp : AllPlain tokens) :
    Completable number (fun t => ∃ links, Operations Factor t links) tokens := by
  induction h with
  | unread => exact .of_holds ⟨[], .nil⟩
  | now ho hfail =>
      obtain ⟨text, hword, hget⟩ := isWord_of_ofToken? ho
      have hfactor : Completable number (Derived Factor) _ := hfail hs hrest hp.tail
      refine hfactor.append_left [_] ?_
      rintro t ⟨operand, hoperand⟩
      have hops := Operations.cons hword hget hoperand .nil
      rw [List.append_nil] at hops
      exact ⟨_, hops⟩
  | shape => exact absurd rfl hs
  | @later operator _ _ _ _ _ _ ho hr _ ih =>
      obtain ⟨text, hword, hget⟩ := isWord_of_ofToken? ho
      have hops := ih hrest hs (hp.tail.suffix hr.suffix)
      obtain ⟨⟨t, rfl, hfactor⟩, -⟩ := hr.meaning hp.tail
      refine hops.append_left (operator :: t) ?_
      rintro t' ⟨links, hlinks⟩
      exact ⟨_, .cons hword hget hfactor hlinks⟩

/-- An expression that wants for a token can be completed by an operand. -/
theorem viable_expr
    (h : Halts number [.expression factorId operators (.branch .binary)] tokens cause)
    (hs : cause ≠ .shape) (hp : AllPlain tokens) : Completable number (Derived Expr) tokens := by
  rcases failsAll_expression h with rfl | hfail | ⟨operand, tokens', hoperand, hchain | ⟨_, h⟩⟩
  · exact viable_nil number exprId
  · have hfactor : Completable number (Derived Factor) tokens := hfail hs rfl hp
    exact hfactor.mono fun _ ⟨_, h⟩ => ⟨_, expr_of_factor h⟩
  · have hops := operations_of_chainsFail hchain rfl hs (hp.suffix hoperand.suffix)
    obtain ⟨⟨t, rfl, hfactor⟩, -⟩ := hoperand.meaning hp
    refine hops.append_left t ?_
    rintro t' ⟨links, hlinks⟩
    exact expr_of_operations hfactor hlinks
  · exact (failsAll_nil h).elim

/-- A line that is read to the end is complete. -/
theorem completable_of_takes {line : List Token → Tree → Prop} {tree : Tree}
    (h : Takes line tokens tree []) : Completable number (Derived line) tokens := by
  obtain ⟨t, rfl, ht⟩ := h
  rw [List.append_nil]
  exact .of_holds ⟨tree, ht⟩

/-- After the parenthesis an expression and the closing one complete the operand. -/
theorem viable_paren (h : Halts number [.literal ["("] false, .tree exprId, .literal [")"] false]
    tokens cause) (hs : cause ≠ .shape) (hp : AllPlain tokens) :
    Completable number (Derived Atom) tokens := by
  rcases failsAll_dropped h with rfl | ⟨first, tokens', rfl, hfirst, h'⟩
  · exact viable_nil number parenId
  have hexpr : Completable number (Derived Expr) tokens' := by
    rcases Halts.tree h' hs hp.tail with hexpr | ⟨tree, tokens'', hread, h''⟩
    · exact hexpr
    · obtain rfl := eq_nil_of_dropped h''
      exact completable_of_takes (hread.meaning hp.tail).1
  refine hexpr.frame [first] [⟨.word ")", number⟩] (by simp [Filling, fillers]) ?_
  rintro t ⟨tree, ht⟩
  exact ⟨_, .paren (isWord_of_isLiteral hfirst (by decide)) ht (isWord_word ")" number)⟩

/-- Calls, the last of which wants for a token, can be completed. -/
theorem calls_of_repeatsFail
    (h : RepeatsFail full.grammar Understood (Pending number) callId tokens rest cause)
    (hrest : rest = []) (hs : cause ≠ .shape) (hp : AllPlain tokens) :
    Completable number (fun t => ∃ calls, Many (Call Expr) t calls) tokens := by
  induction h with
  | unread => exact .of_holds ⟨[], .nil⟩
  | now _ hfail =>
      have hcall : Completable number (Derived (Call Expr)) _ := hfail hs hrest hp
      refine hcall.mono fun t => ?_
      rintro ⟨call, ht⟩
      exact ⟨[call], by simpa using Many.cons ht .nil⟩
  | later _ hr _ ih =>
      have hcalls := ih hrest hs (hp.suffix hr.suffix)
      obtain ⟨t, rfl, hcall⟩ := hr.meaning hp
      refine hcalls.append_left t ?_
      rintro t' ⟨calls, ht'⟩
      exact ⟨_, .cons hcall ht'⟩

theorem primary_of_calls {t t' : List Token} {tree : Tree} {calls : List Tree} (hatom : Atom t tree)
    (hcalls : Many (Call Expr) t' calls) : Derived Primary (t ++ t') := by
  cases calls with
  | nil =>
      cases hcalls
      rw [List.append_nil]
      exact ⟨_, .plain hatom⟩
  | cons call calls => exact ⟨_, .called hatom hcalls (List.cons_ne_nil call calls)⟩

/-- The atom can be completed, or the last of the calls after it. -/
theorem viable_primary
    (h : Halts number [.choice [parenId, numberId, nameId, stringId], .repeated callId .any]
      tokens cause)
    (hs : cause ≠ .shape) (hp : AllPlain tokens) : Completable number (Derived Primary) tokens := by
  obtain ⟨rule, hmem, hrule⟩ := Halts.choice h (List.cons_ne_nil _ _) hs hp
  have hatom : Completable number (Derived Atom) tokens ∨ ∃ tree tokens',
      Takes Atom tokens tree tokens' ∧ Halts number [.repeated callId .any] tokens' cause := by
    simp only [List.mem_cons, List.not_mem_nil, or_false] at hmem
    rcases hrule with hviable | ⟨tree, tokens', hread, h'⟩
    · rcases hmem with rfl | rfl | rfl | rfl <;> exact .inl hviable
    · have hmeaning := hread.meaning hp
      rcases hmem with rfl | rfl | rfl | rfl <;> exact .inr ⟨tree, tokens', hmeaning.1, h'⟩
  rcases hatom with hatom | ⟨tree, tokens', htakes, h'⟩
  · exact hatom.mono fun _ ⟨_, h⟩ => ⟨_, .plain h⟩
  have hcalls : Completable number (fun t => ∃ calls, Many (Call Expr) t calls) tokens' := by
    rcases failsAll_many h' with rfl | hfail | ⟨_, _, _, h''⟩
    · exact .of_holds ⟨[], .nil⟩
    · exact calls_of_repeatsFail hfail rfl hs (hp.suffix htakes.suffix)
    · exact (failsAll_nil h'').elim
  obtain ⟨t, rfl, hatom⟩ := htakes
  refine hcalls.append_left t ?_
  rintro t' ⟨calls, ht'⟩
  exact primary_of_calls hatom ht'

theorem viable_negative (h : Halts number [.literal ["-"] false, .tree primaryId] tokens cause)
    (hs : cause ≠ .shape) (hp : AllPlain tokens) : Completable number (Derived Factor) tokens := by
  rcases failsAll_dropped h with rfl | ⟨minus, tokens', rfl, hminus, h'⟩
  · exact viable_nil number negativeId
  refine Completable.append_left (Halts.only h' hs hp.tail) [minus] ?_
  rintro t ⟨tree, ht⟩
  exact ⟨_, .negative (isWord_of_isLiteral hminus (by decide)) ht⟩

theorem viable_factor (h : Halts number [.choice [negativeId, primaryId]] tokens cause)
    (hs : cause ≠ .shape) (hp : AllPlain tokens) : Completable number (Derived Factor) tokens := by
  obtain ⟨rule, hmem, hviable⟩ := Halts.chosen h (List.cons_ne_nil _ _) hs hp
  simp only [List.mem_cons, List.not_mem_nil, or_false] at hmem
  rcases hmem with rfl | rfl
  · exact hviable
  · exact Completable.mono hviable fun _ ⟨_, h⟩ => ⟨_, .primary h⟩

/-! ## Arguments and parameters -/

/-- A comma and a line after it. -/
theorem viable_tail {rule : RuleId} {line : List Token → Tree → Prop}
    (h : Halts number [.literal [","] false, .tree rule] tokens cause) (hs : cause ≠ .shape)
    (hp : AllPlain tokens)
    (hrule : ∀ tokens, Viable number rule tokens → Completable number (Derived line) tokens) :
    Completable number (Headed "," (Derived line)) tokens := by
  rcases failsAll_dropped h with rfl | ⟨comma, tokens', rfl, hcomma, h'⟩
  · exact (hrule [] (viable_nil number rule)).cons (.word ",") (by decide) fun t ht =>
      ⟨_, t, isWord_word "," number, rfl, ht⟩
  exact (hrule tokens' (Halts.only h' hs hp.tail)).append_left [comma] fun t ht =>
    ⟨comma, t, isWord_of_isLiteral hcomma (by decide), rfl, ht⟩

/-- A line and more of them with commas before them. The induction is for any line before the first
comma, which changes from one turn to the next. -/
theorem list_of_repeatsFail {rule : RuleId} {line : List Token → Tree → Prop}
    (hread : ∀ tokens tree rest, Understood rule tokens tree rest → AllPlain tokens →
      After "," (Takes line) tokens tree rest)
    (hrule : ∀ tokens, Viable number rule tokens →
      Completable number (Headed "," (Derived line)) tokens)
    (h : RepeatsFail full.grammar Understood (Pending number) rule tokens rest cause)
    (hrest : rest = []) (hs : cause ≠ .shape) (hp : AllPlain tokens) :
    ∀ t, Derived line t → Completable number (CommaList line) (t ++ tokens) := by
  induction h with
  | unread =>
      rintro t ⟨tree, ht⟩
      rw [List.append_nil]
      exact .of_holds ⟨[tree], .single ht⟩
  | now _ hfail =>
      rintro t ⟨tree, ht⟩
      refine (hrule _ (hfail hs hrest hp)).append_left t ?_
      rintro _ ⟨comma, t', hcomma, rfl, tree', ht'⟩
      exact ⟨_, .cons ht hcomma (.single ht')⟩
  | later _ hr _ ih =>
      rintro t ⟨tree, ht⟩
      have hlist := ih hrest hs (hp.suffix hr.suffix)
      obtain ⟨comma, _, hcomma, rfl, t', rfl, ht'⟩ := hread _ _ _ hr hp
      obtain ⟨more, hmore, trees, htrees⟩ := hlist t' ⟨_, ht'⟩
      refine ⟨more, hmore, tree :: trees, ?_⟩
      simpa using Listed.cons ht hcomma htrees

/-- A line, and any number of them with commas before them. -/
theorem viable_list {rule rule' : RuleId} {line : List Token → Tree → Prop}
    (h : Halts number [.tree rule, .repeated rule' .any] tokens cause) (hs : cause ≠ .shape)
    (hp : AllPlain tokens)
    (hfirst : ∀ tokens, Viable number rule tokens → Completable number (Derived line) tokens)
    (htakes : ∀ tokens tree rest, Understood rule tokens tree rest → AllPlain tokens →
      Takes line tokens tree rest)
    (hread : ∀ tokens tree rest, Understood rule' tokens tree rest → AllPlain tokens →
      After "," (Takes line) tokens tree rest)
    (hrule : ∀ tokens, Viable number rule' tokens →
      Completable number (Headed "," (Derived line)) tokens) :
    Completable number (CommaList line) tokens := by
  rcases Halts.tree h hs hp with hline | ⟨tree, tokens', hr, h'⟩
  · exact (hfirst tokens hline).mono fun _ ⟨_, h⟩ => ⟨_, .single h⟩
  have hp' := hp.suffix hr.suffix
  obtain ⟨t, rfl, ht⟩ := htakes _ _ _ hr hp
  rcases failsAll_many h' with rfl | hfail | ⟨_, _, _, h''⟩
  · rw [List.append_nil]
    exact .of_holds ⟨[tree], .single ht⟩
  · exact list_of_repeatsFail hread hrule hfail rfl hs hp' t ⟨tree, ht⟩
  · exact (failsAll_nil h'').elim

/-- Something that may be left out, in parentheses. -/
theorem viable_enclosed {rule : RuleId} {P Q : List Token → Prop}
    (h : Halts number [.literal ["("] false, .orEmpty rule, .literal [")"] false] tokens cause)
    (hs : cause ≠ .shape) (hp : AllPlain tokens) (hnil : P [])
    (hrule : ∀ tokens, Viable number rule tokens → Completable number P tokens)
    (hread : ∀ tokens tree, Understood rule tokens tree [] → AllPlain tokens → P tokens)
    (hline : ∀ first last t, IsWord "(" first → IsWord ")" last → P t →
      Q (first :: (t ++ [last]))) :
    Completable number Q tokens := by
  rcases failsAll_dropped h with rfl | ⟨first, tokens', rfl, hfirst, h'⟩
  · refine .of_filling (hline _ _ [] (isWord_word "(" number) (isWord_word ")" number) hnil) ?_
    simp [Filling, fillers]
  have hinner : Completable number P tokens' := by
    rcases failsAll_orEmpty h' with rfl | hfail | h'' | ⟨tree, tokens'', hr, h''⟩
    · exact .of_holds hnil
    · exact hrule tokens' (hfail hs rfl hp.tail)
    · obtain rfl := eq_nil_of_dropped h''
      exact .of_holds hnil
    · obtain rfl := eq_nil_of_dropped h''
      exact .of_holds (hread tokens' tree hr hp.tail)
  refine hinner.frame [first] [⟨.word ")", number⟩] (by simp [Filling, fillers]) fun t ht => ?_
  exact hline first _ t (isWord_of_isLiteral hfirst (by decide)) (isWord_word ")" number) ht

/-- Parameters can be completed, and then the parenthesis. -/
theorem viable_parameterList (h : Halts number
    [.literal ["("] false, .orEmpty paramsId, .literal [")"] false] tokens cause)
    (hs : cause ≠ .shape) (hp : AllPlain tokens) : Completable number ParameterList tokens := by
  refine viable_enclosed (P := Derived Parameters) h hs hp ⟨_, .empty⟩ ?_ ?_ ?_
  · intro tokens hviable
    exact Completable.mono hviable fun _ ⟨_, ht⟩ => ⟨_, .params ht⟩
  · intro tokens tree hr hp
    obtain ⟨trees, -, ⟨t, rfl, ht⟩, -⟩ := hr.meaning hp
    rw [List.append_nil]
    exact ⟨_, .params ht⟩
  · intro first last t hfirst hlast ht
    exact ⟨first, last, t, hfirst, hlast, rfl, ht⟩

/-- Arguments can be completed, and then the parenthesis. -/
theorem viable_call (h : Halts number
    [.literal ["("] false, .orEmpty argsId, .literal [")"] false] tokens cause)
    (hs : cause ≠ .shape) (hp : AllPlain tokens) :
    Completable number (Derived (Call Expr)) tokens := by
  refine viable_enclosed (P := fun t => t = [] ∨ CommaList Expr t) h hs hp (.inl rfl) ?_ ?_ ?_
  · intro tokens hviable
    exact Completable.mono hviable fun _ ht => .inr ht
  · intro tokens tree hr hp
    obtain ⟨trees, -, ⟨t, rfl, ht⟩, -⟩ := hr.meaning hp
    rw [List.append_nil]
    exact .inr ⟨trees, ht⟩
  · rintro first last t hfirst hlast (rfl | ⟨trees, ht⟩)
    · exact ⟨_, .empty hfirst hlast⟩
    · exact ⟨_, .args hfirst ht hlast⟩

/-! ## Blocks -/

/-- Statements of a block, the last of which wants for a token, can be completed. If no closing
brace comes next, the statement that was read can have others after it. -/
theorem items_of_repeatsFail
    (h : RepeatsFail full.grammar Understood (Pending number) blockStatementId tokens rest cause)
    (hrest : rest = []) (hs : cause ≠ .shape) (hp : AllPlain tokens) :
    Completable number BlockItems tokens := by
  induction h with
  | unread => exact .of_holds ⟨[], .nil⟩
  | now _ hfail => exact hfail hs hrest hp
  | later _ hr hmore ih =>
      have hitems := ih hrest hs (hp.suffix hr.suffix)
      obtain ⟨t, rfl, happend⟩ := exists_items_append (hr.meaning hp) (stop_of_repeatsFail hmore)
      exact hitems.append_left t fun t' ⟨trees, ht'⟩ => happend t' trees ht'

/-- Its statements can be completed, and then the brace. -/
theorem viable_block (h : Halts number
    [.literal ["\x7b"] false, .repeated blockStatementId .any, .literal ["\x7d"] false]
      tokens cause)
    (hs : cause ≠ .shape) (hp : AllPlain tokens) :
    Completable number (Derived (Block Compound)) tokens := by
  rcases failsAll_dropped h with rfl | ⟨first, tokens', rfl, hfirst, h'⟩
  · exact viable_nil number blockId
  have hitems : Completable number BlockItems tokens' := by
    rcases failsAll_many h' with rfl | hfail | ⟨trees, tokens'', hmany, h''⟩
    · exact .of_holds ⟨[], .nil⟩
    · exact items_of_repeatsFail hfail rfl hs hp.tail
    · obtain rfl := eq_nil_of_dropped h''
      have hmeaning := hmany.mono trims_understood AllPlain.suffix
        (fun _ _ _ _ hp hr => hr.meaning hp) hp.tail
      obtain ⟨t, rfl, ht⟩ := items_of_repeats hmeaning
      rw [List.append_nil]
      exact .of_holds ⟨trees, ht⟩
  refine hitems.frame [first] [⟨.word "\x7d", number⟩] (by simp [Filling, fillers]) ?_
  rintro t ⟨trees, ht⟩
  exact ⟨_, .items (isWord_of_isLiteral hfirst (by decide)) ht (isWord_word "\x7d" number)⟩

/-- After an expression that is read to the end, a separator is wanted. -/
theorem viable_simple (h : Halts number (.tree simpleId :: elements) tokens cause)
    (hs : cause ≠ .shape) (hp : AllPlain tokens)
    (hrest : ∀ tokens', AllPlain tokens' → Halts number elements tokens' cause → tokens' = []) :
    Completable number (Derived Expr) tokens := by
  rcases Halts.tree h hs hp with hviable | ⟨tree, tokens', hread, h'⟩
  · exact hviable
  · obtain rfl := hrest tokens' (hp.suffix hread.suffix) h'
    exact completable_of_takes (hread.meaning hp).1

theorem viable_blockSimple
    (h : Halts number [.tree simpleId, .choice [separatorId, blockEndId]] tokens cause)
    (hs : cause ≠ .shape) (hp : AllPlain tokens) : Completable number (Derived Expr) tokens := by
  refine viable_simple h hs hp fun tokens' hp' h' => ?_
  obtain ⟨rule, hmem, hnil⟩ := Halts.chosen h' (List.cons_ne_nil _ _) hs hp'
  simp only [List.mem_cons, List.not_mem_nil, or_false] at hmem
  rcases hmem with rfl | rfl
  · exact hnil
  · exact hnil

/-- Each statement of a block can be completed as one of its items. -/
theorem viable_blockStatement
    (h : Halts number [.choice [compoundId, blockSimpleId, separatorId]] tokens cause)
    (hs : cause ≠ .shape) (hp : AllPlain tokens) : Completable number BlockItems tokens := by
  obtain ⟨rule, hmem, hviable⟩ := Halts.chosen h (List.cons_ne_nil _ _) hs hp
  simp only [List.mem_cons, List.not_mem_nil, or_false] at hmem
  rcases hmem with rfl | rfl | rfl
  · refine Completable.mono hviable fun t ⟨tree, ht⟩ => ?_
    exact ⟨[tree], by simpa using Items.compound ht .nil⟩
  · exact Completable.mono hviable fun _ ⟨tree, ht⟩ => ⟨[tree], .last ht⟩
  · obtain rfl : tokens = [] := hviable
    exact .of_holds ⟨[], .nil⟩

theorem viable_else (h : Halts number [.literal ["else"] false, .tree blockId] tokens cause)
    (hs : cause ≠ .shape) (hp : AllPlain tokens) :
    Completable number (Headed "else" (Derived (Block Compound))) tokens := by
  rcases failsAll_dropped h with rfl | ⟨word, tokens', rfl, hword, h'⟩
  · exact viable_nil number elseId
  exact Completable.append_left (Halts.only h' hs hp.tail) [word] fun t ht =>
    ⟨word, t, isWord_of_isLiteral hword (by decide), rfl, ht⟩

/-! ## Compound statements -/

/-- A block can always be added. -/
theorem Completable.withBlock {P : List Token → Prop} (h : Completable number P tokens) :
    Completable number (WithBlock P) tokens := by
  refine h.frame [] [⟨.word "\x7b", number⟩, ⟨.word "\x7d", number⟩] (by simp [Filling, fillers]) ?_
  intro t ht
  exact ⟨t, _, rfl, ht, block_empty number⟩

/-- A condition and a block want for the token, or what comes after the block does. -/
theorem viable_condition (h : Halts number (.tree exprId :: .tree blockId :: elements) tokens cause)
    (hs : cause ≠ .shape) (hp : AllPlain tokens) :
    Completable number (WithBlock (Derived Expr)) tokens ∨
      ∃ t condition t' body tokens', tokens = t ++ (t' ++ tokens') ∧ Expr t condition ∧
        Block Compound t' body ∧ Halts number elements tokens' cause := by
  rcases Halts.tree h hs hp with hexpr | ⟨condition, tokens₁, hcondition, h₁⟩
  · exact .inl (Completable.withBlock hexpr)
  have hp₁ := hp.suffix hcondition.suffix
  obtain ⟨⟨t, rfl, hexpr⟩, -⟩ := hcondition.meaning hp
  rcases Halts.tree h₁ hs hp₁ with hblock | ⟨body, tokens₂, hbody, h₂⟩
  · exact .inl (Completable.append_left hblock t fun t' ht' =>
      ⟨t, t', rfl, ⟨condition, hexpr⟩, ht'⟩)
  · obtain ⟨t', rfl, hblock⟩ := hbody.meaning hp₁
    exact .inr ⟨t, condition, t', body, tokens₂, rfl, hexpr, hblock, h₂⟩

theorem viable_while
    (h : Halts number [.literal ["while"] false, .tree exprId, .tree blockId] tokens cause)
    (hs : cause ≠ .shape) (hp : AllPlain tokens) :
    Completable number (Derived Compound) tokens := by
  rcases failsAll_dropped h with rfl | ⟨word, tokens', rfl, hword, h'⟩
  · exact viable_nil number whileId
  rcases viable_condition h' hs hp.tail with hwith | ⟨_, _, _, _, _, _, _, _, h''⟩
  · refine hwith.append_left [word] ?_
    rintro _ ⟨t, t', rfl, ⟨condition, ht⟩, body, ht'⟩
    have hloop := Compound.loop (isWord_of_isLiteral hword (by decide)) ht ht'
    exact ⟨_, hloop⟩
  · exact (failsAll_nil h'').elim

/-- The condition can be completed, or one of the blocks. -/
theorem viable_if (h : Halts number
    [.literal ["if"] false, .tree exprId, .tree blockId, .repeated elseId .atMostOnce] tokens cause)
    (hs : cause ≠ .shape) (hp : AllPlain tokens) :
    Completable number (Derived Compound) tokens := by
  rcases failsAll_dropped h with rfl | ⟨word, tokens', rfl, hword, h'⟩
  · exact viable_nil number ifId
  have hif := isWord_of_isLiteral hword (by decide)
  rcases viable_condition h' hs hp.tail with hwith |
    ⟨t, condition, t', body, tokens₁, rfl, hexpr, hblock, h₁⟩
  · refine hwith.append_left [word] ?_
    rintro _ ⟨t, t', rfl, ⟨condition, ht⟩, body, ht'⟩
    have hconditional := Compound.conditional hif ht ht'
    exact ⟨_, hconditional⟩
  have hp₁ : AllPlain tokens₁ :=
    hp.tail.suffix ((List.suffix_append t' tokens₁).trans (List.suffix_append t _))
  rcases failsAll_once h₁ with rfl | hfail | h₂ | ⟨_, _, _, h₂⟩
  · rw [List.append_nil]
    exact .of_holds ⟨_, .conditional hif hexpr hblock⟩
  · have helse : Completable number (Headed "else" (Derived (Block Compound))) tokens₁ :=
      hfail hs rfl hp₁
    have hcompound : Completable number (Derived Compound) (word :: (t ++ t') ++ tokens₁) := by
      refine helse.append_left _ ?_
      rintro _ ⟨word', t'', hword', rfl, body', hblock'⟩
      exact ⟨_, by simpa using Compound.alternative hif hexpr hblock hword' hblock'⟩
    simpa using hcompound
  · exact (failsAll_nil h₂).elim
  · exact (failsAll_nil h₂).elim

/-- A definition is complete with a name, parameters and a block. -/
theorem derived_definition {word name : Token} {t : List Token} (hword : IsWord "def" word)
    (hname : Identifier name) (h : WithBlock ParameterList t) :
    Derived Compound (word :: name :: t) := by
  obtain ⟨_, t', rfl, ⟨first, last, t, hfirst, hlast, rfl, parameters, ht⟩, body, ht'⟩ := h
  exact ⟨_, by simpa using Compound.definition hword hname hfirst ht hlast ht'⟩

/-- The parameters and the block of a definition want for the token. -/
theorem viable_signature (h : Halts number [.tree paramListId, .tree blockId] tokens cause)
    (hs : cause ≠ .shape)
    (hp : AllPlain tokens) : Completable number (WithBlock ParameterList) tokens := by
  rcases Halts.tree h hs hp with hlist | ⟨parameters, tokens₁, hparameters, h₁⟩
  · exact Completable.withBlock hlist
  have hp₁ := hp.suffix hparameters.suffix
  obtain ⟨first, _, hfirst, rfl, last, hlast, t, rfl, ht⟩ := hparameters.meaning hp
  have hlist : ParameterList (first :: (t ++ [last])) :=
    ⟨first, last, t, hfirst, hlast, rfl, parameters, ht⟩
  have hwith : Completable number (WithBlock ParameterList) (first :: (t ++ [last]) ++ tokens₁) :=
    Completable.append_left (Halts.only h₁ hs hp₁) _ fun t' ht' => ⟨_, t', rfl, hlist, ht'⟩
  simpa using hwith

/-- The name, the parameters or the block can be completed. -/
theorem viable_def (h : Halts number
    [.literal ["def"] false, .token .name (.leaf .plain), .tree paramListId, .tree blockId]
      tokens cause)
    (hs : cause ≠ .shape) (hp : AllPlain tokens) :
    Completable number (Derived Compound) tokens := by
  rcases failsAll_dropped h with rfl | ⟨word, tokens', rfl, hword, h'⟩
  · exact viable_nil number defId
  have hdef := isWord_of_isLiteral hword (by decide)
  rcases failsAll_token h' with rfl | ⟨name, tokens'', rfl, hname, h''⟩
  · have hparameters : Completable number ParameterList [] := viable_nil number paramListId
    have hnamed : Completable number (fun t => Derived Compound (word :: t)) [] :=
      hparameters.withBlock.cons (.word "x") (by decide) fun _ ht =>
        derived_definition hdef (identifier_x number) ht
    exact hnamed.append_left [word] fun _ ht => ht
  · have hwith := viable_signature h'' hs hp.tail.tail
    exact hwith.append_left [word, name] fun _ ht =>
      derived_definition hdef (accepts_name_iff.1 hname) ht

/-- Each compound statement can be completed. -/
theorem viable_compound (h : Halts number [.choice [defId, ifId, whileId]] tokens cause)
    (hs : cause ≠ .shape)
    (hp : AllPlain tokens) : Completable number (Derived Compound) tokens := by
  obtain ⟨rule, hmem, hviable⟩ := Halts.chosen h (List.cons_ne_nil _ _) hs hp
  simp only [List.mem_cons, List.not_mem_nil, or_false] at hmem
  rcases hmem with rfl | rfl | rfl <;> exact hviable

/-! ## Statements -/

theorem viable_compoundStatement
    (h : Halts number [.tree compoundId, .repeated separatorId .atMostOnce] tokens cause)
    (hs : cause ≠ .shape) (hp : AllPlain tokens) :
    Completable number (Derived Compound) tokens := by
  rcases Halts.tree h hs hp with hviable | ⟨tree, tokens', hread, h'⟩
  · exact hviable
  have hnil : tokens' = [] := by
    rcases failsAll_once h' with hnil | hfail | h'' | ⟨_, _, _, h''⟩
    · exact hnil
    · exact hfail hs rfl (hp.suffix hread.suffix)
    · exact (failsAll_nil h'').elim
    · exact (failsAll_nil h'').elim
  subst hnil
  exact completable_of_takes (hread.meaning hp).1

/-- A statement at the top can be completed to one, or nothing is read yet. -/
theorem viable_program
    (h : Halts number [.choice [compoundStatementId, simpleStatementId, nullStatementId]]
      tokens cause) (hs : cause ≠ .shape)
    (hp : AllPlain tokens) : Viable number programId tokens := by
  obtain ⟨rule, hmem, hviable⟩ := Halts.chosen h (List.cons_ne_nil _ _) hs hp
  simp only [List.mem_cons, List.not_mem_nil, or_false] at hmem
  rcases hmem with rfl | rfl | rfl
  · exact .inr (.inl hviable)
  · exact .inr (.inr hviable)
  · exact .inl hviable

end Rules

/-! ## All rules -/

/-- Every rule of the full language that wants for a token has read what can be completed. -/
theorem failureClosed_pending (number : Nat) :
    FailureClosed full.grammar Understood (Pending number) := by
  refine ⟨?_, fun _ _ _ _ _ hs => absurd rfl hs⟩
  rintro id tokens _ cause h hs rfl hp
  match id with
  | exprId => exact viable_expr h hs hp
  | compoundId => exact viable_compound h hs hp
  | parenId => exact viable_paren h hs hp
  | primaryId => exact viable_primary h hs hp
  | negativeId => exact viable_negative h hs hp
  | factorId => exact viable_factor h hs hp
  | simpleId =>
      have hexpr : Viable number exprId tokens := Halts.only h hs hp
      exact hexpr
  | separatorId | nullStatementId => exact eq_nil_of_dropped h
  | blockEndId => exact eq_nil_of_ahead h
  | blockSimpleId => exact viable_blockSimple h hs hp
  | blockStatementId => exact viable_blockStatement h hs hp
  | blockId => exact viable_block h hs hp
  | elseId => exact viable_else h hs hp
  | ifId => exact viable_if h hs hp
  | whileId => exact viable_while h hs hp
  | compoundStatementId => exact viable_compoundStatement h hs hp
  | simpleStatementId => exact viable_simple h hs hp fun _ _ h' => eq_nil_of_dropped h'
  | programId => exact viable_program h hs hp
  | paramTailId => exact viable_tail h hs hp fun _ hviable => hviable
  | paramsId =>
      exact viable_list h hs hp (fun _ hviable => hviable) (fun _ _ _ hr hp => hr.meaning hp)
        (fun _ _ _ hr hp => hr.meaning hp) fun _ hviable => hviable
  | paramListId => exact viable_parameterList h hs hp
  | defId => exact viable_def h hs hp
  | argTailId => exact viable_tail h hs hp fun _ hviable => hviable
  | argsId =>
      refine viable_list h hs hp (fun _ hviable => hviable) (fun _ _ _ hr hp => (hr.meaning hp).1)
        (fun _ _ _ hr hp => ?_) fun _ hviable => hviable
      obtain ⟨comma, tokens', hcomma, rfl, hseen⟩ := hr.meaning hp
      exact ⟨comma, tokens', hcomma, rfl, hseen.1⟩
  | callId => exact viable_call h hs hp
  | numberId | nameId | stringId | paramId =>
      obtain rfl := Halts.token h
      exact viable_nil number _
  | id + 30 => exact (failsAll_nil h).elim

end Language

end TreeScript
