import TreeScript.Proofs.Grammar.Reading

/-!
# What parsing reads

Parsing within any budget does what the relations on lists of tokens say. If a success and a
failure are closed, every tree that a rule gives meets the success and every error meets the
failure (`ensures_parseWithin`). So a property of all parses needs a look at each rule of the
grammar and no look at the parser.

Conversely a supported success forces the parser: where it holds, a parse that ends gives its
tree and leaves its rest (`ensures_parseWithin_of_supported`).

An error is a token that does not fit, a fault of the stream, or a tree that cannot be built.
The last one needs a grammar in which some kind is of the wrong sort
(`WellKinded.failureClosed`).
-/

namespace TreeScript

namespace Grammar

open TokenStream

/-! ## Errors -/

/-- The error is what a failure says. -/
inductive Explained (F : List Token → Cause → Prop) (tail : List Item) : ParseError → Prop where
  /-- A token does not fit. -/
  | unexpected {rest : List Token} {message : String} :
      F rest (.unexpected message) → (rest = [] → tail = []) →
      Explained F tail (.ofToken (front rest) message)
  /-- A token cannot be read. -/
  | unread {cause : ReadError} {others : List Item} :
      F [] .unread → tail = .error cause :: others → Explained F tail (.read cause)
  /-- A tree cannot be built. -/
  | shape {rest : List Token} {error : Tree.ShapeError} :
      F rest .shape → Explained F tail (.shape error)

variable {grammar : Grammar} {R : Success} {F : Failure} {tail : List Item}

theorem Explained.mono {F F' : List Token → Cause → Prop} {error : ParseError}
    (h : Explained F tail error) (hf : ∀ rest cause, F rest cause → F' rest cause) :
    Explained F' tail error := by
  cases h with
  | unexpected h ht => exact .unexpected (hf _ _ h) ht
  | unread h ht => exact .unread (hf _ _ h) ht
  | shape h => exact .shape (hf _ _ h)

/-- What cannot be read is a failure at the end of the tokens. -/
theorem explained_of_unreadable {F : List Token → Cause → Prop} {tokens : List Token}
    {error : ParseError} (h : Unreadable tokens tail error) (hf : tokens = [] → F [] .unread) :
    Explained F tail error := by
  obtain ⟨hn, cause, others, ht, rfl⟩ := h
  exact .unread (hf hn) ht

/-- Rules are parsed as the success and the failure say. -/
def Follows (R : Success) (F : Failure) (tail : List Item)
    (parse : RuleId → Parser Tree) : Prop :=
  ∀ id stream tokens, stream.Shows tokens tail → (parse id).Ensures stream
    (fun tree stream' => ∃ rest, stream'.Shows rest tail ∧ R id tokens tree rest)
    (fun error _ => Explained (F id tokens) tail error)

/-! ## Chains -/

/-- An operator that takes the operand of another one takes what that one would take. -/
theorem takesOperandOf_trans {p q : Precedence} {value : Nat}
    (hq : q.takesOperandOf p.value = true) (hp : p.takesOperandOf value = true) :
    q.takesOperandOf value = true := by
  unfold Precedence.takesOperandOf at *
  cases ha : q.associativity <;> cases hb : p.associativity <;> simp only [ha, hb] at * <;>
    simp only [decide_eq_true_eq] at * <;> omega

/-- The links that lend to the first one make up its right operand, and the others come after it. -/
theorem climb_cons_append (kind : Tree.BranchKind) (left : Tree) {link : Link}
    {drawn links : List Link} (hd : ∀ other ∈ drawn, link.lends other = true)
    (hl : ∀ other rest, links = other :: rest → link.lends other = false) :
    climb kind left (link :: (drawn ++ links)) =
      climb kind (.branch kind [left, .leaf .plain link.operator, climb kind link.operand drawn])
        links := by
  rw [climb, List.takeWhile_append_of_pos hd, List.dropWhile_append_of_pos hd]
  cases links with
  | nil => simp
  | cons other rest => simp [hl other rest rfl]

section Chains

variable {factor : RuleId} {operators : Operators} {takes takes' : Precedence → Bool}
variable {tokens middle rest : List Token} {links links' : List Link}

/-- All operators of a chain are taken. -/
theorem Chains.takes_of_mem (h : Chains R factor operators takes tokens links rest) :
    ∀ link ∈ links, takes link.precedence = true := by
  induction h with
  | done => simp
  | more _ ht _ _ ih =>
      intro link hl
      rcases List.mem_cons.1 hl with rfl | hl
      · exact ht
      · exact ih link hl

/-- After a chain there is no operator that would be taken. -/
theorem Chains.stop (h : Chains R factor operators takes tokens links rest) :
    ∀ precedence, operators.ofToken? (front rest) = some precedence → takes precedence = false := by
  induction h with
  | done hs => exact hs
  | more _ _ _ _ ih => exact ih

/-- A chain goes on where a tighter one stops. -/
theorem Chains.append (h : Chains R factor operators takes tokens links middle)
    (ht : ∀ precedence, takes precedence = true → takes' precedence = true)
    (h' : Chains R factor operators takes' middle links' rest) :
    Chains R factor operators takes' tokens (links ++ links') rest := by
  induction h with
  | done => exact h'
  | more ho htakes hr _ ih => exact .more ho (ht _ htakes) hr (ih h')

/-- A link that comes after a chain has stopped was not taken. -/
theorem Chains.not_takes_head {link : Link}
    (h : Chains R factor operators takes tokens links middle)
    (h' : Chains R factor operators takes' middle (link :: links') rest) :
    takes link.precedence = false := by
  cases h' with
  | more ho => exact h.stop _ ho

/-- A chain that stops may fail later on. -/
theorem Chains.fail_after {cause : Cause}
    (h : Chains R factor operators takes tokens links middle)
    (hf : ChainsFail R F factor operators kind middle rest cause) :
    ChainsFail R F factor operators kind tokens rest cause := by
  induction h with
  | done => exact hf
  | more ho _ hr _ ih => exact .later ho hr (ih hf)

end Chains

/-! ## Expressions -/

theorem group_three (kind : Tree.BranchKind) (left middle right : Tree) :
    Tree.group kind [left, middle, right] = .branch kind [left, middle, right] := by
  cases kind <;> rfl

section Expression

variable {factor : RuleId} {operators : Operators} {kind : Tree.Kind} {operand : Parser Tree}

/-- What folding in operators gives, from an operand on. -/
def Folded (R : Success) (tail : List Item) (factor : RuleId) (operators : Operators)
    (kind : Tree.Kind) (takes : Precedence → Bool) (tokens : List Token) (left : Tree)
    (tree : Tree) (stream : TokenStream) : Prop :=
  ∃ branchKind links rest, (kind = .branch branchKind ∨ links = []) ∧
    Chains R factor operators takes tokens links rest ∧ stream.Shows rest tail ∧
    tree = climb branchKind left links

/-- What taking an operator gives, if it is before `tokens`. -/
def Shifted (R : Success) (tail : List Item) (factor : RuleId) (operators : Operators)
    (kind : Tree.Kind) (value : Nat) (operator : Token) (tokens : List Token) (left : Tree)
    (tree : Tree) (stream : TokenStream) : Prop :=
  ∃ branchKind right tokens' links rest, kind = .branch branchKind ∧
    R factor tokens right tokens' ∧
    Chains R factor operators (·.takesOperandOf value) tokens' links rest ∧
    stream.Shows rest tail ∧
    tree = .branch branchKind [left, .leaf .plain operator, climb branchKind right links]

/-- What a parser for operands ensures. -/
def FollowsOperand (R : Success) (F : Failure) (tail : List Item)
    (factor : RuleId) (operand : Parser Tree) : Prop :=
  ∀ stream tokens, stream.Shows tokens tail → operand.Ensures stream
    (fun tree stream' => ∃ rest, stream'.Shows rest tail ∧ R factor tokens tree rest)
    (fun error _ => Explained (F factor tokens) tail error)

/-- A step for operators ensures what taking an operator gives. -/
def FollowsShift (R : Success) (F : Failure) (tail : List Item)
    (factor : RuleId) (operators : Operators) (kind : Tree.Kind)
    (shift : Tree → Nat → Parser Tree) : Prop :=
  ∀ left value stream operator precedence tokens, stream.Shows (operator :: tokens) tail →
    operators.ofToken? operator = some precedence →
    (shift left value).Ensures stream
      (Shifted R tail factor operators kind value operator tokens left)
      (fun error _ => Explained (ChainsFail R F factor operators kind (operator :: tokens))
        tail error)

/-- A look for the next operator takes nothing. -/
theorem ensures_nextOperator {stream : TokenStream} {tokens : List Token}
    (h : stream.Shows tokens tail) :
    (nextOperator operators).Ensures stream
      (fun next stream' => stream'.Shows tokens tail ∧ next = operators.ofToken? (front tokens))
      (fun error _ => Unreadable tokens tail error) := by
  rw [nextOperator, Action.ensures_bind]
  refine ensures_peek h ?_ (fun cause rest _ hn ht => ⟨hn, cause, rest, ht, rfl⟩)
  intro token stream' hsees _ hs
  rw [Action.ensures_pure]
  exact ⟨hs, ofToken?_of_sees hsees operators⟩

/-- Folding operators in, one after the other, climbs along a chain. What comes next starts where
the chain of an operator stops. -/
theorem ensures_iterate_foldOperator {shift : Tree → Nat → Parser Tree}
    (hs : FollowsShift R F tail factor operators kind shift)
    {takes : Precedence → Bool}
    (ht : ∀ p q, takes p = true → q.takesOperandOf p.value = true → takes q = true) :
    ∀ (n : Nat) (left : Tree) (stream : TokenStream) (tokens : List Token),
      stream.Shows tokens tail →
      (Action.iterate (foldOperator operators takes shift) n left).Ensures stream
        (Folded R tail factor operators kind takes tokens left)
        (fun error _ => Explained (ChainsFail R F factor operators kind tokens) tail error)
  | 0, _, _, _, _ => trivial
  | n + 1, left, stream, tokens, h => by
      rw [Action.iterate_succ, Action.ensures_bind, foldOperator, Action.ensures_bind]
      refine (ensures_nextOperator h).mono ?_
        (fun _ _ hu => explained_of_unreadable hu (by rintro rfl; exact .unread))
      rintro next stream' ⟨hshow, rfl⟩
      cases hnext : operators.ofToken? (front tokens) with
      | none =>
          refine ⟨.list, [], tokens, .inr rfl, .done ?_, hshow, by simp [climb]⟩
          intro precedence hp
          rw [hnext] at hp
          cases hp
      | some precedence =>
          simp only
          cases htakes : takes precedence with
          | false =>
              refine ⟨.list, [], tokens, .inr rfl, .done ?_, hshow, by simp [climb]⟩
              intro precedence' hp
              rw [hnext] at hp
              cases hp
              exact htakes
          | true =>
              obtain ⟨operator, tokens, rfl, ho⟩ := eq_cons_of_ofToken? hnext
              simp only [if_true, Action.ensures_bind, Action.ensures_pure]
              refine (hs left precedence.value stream' operator precedence tokens hshow ho).mono ?_
                (fun _ _ he => he)
              rintro tree stream''
                ⟨branchKind, right, tokens', drawn, middle, hk, hr, hc, hshow', rfl⟩
              refine (ensures_iterate_foldOperator hs ht n _ stream'' middle hshow').mono ?_ ?_
              · rintro tree stream₃ ⟨branchKind', links, rest, hk', hc', hshow'', rfl⟩
                refine ⟨branchKind, ⟨operator, precedence, right⟩ :: (drawn ++ links), rest,
                  .inl hk, .more ho htakes hr (hc.append (fun q hq => ht _ q htakes hq) hc'),
                  hshow'', ?_⟩
                rw [climb_cons_append]
                · rcases hk' with hk' | rfl
                  · rw [hk] at hk'
                    cases hk'
                    rfl
                  · simp [climb]
                · exact hc.takes_of_mem
                · rintro other rest' rfl
                  exact hc.not_takes_head hc'
              · intro error _ he
                exact he.mono fun _ _ hf => .later ho hr (hc.fail_after hf)

/-- What is taken from an operator on is a chain, and the tree is that of the chain. The induction
is on the budget. -/
theorem followsShift_shift (ho : FollowsOperand R F tail factor operand) :
    ∀ n : Nat, FollowsShift R F tail factor operators kind (shift operand operators kind n)
  | 0, _, _, _, _, _, _, _, _ => trivial
  | n + 1, left, value, stream, operator, precedence, tokens, h, hop => by
      rw [shift, Action.ensures_bind]
      refine ensures_next h ?_ (fun _ _ _ hn => by cases hn)
      intro token stream' hsees _ hshow
      obtain rfl : operator = token := by
        rcases hsees with ⟨rest, hcons⟩ | ⟨hn, -⟩
        · cases hcons
          rfl
        · cases hn
      rw [Action.ensures_bind]
      refine Action.ensures_bind.2 ((ho stream' tokens hshow).mono ?_
        (fun _ _ he => he.mono fun _ _ hf => .now hop hf))
      rintro right stream'' ⟨tokens', hshow', hr⟩
      rw [Action.ensures_bind]
      refine (ensures_iterate_foldOperator (followsShift_shift ho n)
        (fun p q hp hq => takesOperandOf_trans hq hp) n right stream'' tokens' hshow').mono ?_
        (fun _ _ he => he.mono fun _ _ hf => .later hop hr hf)
      rintro tree stream₃ ⟨branchKind, links, rest, hk', hc, hshow'', rfl⟩
      cases hkind : kind with
      | branch branchKind' =>
          refine ⟨branchKind', right, tokens', links, rest, rfl, hr, hc, hshow'', ?_⟩
          rw [group_three]
          rcases hk' with hk' | rfl
          · rw [hkind] at hk'
            cases hk'
            rfl
          · simp [climb]
      | leaf leafKind =>
          exact @Explained.shape _ _ rest _ (.shape hop rfl)

variable (grammar) in
/-- An expression is an operand and the chain of links after it. -/
theorem ensures_expression (ho : FollowsOperand R F tail factor operand) (budget : Nat)
    {stream : TokenStream} {tokens : List Token} (h : stream.Shows tokens tail) :
    (expression operand operators kind budget).Ensures stream
      (fun tree stream' => ∃ rest, stream'.Shows rest tail ∧
        Reads grammar R (.expression factor operators kind) tokens [tree] rest)
      (fun error _ =>
        Explained (Fails grammar R F (.expression factor operators kind) tokens) tail error) := by
  rw [expression, Action.ensures_bind]
  refine (ho stream tokens h).mono ?_ (fun _ _ he => he.mono fun _ _ hf => .operand hf)
  rintro left stream' ⟨tokens', hshow, hr⟩
  refine (ensures_iterate_foldOperator (followsShift_shift ho budget)
    (fun _ _ _ _ => rfl) budget left stream' tokens' hshow).mono ?_ ?_
  · rintro tree stream'' ⟨branchKind, links, rest, hk', hc, hshow', rfl⟩
    exact ⟨rest, hshow', .expression hk' hr hc⟩
  · intro error _ he
    exact he.mono fun rest cause hf => .chain hr hf

end Expression

/-! ## Elements -/

section Elements

variable {parse : RuleId → Parser Tree} {stream : TokenStream} {tokens : List Token}

/-- A repetition reads what the rule reads, and ends where it could not start. What was found has
been read, so whatever is read or fails from there on is read or fails from the start. -/
theorem ensures_repetition (hp : Follows R F tail parse) (rule : RuleId) (budget : Nat)
    (h : stream.Shows tokens tail) :
    (grammar.repetition parse rule budget).Ensures stream
      (fun trees stream' => ∃ rest, stream'.Shows rest tail ∧
        Repeats grammar R rule tokens trees rest)
      (fun error _ => Explained (RepeatsFail grammar R F rule tokens) tail error) := by
  refine Action.ensures_iterate (fun found stream' => ∃ tokens', stream'.Shows tokens' tail ∧
    (∀ trees rest, Repeats grammar R rule tokens' trees rest →
      Repeats grammar R rule tokens (found.reverse ++ trees) rest) ∧
    (∀ rest cause, RepeatsFail grammar R F rule tokens' rest cause →
      RepeatsFail grammar R F rule tokens rest cause)) ?_ budget [] stream
    ⟨tokens, h, fun _ _ hr => by simpa using hr, fun _ _ hf => hf⟩
  rintro found stream' ⟨tokens', hshow, hread, hfail⟩
  rw [repeatOnce, Action.ensures_bind]
  refine (ensures_starts rule hshow).mono ?_ (fun _ _ hu =>
    explained_of_unreadable hu (by rintro rfl; exact hfail _ _ .unread))
  rintro yes stream'' ⟨hshow', hs⟩
  cases yes with
  | false =>
      simp only [Bool.false_eq_true, if_false, Action.ensures_pure]
      exact ⟨tokens', hshow', by simpa using hread [] tokens' (.done hs)⟩
  | true =>
      simp only [if_true, Action.ensures_bind, Action.ensures_pure]
      refine (hp rule stream'' tokens' hshow').mono ?_
        (fun _ _ he => he.mono fun _ _ hf => hfail _ _ (.now hs hf))
      rintro tree stream₃ ⟨rest, hshow'', hr⟩
      refine ⟨rest, hshow'', ?_, fun _ _ hf => hfail _ _ (.later hs hr hf)⟩
      intro trees rest' hmore
      have := hread _ _ (.more hs hr hmore)
      have hrev : (unlessEmpty tree).reverse = unlessEmpty tree := by
        unfold unlessEmpty
        split <;> rfl
      simpa [hrev] using this

variable (grammar R F tail) in
/-- The parser reads what the element reads, and stops where the element fails. -/
def Meets (element : Element) (tokens : List Token) (parser : Parser (List Tree))
    (stream : TokenStream) : Prop :=
  parser.Ensures stream
    (fun trees stream' => ∃ rest, stream'.Shows rest tail ∧
      Reads grammar R element tokens trees rest)
    (fun error _ => Explained (Fails grammar R F element tokens) tail error)

/-- The trees of an element that is one rule, once this rule is settled on. -/
theorem meets_rule {element : Element} {rule : RuleId} {f : Tree → List Tree}
    (hp : Follows R F tail parse) (h : stream.Shows tokens tail)
    (hread : ∀ tree rest, R rule tokens tree rest → Reads grammar R element tokens (f tree) rest)
    (hfail : ∀ rest cause, F rule tokens rest cause → Fails grammar R F element tokens rest cause) :
    Meets grammar R F tail element tokens (parse rule >>= fun tree => pure (f tree)) stream := by
  rw [Meets, Action.ensures_bind]
  refine (hp rule stream tokens h).mono ?_ (fun _ _ he => he.mono hfail)
  rintro tree stream' ⟨rest, hshow, hr⟩
  exact ⟨rest, hshow, hread tree rest hr⟩

/-- An element that first asks whether a rule could start. -/
theorem meets_starts {element : Element} {rule : RuleId} {f : Bool → Parser (List Tree)}
    (h : stream.Shows tokens tail)
    (hf : ∀ yes stream', stream'.Shows tokens tail →
      grammar.startsAt rule (front tokens) = some yes →
      Meets grammar R F tail element tokens (f yes) stream') :
    Meets grammar R F tail element tokens (grammar.starts rule >>= f) stream := by
  rw [Meets, Action.ensures_bind]
  refine (ensures_starts rule h).mono ?_
    (fun _ _ hu => explained_of_unreadable hu (by rintro rfl; exact .unread))
  rintro yes stream' ⟨hshow, hs⟩
  exact hf yes stream' hshow hs

/-- A choice reads what the chosen rule reads, and fails where none could start. -/
theorem meets_choice (hp : Follows R F tail parse) (budget : Nat) (rules : List RuleId)
    (h : stream.Shows tokens tail) : Meets grammar R F tail (.choice rules) tokens
      (grammar.parseElement parse budget (.choice rules)) stream := by
  rw [parseElement, Meets, Action.ensures_bind]
  refine (ensures_choose rules h).mono ?_
    (fun _ _ hu => explained_of_unreadable hu (by rintro rfl; exact .unread))
  rintro first stream' ⟨hshow, hc⟩
  cases first with
  | some rule => exact meets_rule hp hshow (fun _ _ hr => .choice hc hr) fun _ _ hf => .chosen hc hf
  | none =>
      simp only [Action.ensures_bind, Action.ensures_fail]
      refine ensures_peek hshow ?_ (fun _ _ _ hn ht => by subst hn; exact .unread .unread ht)
      intro token stream'' hsees htail _
      rw [ofToken_of_sees hsees]
      exact .unexpected (.unchosen hc) htail

/-- A repetition of one turn at most reads the rule or nothing. -/
theorem meets_atMostOnce (hp : Follows R F tail parse) (budget : Nat) (rule : RuleId)
    (h : stream.Shows tokens tail) : Meets grammar R F tail (.repeated rule .atMostOnce) tokens
      (grammar.parseElement parse budget (.repeated rule .atMostOnce)) stream := by
  refine meets_starts h fun yes stream' hshow hs => ?_
  cases yes with
  | false => exact ⟨tokens, hshow, .never hs⟩
  | true => exact meets_rule hp hshow (fun _ _ hr => .once hs hr) fun _ _ hf => .once hs hf

/-- An optional rule reads the rule or is an empty branch. -/
theorem meets_orEmpty (hp : Follows R F tail parse) (budget : Nat) (rule : RuleId)
    (h : stream.Shows tokens tail) : Meets grammar R F tail (.orEmpty rule) tokens
      (grammar.parseElement parse budget (.orEmpty rule)) stream := by
  refine meets_starts h fun yes stream' hshow hs => ?_
  cases yes with
  | false =>
      simp only [Meets, Bool.false_eq_true, if_false, Action.ensures_bind]
      cases hkind : (grammar.rule rule).kind with
      | branch kind => exact ⟨tokens, hshow, .empty hs hkind⟩
      | leaf kind => exact Explained.shape (.shapeEmpty hs hkind)
  | true => exact meets_rule hp hshow (fun _ _ hr => .filled hs hr) fun _ _ hf => .filled hs hf

theorem meets_token (budget : Nat) (wanted : TokenClass) (kind : Tree.Kind)
    (h : stream.Shows tokens tail) : Meets grammar R F tail (.token wanted kind) tokens
      (grammar.parseElement parse budget (.token wanted kind)) stream := by
  rw [parseElement, Meets, Action.ensures_bind]
  refine ensures_next h ?_ (fun _ _ _ hn ht => by subst hn; exact .unread .unread ht)
  intro token stream' hsees htail hshow
  cases haccept : grammar.accepts wanted token with
  | true =>
      simp only [if_true, Action.ensures_bind]
      cases kind with
      | leaf kind =>
          refine ⟨tokens.tail, hshow, ?_⟩
          rw [eq_cons_of_sees_accepts hsees haccept]
          exact .token haccept
      | branch kind => exact @Explained.shape _ _ tokens _ .shapeToken
  | false =>
      simp only [Bool.false_eq_true, if_false, Action.ensures_fail]
      rw [ofToken_of_sees hsees]
      rw [accepts_of_sees hsees] at haccept
      exact .unexpected (.token haccept) htail

/-- A literal takes one of its texts, and keeps it or not. -/
theorem meets_literal (budget : Nat) (texts : List String) (keep : Bool)
    (h : stream.Shows tokens tail) : Meets grammar R F tail (.literal texts keep) tokens
      (grammar.parseElement parse budget (.literal texts keep)) stream := by
  rw [parseElement, Meets, Action.ensures_bind]
  refine ensures_next h ?_ (fun _ _ _ hn ht => by subst hn; exact .unread .unread ht)
  intro token stream' hsees htail hshow
  cases hliteral : isLiteral texts token with
  | true =>
      have htokens := eq_cons_of_sees_isLiteral hsees hliteral
      simp only [if_true]
      cases keep with
      | true => exact ⟨tokens.tail, hshow, htokens ▸ .kept hliteral⟩
      | false => exact ⟨tokens.tail, hshow, htokens ▸ .dropped hliteral⟩
  | false =>
      simp only [Bool.false_eq_true, if_false, Action.ensures_fail]
      rw [ofToken_of_sees hsees]
      rw [isLiteral_of_sees hsees] at hliteral
      exact .unexpected (.literal hliteral) htail

/-- What has to be ahead is not taken. -/
theorem meets_ahead (budget : Nat) (texts : List String) (h : stream.Shows tokens tail) :
    Meets grammar R F tail (.ahead texts) tokens
      (grammar.parseElement parse budget (.ahead texts)) stream := by
  rw [parseElement, Meets, Action.ensures_bind]
  refine ensures_peek h ?_ (fun _ _ _ hn ht => by subst hn; exact .unread .unread ht)
  intro token stream' hsees htail hshow
  cases hliteral : isLiteral texts token with
  | true =>
      rw [isLiteral_of_sees hsees] at hliteral
      exact ⟨tokens, hshow, .ahead hliteral⟩
  | false =>
      simp only [Bool.false_eq_true, if_false, Action.ensures_fail]
      rw [ofToken_of_sees hsees]
      rw [isLiteral_of_sees hsees] at hliteral
      exact .unexpected (.ahead hliteral) htail

/-- By cases on the element. -/
theorem meets_parseElement (hp : Follows R F tail parse) (budget : Nat) (element : Element)
    (h : stream.Shows tokens tail) :
    Meets grammar R F tail element tokens (grammar.parseElement parse budget element) stream := by
  cases element with
  | tree rule => exact meets_rule hp h (fun _ _ hr => .tree hr) fun _ _ hf => .tree hf
  | choice rules => exact meets_choice hp budget rules h
  | repeated rule times =>
      cases times with
      | any =>
          refine (ensures_repetition hp rule budget h).mono ?_
            (fun _ _ he => he.mono fun _ _ hf => .many hf)
          rintro trees stream' ⟨rest, hshow, hr⟩
          exact ⟨rest, hshow, .many hr⟩
      | atMostOnce => exact meets_atMostOnce hp budget rule h
  | orEmpty rule => exact meets_orEmpty hp budget rule h
  | token wanted kind => exact meets_token budget wanted kind h
  | literal texts keep => exact meets_literal budget texts keep h
  | ahead texts => exact meets_ahead budget texts h
  | expression factor operators kind =>
      rw [parseElement, Meets, Action.ensures_bind]
      exact ensures_expression grammar (fun stream tokens hs => hp factor stream tokens hs) budget h

/-- Elements read one after the other, and fail where the first one of them does. The induction is
on the elements. -/
theorem ensures_parseElements (hp : Follows R F tail parse) (budget : Nat) :
    ∀ (elements : List Element) (stream : TokenStream) (tokens : List Token),
      stream.Shows tokens tail →
      (grammar.parseElements parse budget elements).Ensures stream
        (fun trees stream' => ∃ rest, stream'.Shows rest tail ∧
          ReadsAll grammar R elements tokens trees rest)
        (fun error _ => Explained (FailsAll grammar R F elements tokens) tail error)
  | [], _, tokens, h => ⟨tokens, h, .nil⟩
  | element :: elements, stream, tokens, h => by
      rw [parseElements, Action.ensures_bind]
      refine Action.Ensures.mono (meets_parseElement hp budget element h) ?_
        (fun _ _ he => he.mono fun _ _ hf => .here hf)
      rintro trees stream' ⟨rest, hshow, hr⟩
      rw [Action.ensures_bind]
      refine (ensures_parseElements hp budget elements stream' rest hshow).mono ?_
        (fun _ _ he => he.mono fun _ _ hf => .there hr hf)
      rintro trees' stream'' ⟨rest', hshow', hrs⟩
      exact ⟨rest', hshow', .cons hr hrs⟩

end Elements

/-! ## Rules -/

/-- Every parse within a budget meets a closed success or a closed failure. -/
theorem ensures_parseWithin (hR : Closed grammar R) (hF : FailureClosed grammar R F) :
    ∀ n : Nat, Follows R F tail (grammar.parseWithin n)
  | 0, _, _, _, _ => trivial
  | n + 1, id, stream, tokens, h => by
      rw [parseWithin, parseRule, Action.ensures_bind, Action.ensures_tell, Action.ensures_bind]
      refine (ensures_parseElements (ensures_parseWithin hR hF n) n (grammar.rule id).elements
        stream tokens h).mono ?_
        (fun _ _ he => he.mono fun rest cause hf => hF.fails id tokens rest cause hf)
      rintro trees stream' ⟨rest, hshow, hr⟩
      cases hkind : (grammar.rule id).kind with
      | branch kind => exact ⟨rest, hshow, hR id kind tokens trees rest hkind hr⟩
      | leaf kind => exact Explained.shape (hF.shape id kind tokens [] hkind)

/-- No stop is ruled out. -/
def AnyFailure : Failure := fun _ _ _ _ => True

/-- Nothing has to be shown of stops that are not ruled out. -/
theorem failureClosed_any (grammar : Grammar) (R : Success) :
    FailureClosed grammar R AnyFailure where
  fails _ _ _ _ _ := trivial
  shape _ _ _ _ _ := trivial

/-- What a parse within any budget ensures, a parse ensures. -/
theorem ensures_parse {id : RuleId} {stream : TokenStream} {Q : Tree → TokenStream → Prop}
    {E : ParseError → TokenStream → Prop}
    (h : ∀ n, (grammar.parseWithin n id).Ensures stream Q E) :
    (grammar.parse id).Ensures stream Q E := h (grammar.budget stream)

/-- Where a supported success holds, a parse that ends gives its tree and leaves its rest. The
weakest success and failure that agree with `A` are closed. -/
theorem ensures_parseWithin_of_supported {A : Success} (hA : Supported grammar A)
    (ht : Trims A) (n : Nat) {id : RuleId} {stream : TokenStream}
    {tokens rest : List Token} {tree : Tree} (h : stream.Shows tokens tail)
    (ha : A id tokens tree rest) (hrest : rest ≠ [] ∨ tail = []) :
    (grammar.parseWithin n id).Ensures stream
      (fun tree' stream' => tree' = tree ∧ stream'.Shows rest tail) (fun _ _ => False) := by
  let Fine (tokens : List Token) : Prop := tokens ≠ [] ∨ tail = []
  have hfine : ∀ {tokens rest : List Token}, rest <:+ tokens → Fine rest → Fine tokens := by
    rintro tokens rest ⟨before, rfl⟩ hrest
    exact hrest.imp_left fun hn he => hn (List.append_eq_nil_iff.1 he).2
  let R : Success := fun id tokens tree rest => ∀ tree' rest', A id tokens tree' rest' →
    Fine rest' → tree = tree' ∧ rest = rest'
  let F : Failure := fun id tokens _ cause => ∀ tree' rest', A id tokens tree' rest' →
    Fine rest' → (cause = .unread → ¬ Fine []) → False
  have hagree : Agrees R A Fine := fun _ _ _ _ tree' rest' hr => hr tree' rest'
  have hrefute : Refutes F A Fine := fun _ _ _ _ tree' rest' hf => hf tree' rest'
  have hR : Closed grammar R := by
    intro id kind tokens trees rest hkind hreads tree' rest' ha' hrest'
    obtain ⟨kind', trees', hkind', rfl, hreads'⟩ := hA id tokens tree' rest' ha'
    rw [hkind] at hkind'
    cases hkind'
    obtain ⟨rfl, rfl⟩ := hreads.agree ht hfine hagree hreads' hrest'
    exact ⟨rfl, rfl⟩
  have hF : FailureClosed grammar R F := by
    refine ⟨?_, ?_⟩
    · intro id tokens rest cause hfails tree' rest' ha' hrest' hn
      obtain ⟨kind', trees', hkind', rfl, hreads'⟩ := hA id tokens tree' rest' ha'
      exact hfails.absurd ht hfine hagree hrefute hreads' hrest' hn
    · intro id kind tokens rest hkind tree' rest' ha' _ _
      obtain ⟨kind', _, hkind', _⟩ := hA id tokens tree' rest' ha'
      rw [hkind] at hkind'
      cases hkind'
  refine (ensures_parseWithin hR hF n id stream tokens h).mono ?_ ?_
  · rintro tree' stream' ⟨rest', hshow, hr⟩
    obtain ⟨rfl, rfl⟩ := hr tree rest ha hrest
    exact ⟨rfl, hshow⟩
  · intro error stream' he
    cases he with
    | unexpected hf _ => exact hf tree rest ha hrest (fun hn => by cases hn)
    | unread hf htail =>
        refine hf tree rest ha hrest (fun _ => ?_)
        rintro (hn | hn)
        · exact hn rfl
        · rw [htail] at hn
          cases hn
    | shape hf => exact hf tree rest ha hrest (fun hn => by cases hn)

/-! ## Kinds of the right sort -/

/-- Tokens become leaves and expressions become branches. -/
def Element.WellKinded : Element → Prop
  | .token _ kind => ∃ leafKind, kind = .leaf leafKind
  | .expression _ _ kind => ∃ branchKind, kind = .branch branchKind
  | _ => True

instance (kind : Tree.Kind) : Decidable (∃ leafKind, kind = .leaf leafKind) :=
  match kind with
  | .leaf leafKind => .isTrue ⟨leafKind, rfl⟩
  | .branch _ => .isFalse (by rintro ⟨_, h⟩; cases h)

instance (kind : Tree.Kind) : Decidable (∃ branchKind, kind = .branch branchKind) :=
  match kind with
  | .leaf _ => .isFalse (by rintro ⟨_, h⟩; cases h)
  | .branch branchKind => .isTrue ⟨branchKind, rfl⟩

instance (element : Element) : Decidable element.WellKinded :=
  match element with
  | .token _ kind => inferInstanceAs (Decidable (∃ leafKind, kind = .leaf leafKind))
  | .expression _ _ kind => inferInstanceAs (Decidable (∃ branchKind, kind = .branch branchKind))
  | .tree _ | .choice _ | .repeated _ _ | .orEmpty _ | .literal _ _ | .ahead _ => .isTrue trivial

/-- Every kind in the grammar is of the right sort. -/
def WellKinded (grammar : Grammar) : Prop :=
  ∀ id, (∃ kind, (grammar.rule id).kind = .branch kind) ∧
    ∀ element ∈ (grammar.rule id).elements, element.WellKinded

theorem rule_of_size_le {id : RuleId} (h : grammar.rules.size ≤ id) :
    grammar.rule id = .plain "" [] := by
  rw [rule, Array.getElem?_eq_none h]
  rfl

/-- Only the rules of the table need a look. -/
theorem wellKinded_of_table
    (h : ∀ id < grammar.rules.size, (∃ kind, (grammar.rule id).kind = .branch kind) ∧
      ∀ element ∈ (grammar.rule id).elements, element.WellKinded) : grammar.WellKinded := by
  intro id
  rcases Nat.lt_or_ge id grammar.rules.size with hid | hid
  · exact h id hid
  · rw [rule_of_size_le hid]
    exact ⟨⟨.list, rfl⟩, by simp [Rule.plain]⟩

/-- In a well-kinded grammar every tree can be built. -/
theorem WellKinded.failureClosed (hw : grammar.WellKinded) :
    FailureClosed grammar R (fun _ _ _ cause => cause ≠ .shape) := by
  have hchain : ∀ {factor operators branchKind tokens rest cause},
      ChainsFail R (fun _ _ _ cause => cause ≠ .shape) factor operators (.branch branchKind)
        tokens rest cause → cause ≠ .shape := by
    intro factor operators branchKind tokens rest cause h
    induction h with
    | unread => simp
    | now _ hf => exact hf
    | shape _ hk => cases hk
    | later _ _ _ ih => exact ih
  have hrepeat : ∀ {rule tokens rest cause},
      RepeatsFail grammar R (fun _ _ _ cause => cause ≠ .shape) rule tokens rest cause →
      cause ≠ .shape := by
    intro rule tokens rest cause h
    induction h with
    | unread => simp
    | now _ hf => exact hf
    | later _ _ _ ih => exact ih
  refine ⟨?_, ?_⟩
  · intro id tokens rest cause h
    have helements := (hw id).2
    generalize (grammar.rule id).elements = elements at h helements
    induction h with
    | @here element _ _ _ _ hfail =>
        have helement := helements element List.mem_cons_self
        cases hfail with
        | unread => simp
        | tree hf => exact hf
        | chosen _ hf => exact hf
        | unchosen => simp
        | many hf => exact hrepeat hf
        | once _ hf => exact hf
        | filled _ hf => exact hf
        | shapeEmpty _ hk =>
            obtain ⟨kind, hkind⟩ := (hw _).1
            rw [hk] at hkind
            cases hkind
        | shapeToken =>
            obtain ⟨_, hk⟩ := helement
            cases hk
        | token => simp
        | literal => simp
        | ahead => simp
        | operand hf => exact hf
        | chain _ hf =>
            obtain ⟨_, rfl⟩ := helement
            exact hchain hf
    | there _ _ ih => exact ih fun element he => helements element (List.mem_cons_of_mem _ he)
  · intro id kind tokens rest hkind
    obtain ⟨kind', hkind'⟩ := (hw id).1
    rw [hkind] at hkind'
    cases hkind'

end Grammar

end TreeScript
