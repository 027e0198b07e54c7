import TreeScript.Proofs.Grammar.Ending

/-!
# Expressions are split at their loosest operator

The parser of an expression goes from left to right and decides at each operator whether to
fold it in. What it builds is what one gets from the whole expression by splitting it at the
loosest operator, the last one of those that group to the left and the first one of those
that group to the right (`expression_splits`).

This is about expressions whose operands are single tokens. `TakesToken` says that a rule
takes a token and nothing else. A rule made of one class of tokens does (`takesToken_of_token`),
and so does a choice between such rules (`takesToken_of_choice`).
-/

namespace TreeScript

namespace Grammar

open TokenStream

/-! ## Operands that are tokens -/

/-- Within any budget from `least` on, the rule takes the token and nothing else, and gives the
tree. -/
def TakesToken (grammar : Grammar) (least : Nat) (id : RuleId) (token : Token) (tree : Tree) :
    Prop :=
  ∀ n, least ≤ n → ∀ stream rest tail, stream.Shows (token :: rest) tail →
    ∃ stream', (grammar.parseWithin n id).Gives stream tree stream' ∧ stream'.Shows rest tail

/-- A rule that is one class of tokens takes each token of the class. -/
theorem takesToken_of_token {grammar : Grammar} {id : RuleId} {name : String}
    {kind : Tree.BranchKind} {wanted : TokenClass} {leafKind : Tree.LeafKind} {token : Token}
    (hrule : grammar.rule id = ⟨name, .branch kind, [.token wanted (.leaf leafKind)]⟩)
    (haccepts : grammar.accepts wanted token = true) :
    TakesToken grammar 1 id token (.group kind [.leaf leafKind token]) := by
  intro n hn stream rest tail h
  obtain ⟨n, rfl⟩ : ∃ m, n = m + 1 := ⟨n - 1, by omega⟩
  have hnext : next.Ensures stream
      (fun token' stream' => token' = token ∧ stream'.Shows rest tail) (fun _ _ => False) := by
    refine ensures_next h ?_ (fun _ _ _ hn => by cases hn)
    intro token' stream' hsees _ hshow
    rcases hsees with ⟨rest', hcons⟩ | ⟨hn, -⟩
    · cases hcons
      exact ⟨rfl, hshow⟩
    · cases hn
  obtain ⟨token', stream', hgives, htoken, hshow⟩ := hnext.exists_gives ends_next
  subst htoken
  refine ⟨stream', ?_, hshow⟩
  rw [parseWithin, hrule, parseRule]
  refine Action.Gives.bind ⟨[.parsing name], rfl⟩ ?_
  have helement : (grammar.parseElements (grammar.parseWithin n) n
      [.token wanted (.leaf leafKind)]).Gives stream [.leaf leafKind token'] stream' := by
    refine Action.Gives.bind (a := [.leaf leafKind token']) (hgives.bind ?_) (Action.gives_pure _)
    rw [if_pos haccepts]
    exact Action.gives_pure _
  exact helement.bind (Action.gives_pure _)

/-- A rule that is a choice takes a token that the chosen rule takes. -/
theorem takesToken_of_choice {grammar : Grammar} {least : Nat} {id other : RuleId} {name : String}
    {kind : Tree.BranchKind} {rules : List RuleId} {token : Token} {tree : Tree}
    (hrule : grammar.rule id = ⟨name, .branch kind, [.choice rules]⟩)
    (hchoose : grammar.chooseAt rules token = some (some other))
    (htakes : TakesToken grammar least other token tree) :
    TakesToken grammar (least + 1) id token (.group kind (unlessEmpty tree)) := by
  intro n hn stream rest tail h
  obtain ⟨n, rfl⟩ : ∃ m, n = m + 1 := ⟨n - 1, by omega⟩
  have hchosen : (grammar.choose rules).Ensures stream
      (fun first stream' => first = some other ∧ stream'.Shows (token :: rest) tail)
      (fun _ _ => False) := by
    refine (ensures_choose rules h).mono ?_ ?_
    · rintro first stream' ⟨hshow, hc⟩
      rw [front_cons, hchoose] at hc
      cases hc
      exact ⟨rfl, hshow⟩
    · rintro error stream' ⟨hn, -⟩
      cases hn
  obtain ⟨_, stream', hgives, rfl, hshow⟩ :=
    hchosen.exists_gives (ends_choose h (by simp [hchoose]))
  obtain ⟨stream'', htree, hshow'⟩ := htakes n (by omega) stream' rest tail hshow
  refine ⟨stream'', ?_, hshow'⟩
  rw [parseWithin, hrule, parseRule]
  refine Action.Gives.bind ⟨[.parsing name], rfl⟩ ?_
  have helements : (grammar.parseElements (grammar.parseWithin n) n [.choice rules]).Gives stream
      (unlessEmpty tree ++ []) stream'' :=
    Action.Gives.bind (hgives.bind (htree.bind (Action.gives_pure _)))
      (Action.Gives.bind (Action.gives_pure _) (Action.gives_pure _))
  rw [List.append_nil] at helements
  exact helements.bind (Action.gives_pure _)

/-! ## Expressions -/

/-- The tokens of operators, each with the operand that follows it. -/
def pairTokens : List (Token × Token) → List Token
  | [] => []
  | (operator, operand) :: pairs => operator :: operand :: pairTokens pairs

/-- The links of operators, each with the operand that follows it. -/
inductive Linked (grammar : Grammar) (least : Nat) (factor : RuleId) (operators : Operators) :
    List (Token × Token) → List Link → Prop where
  /-- No operator. -/
  | nil : Linked grammar least factor operators [] []
  /-- One more operator with a token that is an operand. -/
  | cons {operator token : Token} {precedence : Precedence} {operand : Tree}
      {pairs : List (Token × Token)} {links : List Link} :
      operators.ofToken? operator = some precedence →
      TakesToken grammar least factor token operand →
      Linked grammar least factor operators pairs links →
      Linked grammar least factor operators ((operator, token) :: pairs)
        (⟨operator, precedence, operand⟩ :: links)

section

variable {grammar : Grammar} {least : Nat} {factor : RuleId} {operators : Operators}

/-- The operands that are single tokens. -/
def Operand (grammar : Grammar) (least : Nat) (factor : RuleId) : Success :=
  fun id tokens tree rest => id = factor ∧
    ∃ token, tokens = token :: rest ∧ TakesToken grammar least factor token tree

theorem trims_operand : Trims (Operand grammar least factor) := by
  rintro id tokens tree rest ⟨-, token, rfl, -⟩
  exact List.suffix_cons _ _

/-- A tree, if it is there, is the one that the operand gives. -/
def OperandOnly (grammar : Grammar) (least : Nat) (factor : RuleId) : Success :=
  fun id tokens tree rest => ∀ tree' rest', Operand grammar least factor id tokens tree' rest' →
    tree = tree' ∧ rest = rest'

/-- An operand does not fail. -/
def NoOperand (grammar : Grammar) (least : Nat) (factor : RuleId) : Failure :=
  fun id tokens _ _ => ∀ tree' rest', ¬ Operand grammar least factor id tokens tree' rest'

/-- From the least budget on the factor is an operand, which takes what it is assumed to take. -/
theorem followsOperand_parseWithin {n : Nat} (hn : least ≤ n) (tail : List Item) :
    FollowsOperand (OperandOnly grammar least factor) (NoOperand grammar least factor)
      tail factor (grammar.parseWithin n factor) := by
  intro stream tokens h
  have hany : Follows (fun _ _ _ _ => True) (fun _ _ _ _ => True) tail (grammar.parseWithin n) :=
    ensures_parseWithin (fun _ _ _ _ _ _ _ => trivial)
      ⟨fun _ _ _ _ _ => trivial, fun _ _ _ _ _ => trivial⟩ n
  by_cases hop : ∃ tree rest, Operand grammar least factor factor tokens tree rest
  · obtain ⟨tree, rest, -, token, rfl, htakes⟩ := hop
    obtain ⟨stream', ⟨journal, hgives⟩, hshow⟩ := htakes n hn stream rest tail h
    unfold Action.Ensures
    rw [hgives]
    refine ⟨rest, hshow, ?_⟩
    rintro tree' rest' ⟨-, token', hcons, htakes'⟩
    cases hcons
    obtain ⟨_, ⟨_, hgives'⟩, -⟩ := htakes' n hn stream rest tail h
    rw [hgives] at hgives'
    cases hgives'
    exact ⟨rfl, rfl⟩
  · have hno : ∀ tree rest, ¬ Operand grammar least factor factor tokens tree rest :=
      fun tree rest ho => hop ⟨tree, rest, ho⟩
    refine (hany factor stream tokens h).mono ?_ (fun _ _ he => he.mono fun _ _ _ => hno)
    rintro tree stream' ⟨rest, hshow, -⟩
    exact ⟨rest, hshow, fun tree' rest' ho => absurd ho (hno tree' rest')⟩

/-- The pairs of an operator and an operand are a chain up to a token that is no operator. -/
theorem Linked.chains {pairs : List (Token × Token)} {links : List Link} {rest : List Token}
    (h : Linked grammar least factor operators pairs links)
    (hrest : operators.ofToken? (front rest) = none) :
    Chains (Operand grammar least factor) factor operators (fun _ => true)
      (pairTokens pairs ++ rest) links rest := by
  induction h with
  | nil =>
      refine .done ?_
      intro precedence hp
      rw [pairTokens, List.nil_append, hrest] at hp
      cases hp
  | cons ho ht _ ih => exact .more ho rfl ⟨rfl, _, rfl, ht⟩ ih

/-- Links with operators of a consistent table are consistent. -/
theorem Linked.consistent {pairs : List (Token × Token)} {links : List Link}
    (hc : operators.Consistent) (h : Linked grammar least factor operators pairs links) :
    Consistent links := by
  refine hc.links ?_
  induction h with
  | nil => simp
  | cons ho _ _ ih =>
      intro link hl
      rcases List.mem_cons.1 hl with rfl | hl
      · exact ho
      · exact ih link hl

section Linked

variable (kind : Tree.BranchKind) {first : Token} {operand : Tree} {pairs : List (Token × Token)}
variable {links : List Link} {stream : TokenStream} {rest : List Token} {tail : List Item}
variable (hfirst : TakesToken grammar least factor first operand)
variable (hlinks : Linked grammar least factor operators pairs links)
variable (h : stream.Shows (first :: (pairTokens pairs ++ rest)) tail)
variable (hrest : operators.ofToken? (front rest) = none)
include hfirst hlinks h hrest

/-- If the expression ends, it gives the tree of the chain and leaves the rest. -/
theorem ensures_expression_of_linked (hseen : rest ≠ [] ∨ tail = []) {n : Nat} (hn : least ≤ n)
    (budget : Nat) :
    (expression (grammar.parseWithin n factor) operators (.branch kind) budget).Ensures stream
      (fun tree stream' => tree = climb kind operand links ∧ stream'.Shows rest tail)
      (fun _ _ => False) := by
  let Fine (tokens : List Token) : Prop := tokens ≠ [] ∨ tail = []
  have hfine : ∀ {tokens rest : List Token}, rest <:+ tokens → Fine rest → Fine tokens := by
    rintro tokens rest ⟨before, rfl⟩ hrest
    exact hrest.imp_left fun hn he => hn (List.append_eq_nil_iff.1 he).2
  have hagree : Agrees (OperandOnly grammar least factor) (Operand grammar least factor) Fine :=
    fun _ _ _ _ tree' rest' hr ha _ => hr tree' rest' ha
  have hrefute : Refutes (NoOperand grammar least factor) (Operand grammar least factor) Fine :=
    fun _ _ _ _ tree' rest' hf ha _ _ => hf tree' rest' ha
  have hreads : Reads grammar (Operand grammar least factor)
      (.expression factor operators (.branch kind)) (first :: (pairTokens pairs ++ rest))
      [climb kind operand links] rest :=
    .expression (.inl rfl) ⟨rfl, first, rfl, hfirst⟩ (hlinks.chains hrest)
  refine (ensures_expression grammar (followsOperand_parseWithin hn tail) budget h).mono ?_ ?_
  · rintro tree stream' ⟨rest', hshow, hr⟩
    obtain ⟨htree, rfl⟩ := hr.agree trims_operand hfine hagree hreads hseen
    exact ⟨List.head_eq_of_cons_eq htree, hshow⟩
  · intro error _ he
    cases he with
    | unexpected hf _ =>
        exact hf.absurd trims_operand hfine hagree hrefute hreads hseen (fun hn => by cases hn)
    | unread hf htail =>
        refine hf.absurd trims_operand hfine hagree hrefute hreads hseen (fun _ => ?_)
        rintro (hn | hn)
        · exact hn rfl
        · rw [htail] at hn
          cases hn
    | shape hf =>
        exact hf.absurd trims_operand hfine hagree hrefute hreads hseen (fun hn => by cases hn)

/-- The expression ends with a budget above the number of tokens. What is left after an operand is a
chain up to the token that is no operator. -/
theorem ends_expression_of_linked {n : Nat} (hn : least ≤ n) {budget : Nat}
    (hb : (first :: (pairTokens pairs ++ rest)).length < budget) :
    (expression (grammar.parseWithin n factor) operators (.branch kind) budget).Ends stream := by
  refine ends_expression (P := fun tokens => ∃ links,
    Chains (Operand grammar least factor) factor operators (fun _ => true) tokens links rest)
    ?_ (followsOperand_parseWithin hn tail) ?_ h ?_ ?_ hb
  · rintro operator precedence tokens tree rest' ho ⟨links', hc⟩ hr
    cases hc with
    | done hs => cases hs precedence ho
    | more _ _ ha hc' =>
        obtain ⟨rfl, rfl⟩ := hr _ _ ha
        exact ⟨⟨_, hc'⟩, (trims_operand _ _ _ _ ha).length_le⟩
  · rintro stream' operator precedence tokens hshow ho ⟨links', hc⟩
    cases hc with
    | done hs => cases hs precedence ho
    | more _ _ ha _ =>
        obtain ⟨-, token, rfl, htakes⟩ := ha
        obtain ⟨_, hgives, -⟩ := htakes n hn _ _ _ hshow
        exact hgives.ends
  · obtain ⟨_, hgives, -⟩ := hfirst n hn _ _ _ h
    exact hgives.ends
  · intro tree rest' hr
    obtain ⟨rfl, rfl⟩ := hr operand (pairTokens pairs ++ rest) ⟨rfl, first, rfl, hfirst⟩
    exact ⟨⟨links, hlinks.chains hrest⟩, by simp⟩

end Linked

/-- An expression whose operands are single tokens gives the tree that splits it at its loosest
operator, and takes its tokens and no more. It does so as an element of a rule within any
budget that suffices for its operands and its tokens, and as a rule of its own within the
budget of the stream. -/
theorem expression_splits (hc : operators.Consistent) (kind : Tree.BranchKind)
    {first : Token} {operand : Tree} (hfirst : TakesToken grammar least factor first operand)
    {pairs : List (Token × Token)} {links : List Link}
    (hlinks : Linked grammar least factor operators pairs links)
    {stream : TokenStream} {rest : List Token} {tail : List Item}
    (h : stream.Shows (first :: (pairTokens pairs ++ rest)) tail)
    (hrest : operators.ofToken? (front rest) = none) (hseen : rest ≠ [] ∨ tail = []) :
    ∃ tree, Splits kind operand links tree ∧
      (∀ tree', Splits kind operand links tree' → tree' = tree) ∧
      (∀ n, least ≤ n → stream.bound < n → ∃ stream',
        (grammar.parseElement (grammar.parseWithin n) n
          (.expression factor operators (.branch kind))).Gives stream [tree] stream' ∧
        stream'.Shows rest tail) ∧
      (∀ id name ruleKind,
        grammar.rule id = ⟨name, .branch ruleKind, [.expression factor operators (.branch kind)]⟩ →
        least < grammar.budget stream → ∃ stream',
          (grammar.parse id).Gives stream (.group ruleKind [tree]) stream' ∧
          stream'.Shows rest tail) := by
  have hsplits := splits_climb kind operand links (hlinks.consistent hc)
  have helement : ∀ n, least ≤ n → stream.bound < n → ∃ stream',
      (grammar.parseElement (grammar.parseWithin n) n
        (.expression factor operators (.branch kind))).Gives stream
          [climb kind operand links] stream' ∧ stream'.Shows rest tail := by
    intro n hn hbound
    obtain ⟨tree, stream', hgives, rfl, hshow⟩ :=
      (ensures_expression_of_linked kind hfirst hlinks h hrest hseen hn n).exists_gives
        (ends_expression_of_linked kind hfirst hlinks h hrest hn
          (Nat.lt_of_le_of_lt h.length_le_bound hbound))
    exact ⟨stream', hgives.bind (Action.gives_pure _), hshow⟩
  refine ⟨climb kind operand links, hsplits,
    fun tree' hs => hsplits.unique (hlinks.consistent hc) hs, helement, ?_⟩
  intro id name ruleKind hrule hleast
  have hbudget : stream.bound + 2 ≤ grammar.budget stream :=
    Nat.le_mul_of_pos_left _ (Nat.succ_pos _)
  obtain ⟨n, hn⟩ : ∃ n, grammar.budget stream = n + 1 := ⟨grammar.budget stream - 1, by omega⟩
  obtain ⟨stream', hgives, hshow⟩ := helement n (by omega) (by omega)
  have hrun : (grammar.parseWithin (n + 1) id).Gives stream
      (.group ruleKind [climb kind operand links]) stream' := by
    rw [parseWithin, hrule, parseRule]
    refine Action.Gives.bind ⟨[.parsing name], rfl⟩ ?_
    exact Action.Gives.bind (hgives.bind (Action.gives_pure _)) (Action.gives_pure _)
  refine ⟨stream', ?_, hshow⟩
  rw [← hn] at hrun
  exact hrun

end

/-- A power, a product and a sum. Only the power groups to the right. -/
def arithmeticOperators : Operators :=
  .ofRows [("^", ⟨3, .right⟩), ("*", ⟨2, .left⟩), ("+", ⟨1, .left⟩)]

/-- Numbers and names with a power, a product and a sum between them. -/
def arithmetic : Grammar :=
  ⟨#[.plain "number" [.token .number (.leaf .number)],
      .plain "name" [.token .name (.leaf .variable)],
      .plain "operand" [.choice [0, 1]],
      .plain "expr" [.expression 2 arithmeticOperators (.branch .binary)]], [";"]⟩

/-- `a + 2 ^ b ^ c * d` and the end of its line. The powers group to the right, and the product
takes them as its left operand. -/
theorem expression_splits_arithmetic :
    ∃ stream', (arithmetic.parse 3).Gives
      ⟨[⟨.word "a", 1⟩, ⟨.word "+", 1⟩, ⟨.number 2, 1⟩, ⟨.word "^", 1⟩, ⟨.word "b", 1⟩,
        ⟨.word "^", 1⟩, ⟨.word "c", 1⟩, ⟨.word "*", 1⟩, ⟨.word "d", 1⟩, ⟨.endOfLine, 1⟩], [], 1⟩
      (.branch .binary [.leaf .variable ⟨.word "a", 1⟩, .leaf .plain ⟨.word "+", 1⟩,
        .branch .binary [
          .branch .binary [.leaf .number ⟨.number 2, 1⟩, .leaf .plain ⟨.word "^", 1⟩,
            .branch .binary [.leaf .variable ⟨.word "b", 1⟩, .leaf .plain ⟨.word "^", 1⟩,
              .leaf .variable ⟨.word "c", 1⟩]],
          .leaf .plain ⟨.word "*", 1⟩, .leaf .variable ⟨.word "d", 1⟩]]) stream' ∧
      stream'.Shows [⟨.endOfLine, 1⟩] [] := by
  have hrule : arithmetic.rule 2 = ⟨"operand", .branch .list, [.choice [0, 1]]⟩ := rfl
  have hname : ∀ token, arithmetic.accepts .name token = true →
      arithmetic.chooseAt [0, 1] token = some (some 1) →
      TakesToken arithmetic 2 2 token (.leaf .variable token) := by
    intro token haccepts hchoose
    have h : arithmetic.rule 1 = ⟨"name", .branch .list, [.token .name (.leaf .variable)]⟩ := rfl
    exact takesToken_of_choice hrule hchoose (takesToken_of_token h haccepts)
  have hnumber : TakesToken arithmetic 2 2 ⟨.number 2, 1⟩ (.leaf .number ⟨.number 2, 1⟩) := by
    have h : arithmetic.rule 0 = ⟨"number", .branch .list, [.token .number (.leaf .number)]⟩ := rfl
    exact takesToken_of_choice hrule (by decide) (takesToken_of_token h (by decide))
  have hplus : arithmeticOperators.ofToken? ⟨.word "+", 1⟩ = some ⟨1, .left⟩ := by decide
  have htimes : arithmeticOperators.ofToken? ⟨.word "*", 1⟩ = some ⟨2, .left⟩ := by decide
  have hpower : arithmeticOperators.ofToken? ⟨.word "^", 1⟩ = some ⟨3, .right⟩ := by decide
  have hlinks : Linked arithmetic 2 2 arithmeticOperators
      [(⟨.word "+", 1⟩, ⟨.number 2, 1⟩), (⟨.word "^", 1⟩, ⟨.word "b", 1⟩),
        (⟨.word "^", 1⟩, ⟨.word "c", 1⟩), (⟨.word "*", 1⟩, ⟨.word "d", 1⟩)] _ :=
    .cons hplus hnumber
      (.cons hpower (hname _ (by decide) (by decide))
        (.cons hpower (hname _ (by decide) (by decide))
          (.cons htimes (hname _ (by decide) (by decide)) .nil)))
  have hc : arithmeticOperators.Consistent := Operators.consistent_of_rows (by decide)
  have hshows : TokenStream.Shows
      ⟨[⟨.word "a", 1⟩, ⟨.word "+", 1⟩, ⟨.number 2, 1⟩, ⟨.word "^", 1⟩, ⟨.word "b", 1⟩,
        ⟨.word "^", 1⟩, ⟨.word "c", 1⟩, ⟨.word "*", 1⟩, ⟨.word "d", 1⟩, ⟨.endOfLine, 1⟩], [], 1⟩
      (⟨.word "a", 1⟩ :: (pairTokens [(⟨.word "+", 1⟩, ⟨.number 2, 1⟩),
        (⟨.word "^", 1⟩, ⟨.word "b", 1⟩), (⟨.word "^", 1⟩, ⟨.word "c", 1⟩),
        (⟨.word "*", 1⟩, ⟨.word "d", 1⟩)] ++ [⟨.endOfLine, 1⟩])) [] := shows_of_items_eq rfl
  obtain ⟨tree, -, hunique, -, hparse⟩ := expression_splits hc .binary
    (hname ⟨.word "a", 1⟩ (by decide) (by decide)) hlinks hshows (by decide) (.inl (by simp))
  have htree := hunique _ (splits_climb .binary _ _ (hlinks.consistent hc))
  simp only [climb, Link.lends, Link.value, Precedence.takesOperandOf, List.takeWhile,
    List.dropWhile, Nat.reduceLT, Nat.reduceLeDiff, decide_true, decide_false] at htree
  obtain ⟨stream', hgives, hshow⟩ := hparse 3 "expr" .list rfl (by decide)
  rw [← htree] at hgives
  exact ⟨stream', hgives, hshow⟩

end Grammar

end TreeScript
