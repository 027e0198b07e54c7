import TreeScript.Proofs.Grammar.InsertChoice

/-!
# The leaves of a parsed tree

Each token that a rule takes is taken by an element, of the rule itself or of a rule in it.
Tokens of a class, texts that are kept and operators become leaves. A text that is dropped does
not. `Yields` derives what is taken together with what is kept, rule by rule and without a look
at the tokens ahead.

The tree of a parse has the leaves that are kept (`closed_leaves`): a group of one tree is that
tree, an empty list is left out, an empty tree stands for a rule that is absent, and a chain of
operators is put together from inside, and none of this loses a leaf, doubles one or moves one
past another. What is kept is what is taken without the separators (`Yields.sifted`).
-/

namespace TreeScript

namespace Grammar

open TokenStream

/-! ## Tokens that are taken and kept -/

mutual
/-- The tokens that a rule takes, and those of them that it keeps. -/
inductive Yields (grammar : Grammar) : RuleId → List Token → List Token → Prop where
  /-- Those of its elements. -/
  | rule {id : RuleId} {taken kept : List Token} :
      YieldsAll grammar (grammar.rule id).elements taken kept → Yields grammar id taken kept

/-- The tokens that a sequence of elements takes, and those of them that it keeps. -/
inductive YieldsAll (grammar : Grammar) : List Element → List Token → List Token → Prop where
  /-- No element takes no token. -/
  | nil : YieldsAll grammar [] [] []
  /-- One element after another. -/
  | cons {element : Element} {elements : List Element} {taken taken' kept kept' : List Token} :
      ElementYields grammar element taken kept → YieldsAll grammar elements taken' kept' →
      YieldsAll grammar (element :: elements) (taken ++ taken') (kept ++ kept')

/-- The tokens that an element takes, and those of them that it keeps. -/
inductive ElementYields (grammar : Grammar) : Element → List Token → List Token → Prop where
  /-- Those of another rule. -/
  | tree {rule : RuleId} {taken kept : List Token} :
      Yields grammar rule taken kept → ElementYields grammar (.tree rule) taken kept
  /-- Those of one of several rules. -/
  | choice {rules : List RuleId} {rule : RuleId} {taken kept : List Token} :
      rule ∈ rules → Yields grammar rule taken kept →
      ElementYields grammar (.choice rules) taken kept
  /-- A rule does not occur, or not again. -/
  | absent {rule : RuleId} {times : Times} : ElementYields grammar (.repeated rule times) [] []
  /-- A rule occurs once more. -/
  | again {rule : RuleId} {taken taken' kept kept' : List Token} :
      Yields grammar rule taken kept → ElementYields grammar (.repeated rule .any) taken' kept' →
      ElementYields grammar (.repeated rule .any) (taken ++ taken') (kept ++ kept')
  /-- A rule occurs that does so at most once. -/
  | once {rule : RuleId} {taken kept : List Token} :
      Yields grammar rule taken kept →
      ElementYields grammar (.repeated rule .atMostOnce) taken kept
  /-- An empty tree stands for a rule. -/
  | empty {rule : RuleId} : ElementYields grammar (.orEmpty rule) [] []
  /-- A rule occurs for which an empty tree could stand. -/
  | filled {rule : RuleId} {taken kept : List Token} :
      Yields grammar rule taken kept → ElementYields grammar (.orEmpty rule) taken kept
  /-- A token of a class is kept. -/
  | token {wanted : TokenClass} {kind : Tree.Kind} {token : Token} :
      grammar.accepts wanted token = true →
      ElementYields grammar (.token wanted kind) [token] [token]
  /-- A text is kept. -/
  | kept {texts : List String} {token : Token} :
      isLiteral texts token = true → ElementYields grammar (.literal texts true) [token] [token]
  /-- A text is dropped. -/
  | dropped {texts : List String} {token : Token} :
      isLiteral texts token = true → ElementYields grammar (.literal texts false) [token] []
  /-- A text that comes next is not taken. -/
  | ahead {texts : List String} : ElementYields grammar (.ahead texts) [] []
  /-- One operand. -/
  | operand {factor : RuleId} {operators : Operators} {kind : Tree.Kind}
      {taken kept : List Token} :
      Yields grammar factor taken kept →
      ElementYields grammar (.expression factor operators kind) taken kept
  /-- One more operator, which is kept, and its operand. -/
  | operator {factor : RuleId} {operators : Operators} {kind : Tree.Kind} {operator : Token}
      {precedence : Precedence} {taken taken' kept kept' : List Token} :
      ElementYields grammar (.expression factor operators kind) taken kept →
      operators.ofToken? operator = some precedence → Yields grammar factor taken' kept' →
      ElementYields grammar (.expression factor operators kind) (taken ++ operator :: taken')
        (kept ++ operator :: kept')
end

/-! ## What a tree keeps -/

/-- The trees that are dropped have no tokens. -/
theorem tokensOf_unlessEmpty (tree : Tree) : Tree.tokensOf (unlessEmpty tree) = tree.tokens := by
  cases hempty : tree.isEmptyList with
  | true =>
      rw [unlessEmpty, if_pos hempty]
      unfold Tree.isEmptyList at hempty
      split at hempty
      · rfl
      · cases hempty
  | false => simp [unlessEmpty, hempty, Tree.tokensOf]

/-- The rule takes the tokens in front of the rest, and the leaves of the tree are those it keeps.
-/
def Leaves (grammar : Grammar) : Success := fun id tokens tree rest =>
  ∃ taken, tokens = taken ++ rest ∧ Yields grammar id taken tree.tokens

section Leaves

variable {grammar : Grammar} {tokens rest : List Token} {trees : List Tree}

/-- A repetition takes the tokens in front of the rest, turn by turn. -/
theorem exists_taken_of_repeats {rule : RuleId}
    (h : Repeats grammar (Leaves grammar) rule tokens trees rest) :
    ∃ taken, tokens = taken ++ rest ∧
      ElementYields grammar (.repeated rule .any) taken (Tree.tokensOf trees) := by
  induction h with
  | done => exact ⟨[], rfl, .absent⟩
  | more _ hr _ ih =>
      obtain ⟨first, rfl, hfirst⟩ := hr
      obtain ⟨others, rfl, hothers⟩ := ih
      rw [Tree.tokensOf_append, tokensOf_unlessEmpty]
      exact ⟨first ++ others, (List.append_assoc ..).symm, .again hfirst hothers⟩

/-- The operators and operands of a chain are kept behind what comes before them. -/
theorem exists_taken_of_chains {factor : RuleId} {operators : Operators} {kind : Tree.Kind}
    {takes : Precedence → Bool} {links : List Link}
    (h : Chains (Leaves grammar) factor operators takes tokens links rest) :
    ∀ {before kept : List Token},
      ElementYields grammar (.expression factor operators kind) before kept →
      ∃ taken, tokens = taken ++ rest ∧
        ElementYields grammar (.expression factor operators kind) (before ++ taken)
          (kept ++ links.flatMap fun link => link.operator :: link.operand.tokens) := by
  induction h with
  | done =>
      intro before kept hbefore
      exact ⟨[], rfl, by simpa using hbefore⟩
  | @more operator _ operand _ _ _ _ hoperator _ hr _ ih =>
      intro before kept hbefore
      obtain ⟨first, rfl, hfirst⟩ := hr
      obtain ⟨others, rfl, hothers⟩ := ih (.operator hbefore hoperator hfirst)
      have htaken : before ++ operator :: first ++ others =
          before ++ (operator :: first ++ others) := List.append_assoc ..
      rw [htaken, List.append_assoc] at hothers
      exact ⟨operator :: first ++ others, by simp, hothers⟩

/-- An element takes the tokens in front of the rest and yields those that it keeps. -/
theorem exists_taken_of_reads {element : Element}
    (h : Reads grammar (Leaves grammar) element tokens trees rest) :
    ∃ taken, tokens = taken ++ rest ∧
      ElementYields grammar element taken (Tree.tokensOf trees) := by
  cases h with
  | tree hr =>
      obtain ⟨taken, htaken, hyields⟩ := hr
      exact ⟨taken, htaken, by simpa [Tree.tokensOf] using ElementYields.tree hyields⟩
  | choice hchoose hr =>
      obtain ⟨taken, htaken, hyields⟩ := hr
      rw [tokensOf_unlessEmpty]
      exact ⟨taken, htaken, .choice (mem_of_firstAt hchoose) hyields⟩
  | many hr => exact exists_taken_of_repeats hr
  | never => exact ⟨[], rfl, .absent⟩
  | once _ hr =>
      obtain ⟨taken, htaken, hyields⟩ := hr
      rw [tokensOf_unlessEmpty]
      exact ⟨taken, htaken, .once hyields⟩
  | empty => exact ⟨[], rfl, by simpa [Tree.tokensOf, Tree.tokens_group] using .empty⟩
  | filled _ hr =>
      obtain ⟨taken, htaken, hyields⟩ := hr
      exact ⟨taken, htaken, by simpa [Tree.tokensOf] using ElementYields.filled hyields⟩
  | @token _ _ token _ haccepts => exact ⟨[token], rfl, .token haccepts⟩
  | @dropped _ token _ hliteral => exact ⟨[token], rfl, .dropped hliteral⟩
  | @kept _ token _ hliteral => exact ⟨[token], rfl, .kept hliteral⟩
  | ahead => exact ⟨[], rfl, .ahead⟩
  | expression _ hr hc =>
      obtain ⟨first, rfl, hfirst⟩ := hr
      obtain ⟨others, rfl, hothers⟩ := exists_taken_of_chains hc (.operand hfirst)
      refine ⟨first ++ others, (List.append_assoc ..).symm, ?_⟩
      rw [Tree.tokensOf, tokens_climb, Tree.tokensOf, List.append_nil]
      exact hothers

/-- Elements take the tokens in front of the rest, one element after the other. -/
theorem exists_taken_of_readsAll {elements : List Element}
    (h : ReadsAll grammar (Leaves grammar) elements tokens trees rest) :
    ∃ taken, tokens = taken ++ rest ∧ YieldsAll grammar elements taken (Tree.tokensOf trees) := by
  induction h with
  | nil => exact ⟨[], rfl, .nil⟩
  | cons hr _ ih =>
      obtain ⟨first, rfl, hfirst⟩ := exists_taken_of_reads hr
      obtain ⟨others, rfl, hothers⟩ := ih
      rw [Tree.tokensOf_append]
      exact ⟨first ++ others, (List.append_assoc ..).symm, .cons hfirst hothers⟩

/-- Whatever the rules of a grammar read, the leaves are the tokens that are kept. -/
theorem closed_leaves (grammar : Grammar) : Closed grammar (Leaves grammar) := by
  intro id kind tokens trees rest _ h
  obtain ⟨taken, htaken, hyields⟩ := exists_taken_of_readsAll h
  rw [Leaves, Tree.tokens_group]
  exact ⟨taken, htaken, .rule hyields⟩

end Leaves

/-! ## What is not kept -/

/-- The second list is the first one without some tokens. Each token that is left out may be
dropped, and each of the others may be kept. -/
inductive Sifted (MayKeep MayDrop : Token → Prop) : List Token → List Token → Prop where
  /-- Nothing is left to sift. -/
  | nil : Sifted MayKeep MayDrop [] []
  /-- A token is kept. -/
  | kept {token : Token} {taken kept : List Token} :
      MayKeep token → Sifted MayKeep MayDrop taken kept →
      Sifted MayKeep MayDrop (token :: taken) (token :: kept)
  /-- A token is dropped. -/
  | dropped {token : Token} {taken kept : List Token} :
      MayDrop token → Sifted MayKeep MayDrop taken kept →
      Sifted MayKeep MayDrop (token :: taken) kept

section Sifted

variable {MayKeep MayDrop : Token → Prop} {taken taken' kept kept' : List Token}

theorem Sifted.append (h : Sifted MayKeep MayDrop taken kept)
    (h' : Sifted MayKeep MayDrop taken' kept') :
    Sifted MayKeep MayDrop (taken ++ taken') (kept ++ kept') := by
  induction h with
  | nil => exact h'
  | kept hkeep _ ih => exact .kept hkeep ih
  | dropped hdrop _ ih => exact .dropped hdrop ih

/-- What is kept is in order. -/
theorem Sifted.sublist (h : Sifted MayKeep MayDrop taken kept) : kept.Sublist taken := by
  induction h with
  | nil => exact .slnil
  | kept _ _ ih => exact ih.cons_cons _
  | dropped _ _ ih => exact ih.cons _

theorem Sifted.mayKeep (h : Sifted MayKeep MayDrop taken kept) : ∀ token ∈ kept, MayKeep token := by
  induction h with
  | nil => exact fun _ hmem => nomatch hmem
  | kept hkeep _ ih => exact List.forall_mem_cons.2 ⟨hkeep, ih⟩
  | dropped _ _ ih => exact ih

/-- Where nothing may be dropped all is kept. -/
theorem Sifted.eq_of_none (h : Sifted MayKeep MayDrop taken kept)
    (hnone : ∀ token, ¬ MayDrop token) : kept = taken := by
  induction h with
  | nil => rfl
  | kept _ _ ih => rw [ih]
  | dropped hdrop => exact absurd hdrop (hnone _)

end Sifted

/-- The token is not the end of the source. -/
def Present (token : Token) : Prop := token.isEndOfFile = false

theorem present_of_ne {token : Token} (h : ∀ line, token ≠ ⟨.endOfFile, line⟩) :
    Present token := by
  obtain ⟨kind, line⟩ := token
  cases kind with
  | endOfFile => exact absurd rfl (h line)
  | word | number | string | endOfLine => rfl

theorem present_of_accepts {grammar : Grammar} {wanted : TokenClass} {token : Token}
    (h : grammar.accepts wanted token = true) : Present token := by
  apply present_of_ne
  intro line hend
  rw [hend, accepts_endOfFile] at h
  cases h

theorem present_of_isLiteral {texts : List String} {token : Token}
    (h : isLiteral texts token = true) : Present token := by
  apply present_of_ne
  intro line hend
  rw [hend, isLiteral_endOfFile] at h
  cases h

theorem present_of_ofToken? {operators : Operators} {precedence : Precedence} {token : Token}
    (h : operators.ofToken? token = some precedence) : Present token := by
  apply present_of_ne
  intro line hend
  rw [hend, ofToken?_endOfFile] at h
  cases h

/-- A separator in a rule that the root uses accepts the token. -/
def SeparatesIn (grammar : Grammar) (root : RuleId) (token : Token) : Prop :=
  ∃ rule texts, Uses grammar root rule ∧ .literal texts false ∈ (grammar.rule rule).elements ∧
    isLiteral texts token = true

section Yields

variable {grammar : Grammar} {root : RuleId}

mutual
/-- Only separators are not kept, and the end of the source is no leaf. -/
theorem Yields.sifted {id : RuleId} {taken kept : List Token} (huses : Uses grammar root id) :
    Yields grammar id taken kept → Sifted Present (SeparatesIn grammar root) taken kept
  | .rule h => YieldsAll.sifted huses (List.Subset.refl _) h

/-- A token that elements leave out is one that a separator of a rule in use takes. -/
theorem YieldsAll.sifted {rule : RuleId} {elements : List Element} {taken kept : List Token}
    (huses : Uses grammar root rule) (hmem : elements ⊆ (grammar.rule rule).elements) :
    YieldsAll grammar elements taken kept → Sifted Present (SeparatesIn grammar root) taken kept
  | .nil => .nil
  | .cons h hs =>
      (ElementYields.sifted huses (List.cons_subset.1 hmem).1 h).append
        (YieldsAll.sifted huses (List.cons_subset.1 hmem).2 hs)

/-- A token that an element leaves out is one that a separator of a rule in use takes. -/
theorem ElementYields.sifted {rule : RuleId} {element : Element} {taken kept : List Token}
    (huses : Uses grammar root rule) (hmem : element ∈ (grammar.rule rule).elements) :
    ElementYields grammar element taken kept →
      Sifted Present (SeparatesIn grammar root) taken kept
  | .tree h => h.sifted (huses.next hmem (List.mem_singleton_self _))
  | .choice hrule h => h.sifted (huses.next hmem hrule)
  | .absent => .nil
  | .again h hs =>
      (h.sifted (huses.next hmem (List.mem_singleton_self _))).append
        (ElementYields.sifted huses hmem hs)
  | .once h => h.sifted (huses.next hmem (List.mem_singleton_self _))
  | .empty => .nil
  | .filled h => h.sifted (huses.next hmem (List.mem_singleton_self _))
  | .token haccepts => .kept (present_of_accepts haccepts) .nil
  | .kept hliteral => .kept (present_of_isLiteral hliteral) .nil
  | .dropped hliteral => .dropped ⟨rule, _, huses, hmem, hliteral⟩ .nil
  | .ahead => .nil
  | .operand h => h.sifted (huses.next hmem (List.mem_singleton_self _))
  | .operator hs hoperator h =>
      (ElementYields.sifted huses hmem hs).append
        (.kept (present_of_ofToken? hoperator)
          (h.sifted (huses.next hmem (List.mem_singleton_self _))))
end

end Yields

/-! ## Parsing -/

/-- What a parse consumes are tokens, and its rule yields the leaves of the tree from them. -/
theorem exists_taken_of_gives {grammar : Grammar} {rule : RuleId} {stream stream' : TokenStream}
    {tree : Tree} (h : (grammar.parse rule).Gives stream tree stream') :
    ∃ taken : List Token, stream.items = taken.map .ok ++ stream'.items ∧
      Yields grammar rule taken tree.tokens := by
  obtain ⟨tokens, tail, hs⟩ := stream.exists_shows
  have hensures := ensures_parse fun n => ensures_parseWithin (closed_leaves grammar)
    (failureClosed_any grammar (Leaves grammar)) n rule stream tokens hs
  obtain ⟨rest, hrest, taken, rfl, hyields⟩ := hensures.of_gives h
  have hitems : stream.items = taken.map .ok ++ stream'.items := by
    rw [hs.1, hrest.1, List.map_append, List.append_assoc]
  exact ⟨taken, hitems, hyields⟩

/-- The leaves of a parsed tree from left to right are tokens that were taken, each at most once
and in their order. Those that are missing were taken by separators of rules in use, and if there
are no separators none is missing. The end of the source is never a leaf. -/
theorem parse_retains {grammar : Grammar} {rule : RuleId} {stream stream' : TokenStream}
    {tree : Tree} (h : (grammar.parse rule).Gives stream tree stream') :
    ∃ taken : List Token, stream.items = taken.map .ok ++ stream'.items ∧
      Yields grammar rule taken tree.tokens ∧ tree.tokens.Sublist taken ∧
      Sifted Present (SeparatesIn grammar rule) taken tree.tokens ∧
      ((∀ other, Uses grammar rule other →
        ∀ texts, .literal texts false ∉ (grammar.rule other).elements) → tree.tokens = taken) ∧
      ∀ token ∈ tree.tokens, token.isEndOfFile = false := by
  obtain ⟨taken, hitems, hyields⟩ := exists_taken_of_gives h
  have hsifted : Sifted Present (SeparatesIn grammar rule) taken tree.tokens :=
    hyields.sifted .self
  have hall : (∀ other, Uses grammar rule other →
      ∀ texts, .literal texts false ∉ (grammar.rule other).elements) → tree.tokens = taken := by
    intro hnone
    apply hsifted.eq_of_none
    intro token ⟨other, texts, huses, hmem, _⟩
    exact hnone other huses texts hmem
  exact ⟨taken, hitems, hyields, hsifted.sublist, hsifted, hall, hsifted.mayKeep⟩

/-- Sums between brackets with commas after them. A mark may stand behind them, and a semicolon has
to. -/
def listing : Grammar :=
  let operators : Operators := .ofRows [("+", ⟨1, .left⟩), ("*", ⟨2, .left⟩)]
  ⟨#[.plain "number" [.token .number (.leaf .number)],
    .plain "sum" [.expression 0 operators (.branch .binary)],
    .plain "tail" [.literal [","] false, .tree 1],
    ⟨"mark", .branch .block, [.literal ["!"] true]⟩,
    .plain "end" [.literal [";"] false],
    .plain "list" [.literal ["["] false, .tree 1, .repeated 2 .any, .orEmpty 3, .choice [4],
      .literal ["]"] false]], []⟩

theorem uses_sum {rule : RuleId} (h : Uses listing 1 rule) : rule = 0 ∨ rule = 1 := by
  induction h with
  | self => exact .inr rfl
  | next _ hmem hother ih =>
      cases ih with
      | inl hrule =>
          subst hrule
          cases List.mem_singleton.1 hmem
          cases hother
      | inr hrule =>
          subst hrule
          cases List.mem_singleton.1 hmem
          exact .inl (List.mem_singleton.1 hother)

/-- A list drops its brackets, its comma and its semicolon and keeps the rest in order. A sum has
nothing to drop. -/
theorem parse_retains_listing :
    let stream := ofSource (.ofText "[1 + 2 * 3, 4 ;]\n")
    let sum := ofSource (.ofText "1 + 2 * 3\n")
    let kept : List Token := [⟨.number 1, 1⟩, ⟨.word "+", 1⟩, ⟨.number 2, 1⟩, ⟨.word "*", 1⟩,
      ⟨.number 3, 1⟩]
    (∃ tree stream' taken, (listing.parse 5).Gives stream tree stream' ∧
      tree.tokens = kept ++ [⟨.number 4, 1⟩] ∧ stream.items = taken.map .ok ++ stream'.items ∧
      Yields listing 5 taken tree.tokens ∧ tree.tokens.Sublist taken ∧
      Sifted Present (SeparatesIn listing 5) taken tree.tokens ∧
      ∀ token ∈ tree.tokens, token.isEndOfFile = false) ∧
    ∃ tree stream', (listing.parse 1).Gives sum tree stream' ∧ tree.tokens = kept ∧
      sum.items = tree.tokens.map .ok ++ stream'.items := by
  intro stream sum kept
  constructor
  · have hparse : (listing.parse 5 stream).value?.map (·.1.tokens) =
        some (kept ++ [⟨.number 4, 1⟩]) := by decide +kernel
    obtain ⟨⟨tree, stream'⟩, hvalue, htokens⟩ := Option.map_eq_some_iff.1 hparse
    have hgives := Action.gives_of_value? hvalue
    obtain ⟨taken, hitems, hyields, hsublist, hsifted, -, hpresent⟩ := parse_retains hgives
    exact ⟨tree, stream', taken, hgives, htokens, hitems, hyields, hsublist, hsifted, hpresent⟩
  · have hparse : (listing.parse 1 sum).value?.map (·.1.tokens) = some kept := by decide +kernel
    obtain ⟨⟨tree, stream'⟩, hvalue, htokens⟩ := Option.map_eq_some_iff.1 hparse
    have hgives := Action.gives_of_value? hvalue
    obtain ⟨taken, hitems, -, -, -, hall, -⟩ := parse_retains hgives
    have hnone : ∀ other, Uses listing 1 other →
        ∀ texts, .literal texts false ∉ (listing.rule other).elements := by
      intro other huses texts hmem
      cases uses_sum huses with
      | inl hother =>
          subst hother
          cases List.mem_singleton.1 hmem
      | inr hother =>
          subst hother
          cases List.mem_singleton.1 hmem
    rw [← hall hnone] at hitems
    exact ⟨tree, stream', hgives, htokens, hitems⟩

end Grammar

end TreeScript
