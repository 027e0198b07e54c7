import TreeScript.Proofs.Language.Complete
import TreeScript.Proofs.Language.Sound

/-!
# The parser and the grammar in words

A statement at the top of the full language is read just where the grammar derives one
(`statement_derives`). What was read has a derivation, and its tree is the one that was given.
What has a derivation is read, with its tree, up to its last token, unless the next token goes
on with it.

There are two ways to go on, both after a closing brace: with the separator that a compound
statement may have, and with the `else` that an `if` may have.
-/

namespace TreeScript

namespace Language

open Grammar TreeScript.Derivation TokenStream

/-! ## What is read is derived -/

/-- What is read of a compound statement and the separator after it derives from a statement. -/
theorem statement_of_compoundEnded {tokens rest : List Token} {tree : Tree}
    (h : CompoundEnded tokens tree rest) : Takes Statement tokens tree rest := by
  rcases h with ⟨⟨⟨t, rfl, ht⟩, -⟩, -⟩ | ⟨separator, hs, ⟨t, rfl, ht⟩, -⟩
  · exact ⟨t, rfl, .compound ht⟩
  · exact ⟨t ++ [separator], by simp, .ended ht hs⟩

/-- The rule of a program stands for statements. -/
theorem statement_of_meaning {tokens rest : List Token} {tree : Tree}
    (h : Meaning full.program tokens tree rest) : Takes Statement tokens tree rest := by
  rcases (h : Meaning programId tokens tree rest) with h | h | h
  · exact statement_of_compoundEnded h
  · obtain ⟨separator, hs, ⟨t, rfl, ht⟩, -⟩ := h
    exact ⟨t ++ [separator], by simp, .simple ht hs⟩
  · obtain ⟨rfl, separator, hs, rfl⟩ := h
    exact ⟨[separator], rfl, .null hs⟩

/-- What is read of a statement is its meaning. -/
theorem ensures_statement {stream : TokenStream} {tokens : List Token} {tail : List Item}
    (hs : stream.Shows tokens tail) (hp : AllPlain tokens) :
    full.statement.Ensures stream
      (fun tree stream' => ∃ rest, stream'.Shows rest tail ∧ Takes Statement tokens tree rest)
      fun _ _ => True := by
  rw [Language.statement]
  refine ensures_parse fun n => (ensures_parseWithin (closedOn_meaning.closed AllPlain.suffix)
    (failureClosed_any _ _) n full.program stream tokens hs).mono ?_ (fun _ _ _ => trivial)
  rintro tree stream' ⟨rest, hrest, -, hm⟩
  exact ⟨rest, hrest, statement_of_meaning (hm hp)⟩

/-! ## What is derived is read -/

/-- The tokens `r` do not go on with the statement `t`. -/
def CanFollow (t r : List Token) : Prop :=
  ∀ next ∈ r.head?, (∀ tree, Compound t tree → ¬ Separator next) ∧
    ∀ condition body, Compound t (.branch .conditional [condition, body]) → ¬ IsWord "else" next

theorem CanFollow.separators_eq {t r : List Token} {tree : Tree} (h : CanFollow t r)
    (ht : Compound t tree) (hp : AllPlain r) : isLiteral separators (front r) = false := by
  cases r with
  | nil => rfl
  | cons next r =>
      rw [Bool.eq_false_iff]
      intro hl
      exact (h next rfl).1 tree ht (separator_of_isLiteral (hp next (List.mem_cons_self ..)) hl)

/-- What can follow an `if` without `else` does not begin with that word. -/
theorem CanFollow.noElse {t r : List Token} {tree : Tree} (h : CanFollow t r)
    (ht : Compound t tree) : NoElse tree r := by
  rintro condition body rfl
  cases r with
  | nil => rfl
  | cons next r =>
      rw [Bool.eq_false_iff]
      intro hl
      exact (h next rfl).2 condition body ht (isWord_of_isLiteral hl (by decide))

/-- A statement is what the rule of a program stands for, where nothing goes on with it. -/
theorem meaning_of_statement {t r : List Token} {tree : Tree} (h : Statement t tree)
    (hp : AllPlain r) (hf : CanFollow t r) : Meaning full.program (t ++ r) tree r := by
  change Meaning programId (t ++ r) tree r
  cases h with
  | compound ht => exact .inl (.inl ⟨⟨⟨t, rfl, ht⟩, hf.noElse ht⟩, hf.separators_eq ht hp⟩)
  | @ended t separator _ ht hs =>
      exact .inl (.inr ⟨separator, hs, ⟨t, by simp, ht⟩, fun _ _ _ => hs.isLiteral_else⟩)
  | @simple t separator _ ht hs =>
      exact .inr (.inl ⟨separator, hs, ⟨t, by simp, ht⟩, hs.isLiteral_paren, hs.ofToken?_eq⟩)
  | @null separator hs => exact .inr (.inr ⟨rfl, separator, hs, rfl⟩)

/-- What a rule stands for is read by it. -/
theorem exists_gives_parse_of_meaning {id : RuleId} {stream : TokenStream}
    {tokens rest : List Token} {tail : List Item} {tree : Tree} (hs : stream.Shows tokens tail)
    (hm : Meaning id tokens tree rest) (hr : rest ≠ [] ∨ tail = []) :
    ∃ stream', (full.grammar.parse id).Gives stream tree stream' ∧ stream'.Shows rest tail := by
  have he : (full.grammar.parse id).Ensures stream
      (fun tree' stream' => tree' = tree ∧ stream'.Shows rest tail) fun _ _ => False :=
    ensures_parse fun n =>
      ensures_parseWithin_of_supported supported_meaning trims_meaning n hs hm hr
  obtain ⟨tree', stream', hg, rfl, hrest⟩ := he.exists_gives (ranked_full.ends_parse id stream)
  exact ⟨stream', hg, hrest⟩

/-- What the rule of a program stands for is read. -/
theorem exists_gives_of_meaning {stream : TokenStream} {tokens rest : List Token}
    {tail : List Item} {tree : Tree} (hs : stream.Shows tokens tail)
    (hm : Meaning full.program tokens tree rest) (hr : rest ≠ [] ∨ tail = []) :
    ∃ stream', full.statement.Gives stream tree stream' ∧ stream'.Shows rest tail :=
  exists_gives_parse_of_meaning hs hm hr

/-! ## Both ways -/

/-- The full language reads, from any stream of a source, the statements of its grammar and
gives their trees. Tokens that derive from the grammar are read, all of them and no more,
unless the next token goes on with them or cannot be read. -/
theorem statement_derives (stream : TokenStream) (h : stream.Reachable) :
    (∀ tree stream', full.statement.Gives stream tree stream' →
      ∃ t, stream.items = t.map .ok ++ stream'.items ∧ Statement t tree) ∧
    (∀ t r tail tree, stream.Shows (t ++ r) tail → (r ≠ [] ∨ tail = []) →
      Statement t tree → CanFollow t r →
      ∃ stream', full.statement.Gives stream tree stream' ∧ stream'.Shows r tail) := by
  constructor
  · intro tree stream' hg
    obtain ⟨tokens, tail, hs⟩ := stream.exists_shows
    have hp := h.plainQueue.plain_of_shows hs
    obtain ⟨rest, hrest, t, rfl, ht⟩ := (ensures_statement hs hp).of_gives hg
    refine ⟨t, ?_, ht⟩
    rw [hs.1, hrest.1]
    simp
  · intro t r tail tree hs hr ht hf
    have hp := h.plainQueue.plain_of_shows hs
    have hpr := AllPlain.suffix (List.suffix_append t r) hp
    exact exists_gives_of_meaning hs (meaning_of_statement ht hpr hf) hr

/-- The tokens of `if x { -f(2) }`. -/
def negatedCall : List Token :=
  [⟨.word "if", 1⟩, ⟨.word "x", 1⟩, ⟨.word "\x7b", 1⟩, ⟨.word "-", 1⟩, ⟨.word "f", 1⟩,
    ⟨.word "(", 1⟩, ⟨.number 2, 1⟩, ⟨.word ")", 1⟩, ⟨.word "\x7d", 1⟩]

/-- The tree of `if x { -f(2) }`. -/
def negatedCallTree : Tree :=
  .branch .conditional [.leaf .variable ⟨.word "x", 1⟩, .branch .block [.branch .negative
    [.branch .primary [.leaf .variable ⟨.word "f", 1⟩,
      .branch .arguments [.leaf .number ⟨.number 2, 1⟩]]]]]

theorem isWord_word (text : String) (line : Nat) : IsWord text ⟨.word text, line⟩ := rfl

/-- A factor is an expression without operators. -/
theorem expr_of_factor {t : List Token} {tree : Tree} (h : Factor t tree) : Expr t tree := by
  simpa using Expr.chain h .nil (.single tree)

theorem statement_negatedCall : Statement negatedCall negatedCallTree := by
  have hname : ∀ text ∈ ["x", "f"], Identifier ⟨.word text, 1⟩ := by
    unfold Identifier
    decide
  have hx := expr_of_factor (.primary (.plain (.name (hname "x" (by decide)))))
  have htwo : Expr [⟨.number 2, 1⟩] (.leaf .number ⟨.number 2, 1⟩) :=
    expr_of_factor (.primary (.plain (.number rfl)))
  have hcall := Call.args (isWord_word "(" 1) (.single htwo) (isWord_word ")" 1)
  have hprimary := Primary.called (.name (hname "f" (by decide))) (.cons hcall .nil) (by simp)
  have hminus := expr_of_factor (.negative (isWord_word "-" 1) hprimary)
  have hblock := @Block.items Compound _ _ _ _ (isWord_word "\x7b" 1) (.last hminus)
    (isWord_word "\x7d" 1)
  exact .compound (.conditional (isWord_word "if" 1) hx hblock)

theorem statement_derives_negatedCall :
    let stream := ofSource (.ofText "if x \x7b -f(2) \x7d y\n")
    let after : List Token := [⟨.word "y", 1⟩, ⟨.endOfLine, 1⟩]
    stream.Reachable ∧ stream.Shows (negatedCall ++ after) [] ∧
      Statement negatedCall negatedCallTree ∧ CanFollow negatedCall after ∧
      ∃ stream', full.statement.Gives stream negatedCallTree stream' ∧ stream'.Shows after [] := by
  intro stream after
  have hshows : stream.Shows (negatedCall ++ after) [] := shows_of_items_eq (by decide +kernel)
  have hfollow : CanFollow negatedCall after := by
    intro next hnext
    cases hnext
    exact ⟨fun _ _ hs => by simp [Separator] at hs, fun _ _ _ hs => by simp [IsWord] at hs⟩
  refine ⟨.ofSource _, hshows, statement_negatedCall, hfollow, ?_⟩
  exact (statement_derives stream (.ofSource _)).2 negatedCall after [] negatedCallTree hshows
    (.inl (List.cons_ne_nil _ _)) statement_negatedCall hfollow

end Language

end TreeScript
