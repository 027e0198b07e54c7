import TreeScript.Proofs.Language.Opening
import TreeScript.Proofs.Grammar.Parse

/-!
# The tokens that trees keep

A tree of the full language keeps some of the tokens that were read for it: literals, names and
operators. No keyword is one of them (`closed_retains`).
-/

namespace TreeScript

open Grammar TreeScript.Language TreeScript.Derivation

namespace Language

/-- The words that no tree keeps. -/
def keywords : List String := ["if", "else", "while", "def"]

/-- The token is no keyword. -/
def NoKeyword (token : Token) : Prop := ∀ text ∈ keywords, ¬ IsWord text token

/-- The tokens of a tree are among those that were read, and no keyword is one of them. -/
def Retains : Success := fun _ tokens tree rest =>
  rest <:+ tokens ∧ ∀ token ∈ tree.tokens, token ∈ tokens ∧ NoKeyword token

theorem trims_retains : Trims Retains := fun _ _ _ _ h => h.1

/-- The elements of the full language keep a token only if it belongs to a class or is an
operator. -/
def keepsNoText : Element → Bool
  | .literal _ keep => !keep
  | .expression _ table _ => table == operators
  | _ => true

/-- The full language keeps no text of a literal, and its only operators are those of expressions.
-/
theorem keepsNoText_full (id : RuleId) :
    ∀ element ∈ (full.grammar.rule id).elements, keepsNoText element = true := by
  by_cases hid : id < fullSize
  · revert id
    decide +kernel
  · rw [rule_of_size_le (Nat.le_of_not_lt hid)]
    simp [Rule.plain]

/-- What is accepted as a name, a number or a string is no keyword. -/
theorem noKeyword_of_accepts {wanted : TokenClass} {token : Token}
    (h : full.grammar.accepts wanted token = true) : NoKeyword token := by
  intro text htext hword
  cases wanted with
  | number => exact absurd (hword.isNumber_eq.symm.trans h) (by decide)
  | string => exact absurd (hword.isString_eq.symm.trans h) (by decide)
  | name =>
      obtain ⟨kind, line⟩ := token
      obtain rfl : kind = .word text := hword
      exact (accepts_name_iff.1 h).2 htext

theorem noKeyword_of_ofToken? {token : Token} {precedence : Precedence}
    (h : operators.ofToken? token = some precedence) : NoKeyword token := by
  intro text htext hword
  have hnone : ∀ text ∈ keywords, operators.get? text = none := by decide
  rw [hword.ofToken?_eq, hnone text htext] at h
  cases h

/-- The tokens of the trees are among these, and no keyword is one of them. -/
def KeptFrom (tokens : List Token) (trees : List Tree) : Prop :=
  ∀ token ∈ Tree.tokensOf trees, token ∈ tokens ∧ NoKeyword token

section Kept

variable {tokens rest : List Token} {tree : Tree} {trees trees' : List Tree}

theorem KeptFrom.mono (h : KeptFrom rest trees) (hs : rest <:+ tokens) : KeptFrom tokens trees :=
  fun token hmem => ⟨hs.subset (h token hmem).1, (h token hmem).2⟩

/-- What two groups of trees keep together. -/
theorem KeptFrom.append (h : KeptFrom tokens trees) (h' : KeptFrom tokens trees') :
    KeptFrom tokens (trees ++ trees') := by
  intro token hmem
  rw [Tree.tokensOf_append] at hmem
  exact (List.mem_append.1 hmem).elim (h token) (h' token)

theorem keptFrom_singleton {id : RuleId} (h : Retains id tokens tree rest) :
    KeptFrom tokens [tree] := by
  intro token hmem
  exact h.2 token (by simpa [Tree.tokensOf] using hmem)

theorem keptFrom_unlessEmpty {id : RuleId} (h : Retains id tokens tree rest) :
    KeptFrom tokens (unlessEmpty tree) := by
  unfold unlessEmpty
  split
  · exact fun token hmem => by cases hmem
  · exact keptFrom_singleton h

/-- A repetition keeps what its turns keep. -/
theorem keptFrom_repeats {rule : RuleId}
    (h : Repeats full.grammar Retains rule tokens trees rest) : KeptFrom tokens trees := by
  induction h with
  | done => exact fun token hmem => by cases hmem
  | more _ hr _ ih => exact (keptFrom_unlessEmpty hr).append (ih.mono hr.1)

theorem kept_of_chains {factor : RuleId} {takes : Precedence → Bool} {links : List Link}
    (h : Chains Retains factor operators takes tokens links rest) :
    ∀ token ∈ links.flatMap fun link => link.operator :: link.operand.tokens,
      token ∈ tokens ∧ NoKeyword token := by
  induction h with
  | done => simp
  | more ho _ hr _ ih =>
      intro token hmem
      simp only [List.flatMap_cons, List.cons_append, List.mem_cons, List.mem_append] at hmem
      rcases hmem with rfl | hmem | hmem
      · exact ⟨List.mem_cons_self, noKeyword_of_ofToken? ho⟩
      · exact ⟨List.mem_cons_of_mem _ (hr.2 token hmem).1, (hr.2 token hmem).2⟩
      · exact ⟨List.mem_cons_of_mem _ (hr.1.subset (ih token hmem).1), (ih token hmem).2⟩

theorem keptFrom_reads {element : Element} (he : keepsNoText element = true)
    (h : Reads full.grammar Retains element tokens trees rest) : KeptFrom tokens trees := by
  cases h with
  | tree hr => exact keptFrom_singleton hr
  | choice _ hr => exact keptFrom_unlessEmpty hr
  | many hr => exact keptFrom_repeats hr
  | never => exact fun token hmem => by cases hmem
  | once _ hr => exact keptFrom_unlessEmpty hr
  | @empty _ kind =>
      intro token hmem
      simp [Tree.tokensOf, Tree.tokens_group] at hmem
  | filled _ hr => exact keptFrom_singleton hr
  | @token _ _ first _ ha =>
      intro token hmem
      obtain rfl : token = first := by simpa [Tree.tokensOf, Tree.tokens] using hmem
      exact ⟨List.mem_cons_self, noKeyword_of_accepts ha⟩
  | dropped => exact fun token hmem => by cases hmem
  | kept => cases he
  | ahead => exact fun token hmem => by cases hmem
  | expression _ hr hc =>
      obtain rfl := beq_iff_eq.1 he
      intro token hmem
      simp only [Tree.tokensOf, tokens_climb, List.append_nil, List.mem_append] at hmem
      rcases hmem with hmem | hmem
      · exact hr.2 token hmem
      · exact ⟨hr.1.subset (kept_of_chains hc token hmem).1, (kept_of_chains hc token hmem).2⟩

/-- Elements keep what each of them keeps. The induction is on the elements. -/
theorem keptFrom_readsAll {elements : List Element}
    (he : ∀ element ∈ elements, keepsNoText element = true)
    (h : ReadsAll full.grammar Retains elements tokens trees rest) : KeptFrom tokens trees := by
  induction h with
  | nil => exact fun token hmem => by cases hmem
  | cons hr _ ih =>
      have hrest := ih fun element hmem => he element (List.mem_cons_of_mem _ hmem)
      exact (keptFrom_reads (he _ List.mem_cons_self) hr).append
        (hrest.mono (hr.suffix trims_retains))

/-- No rule of the full language keeps a keyword. -/
theorem closed_retains : Closed full.grammar Retains := by
  intro id kind tokens trees rest _ h
  refine ⟨h.suffix trims_retains, fun token hmem => ?_⟩
  rw [Tree.tokens_group] at hmem
  exact keptFrom_readsAll (keepsNoText_full id) h token hmem

end Kept

end Language

end TreeScript
