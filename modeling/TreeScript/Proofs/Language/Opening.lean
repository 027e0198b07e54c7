import TreeScript.Proofs.Language.Rules

/-!
# First tokens

What the grammar asks of a token, in terms of words, separators and identifiers, and the
tokens that derivations begin with.
-/

namespace TreeScript

namespace Derivation

open Grammar TreeScript.Language

variable {token : Token} {text : String}

/-! ## Words -/

theorem IsWord.isLiteral_eq (h : IsWord text token) (texts : List String) :
    isLiteral texts token = texts.contains text := by
  obtain ⟨kind, line⟩ := token
  obtain rfl : kind = .word text := h
  rfl

theorem IsWord.isNumber_eq (h : IsWord text token) : token.isNumber = false := by
  obtain ⟨kind, line⟩ := token
  obtain rfl : kind = .word text := h
  rfl

theorem IsWord.isString_eq (h : IsWord text token) : token.isString = false := by
  obtain ⟨kind, line⟩ := token
  obtain rfl : kind = .word text := h
  rfl

/-- A word is a name if it begins like one and is not reserved. -/
theorem IsWord.accepts_name_eq (h : IsWord text token) : full.grammar.accepts .name token =
    (text.toList.head?.any Token.isNameStart && !full.grammar.isReserved text) := by
  obtain ⟨kind, line⟩ := token
  obtain rfl : kind = .word text := h
  rfl

theorem IsWord.ofToken?_eq (h : IsWord text token) (operators : Operators) :
    operators.ofToken? token = operators.get? text := by
  obtain ⟨kind, line⟩ := token
  obtain rfl : kind = .word text := h
  rfl

/-- A text that does not name the end of a line asks for a word. -/
theorem isWord_of_isLiteral (h : isLiteral [text] token = true)
    (htext : text ≠ Token.endOfLineText) : IsWord text token := by
  obtain ⟨kind, line⟩ := token
  cases kind with
  | word text' =>
      simp only [isLiteral, Bool.and_eq_true, List.contains_eq_mem, List.mem_singleton,
        decide_eq_true_eq] at h
      exact congrArg _ h.2
  | endOfLine =>
      simp only [isLiteral, Bool.and_eq_true, List.contains_eq_mem, List.mem_singleton,
        decide_eq_true_eq] at h
      exact absurd h.2.symm htext
  | number value => cases h
  | string value => cases h
  | endOfFile => cases h

/-- An operator is a word of the table. -/
theorem isWord_of_ofToken? {precedence : Precedence}
    (h : Language.operators.ofToken? token = some precedence) :
    ∃ text, IsWord text token ∧ Language.operators.get? text = some precedence := by
  obtain ⟨kind, line⟩ := token
  cases kind with
  | word text => exact ⟨text, rfl, h⟩
  | endOfLine => cases h
  | number value => cases h
  | string value => cases h
  | endOfFile => cases h

/-- No operator is an opening parenthesis. -/
theorem isLiteral_paren_of_ofToken? {precedence : Precedence}
    (h : Language.operators.ofToken? token = some precedence) : isLiteral ["("] token = false := by
  cases hp : isLiteral ["("] token with
  | false => rfl
  | true =>
      rw [(isWord_of_isLiteral hp (by decide)).ofToken?_eq] at h
      cases h

/-! ## Separators -/

/-- What holds of a semicolon and of the end of a line holds of every separator. -/
@[elab_as_elim]
theorem Separator.elim {P : Token → Prop} {token : Token} (h : Separator token)
    (hword : ∀ line, P ⟨.word ";", line⟩) (hline : ∀ line, P ⟨.endOfLine, line⟩) : P token := by
  obtain ⟨kind, line⟩ := token
  rcases h with h | h
  · obtain rfl : kind = .word ";" := h
    exact hword line
  · obtain rfl : kind = .endOfLine := h
    exact hline line

theorem Separator.isLiteral_separators (h : Separator token) :
    isLiteral separators token = true := h.elim (fun _ => rfl) (fun _ => rfl)

theorem Separator.isLiteral_paren (h : Separator token) : isLiteral ["("] token = false :=
  h.elim (fun _ => rfl) (fun _ => rfl)

theorem Separator.isLiteral_else (h : Separator token) : isLiteral ["else"] token = false :=
  h.elim (fun _ => rfl) (fun _ => rfl)

theorem Separator.ofToken?_eq (h : Separator token) : Language.operators.ofToken? token = none :=
  h.elim (fun _ => rfl) (fun _ => rfl)

theorem Separator.opensFactor_eq (h : Separator token) : opensFactor token = false :=
  h.elim (fun _ => rfl) (fun _ => rfl)

theorem Separator.opensCompound_eq (h : Separator token) : opensCompound token = false :=
  h.elim (fun _ => rfl) (fun _ => rfl)

/-- A token of a stream that is taken for a separator is one. -/
theorem separator_of_isLiteral (hp : token.Plain) (h : isLiteral separators token = true) :
    Separator token := by
  obtain ⟨kind, line⟩ := token
  cases kind with
  | word text =>
      simp only [isLiteral, separators, Bool.and_eq_true, List.contains_eq_mem, List.mem_cons,
        List.not_mem_nil, or_false, decide_eq_true_eq] at h
      rcases h.2 with h | h
      · exact .inl (congrArg _ h)
      · exact absurd (congrArg Token.Kind.word h) hp.ne_endOfLineText
  | endOfLine => exact .inr rfl
  | number value => cases h
  | string value => cases h
  | endOfFile => cases h

/-! ## Identifiers -/

/-- What the grammar accepts as a name is an identifier. -/
theorem accepts_name_iff : full.grammar.accepts .name token = true ↔ Identifier token := by
  obtain ⟨kind, line⟩ := token
  cases kind with
  | word text =>
      have hreserved : ∀ word ∈ full.grammar.reserved,
          word.toList.head?.any Token.isNameStart = false ∨
            word ∈ ["if", "else", "while", "def"] := by
        decide
      have hkeyword : ∀ word ∈ ["if", "else", "while", "def"], word ∈ full.grammar.reserved := by
        decide
      simp only [accepts, Identifier, Token.isName, Token.toText, Token.Kind.toText, isReserved,
        Bool.and_eq_true, Bool.not_eq_true', List.contains_eq_mem, decide_eq_false_iff_not]
      refine and_congr_right fun hname => not_congr ⟨fun h => ?_, hkeyword text⟩
      rcases hreserved text h with hm | hm
      · rw [hname] at hm
        cases hm
      · exact hm
  | endOfLine => simp [accepts, Identifier, Token.isName]
  | number value => simp [accepts, Identifier, Token.isName]
  | string value => simp [accepts, Identifier, Token.isName]
  | endOfFile => simp [accepts, Identifier, Token.isName]

/-- An identifier is none of the texts that are marks or keywords. -/
theorem Identifier.isLiteral_eq (h : Identifier token) {texts : List String}
    (ht : ∀ text ∈ texts, text.toList.head?.any Token.isNameStart = false ∨
      text ∈ ["if", "else", "while", "def"]) : isLiteral texts token = false := by
  obtain ⟨kind, line⟩ := token
  obtain ⟨hname, hkeyword⟩ := h
  cases kind with
  | word text =>
      simp only [isLiteral, Bool.and_eq_false_iff, List.contains_eq_mem, decide_eq_false_iff_not]
      refine .inr fun hmem => ?_
      rcases ht text hmem with hm | hm
      · exact absurd (hm.symm.trans hname) (by simp)
      · exact hkeyword hm
  | endOfLine => cases hname
  | number value => cases hname
  | string value => cases hname
  | endOfFile => cases hname

theorem Identifier.isNumber_eq (h : Identifier token) : token.isNumber = false := by
  obtain ⟨kind, line⟩ := token
  cases kind with
  | word text => rfl
  | string value => rfl
  | number value => cases h.1
  | endOfLine => rfl
  | endOfFile => rfl

/-! ## Sorts of first tokens -/

theorem isLiteral_of_isNumber (h : token.isNumber = true) (texts : List String) :
    isLiteral texts token = false := by
  obtain ⟨kind, line⟩ := token
  cases kind with
  | number value => rfl
  | word text => cases h
  | string value => cases h
  | endOfLine => cases h
  | endOfFile => cases h

theorem accepts_name_of_isString (h : token.isString = true) :
    token.isNumber = false ∧ full.grammar.accepts .name token = false := by
  obtain ⟨kind, line⟩ := token
  cases kind with
  | string value => exact ⟨rfl, rfl⟩
  | word text => cases h
  | number value => cases h
  | endOfLine => cases h
  | endOfFile => cases h

theorem isLiteral_of_isString (h : token.isString = true) (texts : List String) :
    isLiteral texts token = false := by
  obtain ⟨kind, line⟩ := token
  cases kind with
  | string value => rfl
  | word text => cases h
  | number value => cases h
  | endOfLine => cases h
  | endOfFile => cases h

/-- An operand begins with a parenthesis, a number, a name or a string. -/
theorem opensOperand_cases (h : opensOperand token = true) :
    IsWord "(" token ∨ token.isNumber = true ∨ Identifier token ∨ token.isString = true := by
  simp only [opensOperand, Bool.or_eq_true, accepts_name_iff] at h
  rcases h with ((h | h) | h) | h
  · exact .inl (isWord_of_isLiteral h (by decide))
  · exact .inr (.inl h)
  · exact .inr (.inr (.inl h))
  · exact .inr (.inr (.inr h))

theorem opensFactor_of_opensOperand (h : opensOperand token = true) : opensFactor token = true := by
  simp [opensFactor, h]

/-- A token that opens an operand is not one of the other marks or a keyword. -/
theorem isLiteral_of_opensOperand (h : opensOperand token = true) {texts : List String}
    (ht : ∀ text ∈ texts, text.toList.head?.any Token.isNameStart = false ∨
      text ∈ ["if", "else", "while", "def"]) (hparen : "(" ∉ texts) :
    isLiteral texts token = false := by
  rcases opensOperand_cases h with h | h | h | h
  · rw [h.isLiteral_eq]
    simpa using hparen
  · exact isLiteral_of_isNumber h texts
  · exact h.isLiteral_eq ht
  · exact isLiteral_of_isString h texts

/-- What opens a factor is no word that is reserved, and no mark but a parenthesis or a minus sign.
-/
theorem isLiteral_of_opensFactor (h : opensFactor token = true) {texts : List String}
    (ht : ∀ text ∈ texts, text.toList.head?.any Token.isNameStart = false ∨
      text ∈ ["if", "else", "while", "def"]) (hparen : "(" ∉ texts) (hminus : "-" ∉ texts) :
    isLiteral texts token = false := by
  simp only [opensFactor, Bool.or_eq_true] at h
  rcases h with h | h
  · rw [(isWord_of_isLiteral h (by decide)).isLiteral_eq]
    simpa using hminus
  · exact isLiteral_of_opensOperand h ht hparen

/-- What opens a factor opens no compound statement. -/
theorem opensCompound_of_opensFactor (h : opensFactor token = true) :
    opensCompound token = false := by
  simp only [opensCompound, Bool.or_eq_false_iff]
  exact ⟨⟨isLiteral_of_opensFactor h (by decide) (by decide) (by decide),
    isLiteral_of_opensFactor h (by decide) (by decide) (by decide)⟩,
    isLiteral_of_opensFactor h (by decide) (by decide) (by decide)⟩

/-- A compound statement begins with one of three words. -/
theorem opensCompound_cases (h : opensCompound token = true) :
    IsWord "def" token ∨ IsWord "if" token ∨ IsWord "while" token := by
  simp only [opensCompound, Bool.or_eq_true] at h
  rcases h with (h | h) | h
  · exact .inl (isWord_of_isLiteral h (by decide))
  · exact .inr (.inl (isWord_of_isLiteral h (by decide)))
  · exact .inr (.inr (isWord_of_isLiteral h (by decide)))

/-- What opens no factor and no compound statement: every other mark. -/
theorem IsWord.opensFactor_eq (h : IsWord text token)
    (ht : text.toList.head?.any Token.isNameStart = false) (hparen : text ≠ "(")
    (hminus : text ≠ "-") : opensFactor token = false := by
  simp [opensFactor, opensOperand, h.isLiteral_eq, h.isNumber_eq, h.isString_eq, h.accepts_name_eq,
    ht, hparen, hminus]

/-- A closing brace starts no statement. -/
theorem startsAt_blockStatement_brace (h : IsWord "\x7d" token) :
    full.grammar.startsAt blockStatementId token = some false := by
  rw [startsAt_blockStatement, h.opensFactor_eq (by decide) (by decide) (by decide)]
  simp [opensCompound, separators, h.isLiteral_eq, Token.endOfLineText]

/-! ## First tokens of derivations -/

variable {t : List Token} {tree : Tree}

theorem Atom.opens (h : Atom t tree) : ∃ token t', t = token :: t' ∧ opensOperand token = true := by
  cases h with
  | paren hfirst _ _ => exact ⟨_, _, rfl, by simp [opensOperand, hfirst.isLiteral_eq]⟩
  | number h => exact ⟨_, _, rfl, by simp [opensOperand, h]⟩
  | name h => exact ⟨_, _, rfl, by simp [opensOperand, accepts_name_iff.2 h]⟩
  | string h => exact ⟨_, _, rfl, by simp [opensOperand, h]⟩

theorem Primary.opens (h : Primary t tree) :
    ∃ token t', t = token :: t' ∧ opensOperand token = true := by
  cases h with
  | plain h => exact h.opens
  | called h _ _ =>
      obtain ⟨token, t', rfl, ho⟩ := h.opens
      exact ⟨token, _, rfl, ho⟩

/-- A factor begins with a token that opens one. -/
theorem Factor.opens (h : Factor t tree) :
    ∃ token t', t = token :: t' ∧ opensFactor token = true := by
  cases h with
  | negative hminus _ => exact ⟨_, _, rfl, by simp [opensFactor, hminus.isLiteral_eq]⟩
  | primary h =>
      obtain ⟨token, t', rfl, ho⟩ := h.opens
      exact ⟨token, t', rfl, opensFactor_of_opensOperand ho⟩

/-- An expression begins with a token that opens a factor. -/
theorem Expr.opens (h : Expr t tree) : ∃ token t', t = token :: t' ∧ opensFactor token = true := by
  cases h with
  | chain h _ _ =>
      obtain ⟨token, t', rfl, ho⟩ := h.opens
      exact ⟨token, _, rfl, ho⟩

/-- A compound statement begins with a token that opens one. -/
theorem Compound.opens (h : Compound t tree) :
    ∃ token t', t = token :: t' ∧ opensCompound token = true := by
  cases h with
  | conditional hword _ _ => exact ⟨_, _, rfl, by simp [opensCompound, hword.isLiteral_eq]⟩
  | alternative hword _ _ _ _ => exact ⟨_, _, rfl, by simp [opensCompound, hword.isLiteral_eq]⟩
  | loop hword _ _ => exact ⟨_, _, rfl, by simp [opensCompound, hword.isLiteral_eq]⟩
  | definition hword _ _ _ _ _ => exact ⟨_, _, rfl, by simp [opensCompound, hword.isLiteral_eq]⟩

theorem Block.opens {compound : List Token → Tree → Prop} (h : Block compound t tree) :
    ∃ token t', t = token :: t' ∧ IsWord "\x7b" token := by
  cases h with
  | items hfirst _ _ => exact ⟨_, _, rfl, hfirst⟩

/-- The operators of an expression are those of the language. -/
theorem Operations.ofToken?_eq {factor : List Token → Tree → Prop} {t : List Token}
    {links : List Link} (h : Operations factor t links) :
    ∀ link ∈ links, Language.operators.ofToken? link.operator = some link.precedence := by
  induction h with
  | nil => simp
  | cons hword hget _ _ ih =>
      intro link hl
      rcases List.mem_cons.1 hl with rfl | hl
      · rw [hword.ofToken?_eq, hget]
      · exact ih link hl

/-! ## Trees of derivations -/

/-- What derives from a line is never dropped as an empty list. -/
def Solid (line : List Token → Tree → Prop) : Prop :=
  ∀ t tree, line t tree → tree.isEmptyList = false

/-- A tree with an operator is a branch, and without one it is the operand. -/
theorem isEmptyList_of_splits {operand : Tree} {links : List Link}
    (h : Splits .binary operand links tree) (ho : operand.isEmptyList = false) :
    tree.isEmptyList = false := by
  cases h with
  | single => exact ho
  | split _ _ _ _ _ => rfl

/-- An expression in parentheses is shorter than the operand it makes, so the length of the
tokens goes down. -/
theorem isEmptyList_of_expr : ∀ (n : Nat) (t : List Token) (tree : Tree), t.length ≤ n →
    Expr t tree → tree.isEmptyList = false
  | 0, t, tree, hn, h => by
      obtain ⟨token, t', rfl, -⟩ := h.opens
      simp at hn
  | n + 1, t, tree, hn, h => by
      cases h with
      | @chain t t' operand _ links hf _ hs =>
          refine isEmptyList_of_splits hs ?_
          simp only [List.length_append] at hn
          have hatom : ∀ t₀ tree, t₀.length ≤ t.length → Atom t₀ tree →
              tree.isEmptyList = false := by
            intro t₀ tree hl ha
            cases ha with
            | @paren _ _ t₁ _ _ he _ =>
                simp only [List.length_cons, List.length_append] at hl
                exact isEmptyList_of_expr n t₁ tree (by omega) he
            | number => rfl
            | name => rfl
            | string => rfl
          cases hf with
          | negative => rfl
          | primary hp =>
              cases hp with
              | plain ha => exact hatom _ _ (Nat.le_refl _) ha
              | called => rfl

/-- The tree of an expression is never dropped. -/
theorem solid_expr : Solid Expr :=
  fun t tree h => isEmptyList_of_expr t.length t tree (Nat.le_refl _) h

theorem solid_atom : Solid Atom := by
  intro t tree h
  cases h with
  | paren _ he _ => exact solid_expr _ _ he
  | number => rfl
  | name => rfl
  | string => rfl

theorem solid_call {expr : List Token → Tree → Prop} : Solid (Call expr) := by
  intro t tree h
  cases h with
  | empty => rfl
  | args => rfl

/-- The tree of a compound statement is never dropped. -/
theorem solid_compound : Solid Compound := by
  intro t tree h
  cases h with
  | conditional => rfl
  | alternative => rfl
  | loop => rfl
  | definition => rfl

theorem solid_parameter : Solid Parameter := by
  intro t tree h
  cases h with
  | name => rfl

end Derivation

end TreeScript
