import TreeScript.Proofs.Language.Retained
import TreeScript.Proofs.Language.Shape
import TreeScript.Proofs.Language.Statement
import TreeScript.Proofs.Lines
import TreeScript.Proofs.Text
import TreeScript.Proofs.TokenStream.Requests
import TreeScript.Tree.Printed

/-!
# Printed statements

The printed form of a statement tells its tree, up to lines (`unlined_eq_of_printed_eq`). Blocks,
arguments, parameters, calls and operations are all printed in parentheses, so this is not true of
all trees. It is true of those that the full language gives, as each of them shows which one it is:
a keyword comes first, or an operator second, or a parenthesis second.

The proof reads a printed form from the left. A tree *decodes* if its printed form, with anything
after it that does not go on with a word, tells the tree and what comes after it (`Decodes`). This
is shown of expressions, arguments, parameters, blocks and statements by induction on their shape.
-/

namespace TreeScript

open Grammar TreeScript.Language TreeScript.Derivation

/-! ## Printed forms as characters -/

namespace Tree

/-- The characters of the printed form. -/
def chars (tree : Tree) : List Char := tree.printed.toList

/-- Parts with a space before each of them, and a closing parenthesis. -/
def closeChars : List (List Char) → List Char
  | [] => [')']
  | part :: parts => ' ' :: (part ++ closeChars parts)
termination_by structural parts => parts

/-- Parts with spaces between them, and a closing parenthesis. -/
def openChars : List (List Char) → List Char
  | [] => [')']
  | part :: parts => part ++ closeChars parts

theorem toList_spaced : ∀ parts : List String,
    (spaced parts).toList ++ [')'] = openChars (parts.map String.toList)
  | [] => rfl
  | [part] => rfl
  | part :: part' :: parts => by
      have ih := toList_spaced (part' :: parts)
      simp only [spaced, String.toList_append, List.append_assoc, ih]
      rfl

/-- The parts in parentheses, with blanks between them. -/
theorem toList_parens (parts : List String) :
    ("(" ++ spaced parts ++ ")").toList = '(' :: openChars (parts.map String.toList) := by
  rw [← toList_spaced, String.toList_append, String.toList_append]
  rfl

theorem map_printedAll (trees : List Tree) :
    (printedAll trees).map String.toList = trees.map chars := by
  rw [printedAll_eq_map, List.map_map]
  rfl

/-- The kinds of branches that are printed by their children alone. -/
theorem chars_branch {kind : BranchKind}
    (h : kind ∈ [.binary, .primary, .arguments, .parameters, .block, .null])
    (children : List Tree) :
    (branch kind children).chars = '(' :: openChars (children.map chars) := by
  have hlayout : ∀ parts, kind.layout parts = "(" ++ spaced parts ++ ")" := by
    intro parts
    cases kind <;> first | rfl | simp at h
  rw [chars, printed, hlayout, toList_parens, map_printedAll]

theorem chars_negative (operand : Tree) :
    (branch .negative [operand]).chars = '-' :: operand.chars := String.toList_append

/-- An `if` without `else` is printed with two parts. -/
theorem chars_conditional (condition body : Tree) :
    (branch .conditional [condition, body]).chars =
      '(' :: ("if".toList ++ closeChars [condition.chars, body.chars]) := toList_parens _

/-- An `if` with `else` is printed with two more parts. -/
theorem chars_alternative (condition body body' : Tree) :
    (branch .conditional [condition, body, body']).chars =
      '(' :: ("if".toList ++
        closeChars [condition.chars, body.chars, "else".toList, body'.chars]) := toList_parens _

theorem chars_loop (condition body : Tree) :
    (branch .loop [condition, body]).chars =
      '(' :: ("while".toList ++ closeChars [condition.chars, body.chars]) := toList_parens _

theorem chars_definition (name parameters body : Tree) :
    (branch .definition [name, parameters, body]).chars =
      '(' :: ("def".toList ++ closeChars [name.chars, parameters.chars, body.chars]) :=
  toList_parens _

/-! ## Words -/

/-- No space and no closing parenthesis. -/
def Compact (cs : List Char) : Prop := ∀ c ∈ cs, c ≠ ' ' ∧ c ≠ ')'

instance (cs : List Char) : Decidable (Compact cs) :=
  decidable_of_iff (cs.all (fun c => c != ' ' && c != ')') = true) (by simp [Compact])

/-- A space or a closing parenthesis comes next, or nothing. -/
def Delimited (cs : List Char) : Prop := ∀ c ∈ cs.head?, c = ' ' ∨ c = ')'

variable {xs ys rest rest' : List Char}

/-- Of two compact texts before delimiters neither can be the longer one. -/
theorem Compact.append_inj (hx : Compact xs) (hy : Compact ys) (hr : Delimited rest)
    (hr' : Delimited rest') (h : xs ++ rest = ys ++ rest') : xs = ys ∧ rest = rest' := by
  have hstop : ∀ {cs : List Char}, Delimited cs → ∀ c ∈ cs.head?, ¬ (c ≠ ' ' ∧ c ≠ ')') := by
    intro cs hd c hc hn
    exact (hd c hc).elim hn.1 hn.2
  exact Text.append_inj_of_head hx hy (hstop hr) (hstop hr') h

theorem closeChars_cons_append (part : List Char) (parts : List (List Char)) (rest : List Char) :
    closeChars (part :: parts) ++ rest = ' ' :: (part ++ (closeChars parts ++ rest)) := by
  rw [closeChars, List.cons_append, List.append_assoc]

theorem delimited_closeChars (parts : List (List Char)) (rest : List Char) :
    Delimited (closeChars parts ++ rest) := by
  intro c hc
  cases parts with
  | nil => exact .inr (Option.some.inj hc).symm
  | cons part parts => exact .inl (Option.some.inj hc).symm

/-! ## Tokens -/

/-- The tokens of the tree show what they are, and none of them is a keyword. -/
def Readable (tree : Tree) : Prop := ∀ token ∈ tree.tokens, token.Legible ∧ NoKeyword token

theorem mem_tokensOf_iff {trees : List Tree} {token : Token} :
    token ∈ tokensOf trees ↔ ∃ tree ∈ trees, token ∈ tree.tokens := by
  induction trees with
  | nil => simp [tokensOf]
  | cons tree trees ih => simp [tokensOf, ih]

theorem readable_branch {kind : BranchKind} {children : List Tree} :
    Readable (branch kind children) ↔ ∀ child ∈ children, Readable child := by
  simp only [Readable, tokens, mem_tokensOf_iff]
  constructor
  · exact fun h child hc token ht => h token ⟨child, hc, ht⟩
  · rintro h token ⟨child, hc, ht⟩
    exact h child hc token ht

theorem Readable.token {kind : LeafKind} {token : Token} (h : Readable (leaf kind token)) :
    token.Legible ∧ NoKeyword token := h token (List.mem_singleton_self token)

theorem ne_of_isNamePart {c : Char} (h : Token.isNamePart c = true) : c ≠ ' ' ∧ c ≠ ')' := by
  constructor
  · rintro rfl
    exact absurd h (by decide)
  · rintro rfl
    exact absurd h (by decide)

/-- The text of a number is its digits. -/
theorem toList_number {value : Int64} {line : Nat} (h : Token.Legible ⟨.number value, line⟩) :
    (Token.mk (.number value) line).toText.toList = Nat.toDigits 10 value.toInt.toNat := by
  rw [Token.toText, Token.Kind.toText, Int.toString_eq_repr, Int.repr_eq_if,
    if_pos (h.number value rfl), Nat.repr_eq_ofList_toDigits, String.toList_ofList]

theorem exists_number {token : Token} (h : token.isNumber = true) :
    ∃ value line, token = ⟨.number value, line⟩ := by
  obtain ⟨kind, line⟩ := token
  cases kind with
  | number value => exact ⟨value, line, rfl⟩
  | _ => cases h

/-- The text of a number is a word that begins with a digit. -/
theorem number_cases {token : Token} (hn : token.isNumber = true) (h : token.Legible) :
    Compact token.toText.toList ∧ ∃ c cs, token.toText.toList = c :: cs ∧ c.isDigit = true := by
  obtain ⟨value, line, rfl⟩ := exists_number hn
  have hdigits : ∀ c ∈ Nat.toDigits 10 value.toInt.toNat, c.isDigit = true :=
    fun c => Nat.isDigit_of_mem_toDigits (by decide) (by decide)
  rw [toList_number h]
  refine ⟨fun c hc => ne_of_isNamePart (Bool.or_eq_true_iff.2 (.inr (hdigits c hc))), ?_⟩
  obtain ⟨c, cs, hcs⟩ := List.exists_cons_of_ne_nil
    (Nat.toDigits_ne_nil (n := value.toInt.toNat) (b := 10))
  exact ⟨c, cs, hcs, hdigits c (hcs ▸ List.mem_cons_self)⟩

/-- The first character of a text that has a property. -/
theorem exists_cons_of_any_head {P : Char → Bool} {text : String}
    (h : text.toList.head?.any P = true) : ∃ c cs, text.toList = c :: cs ∧ P c = true := by
  cases hcs : text.toList with
  | nil => simp [hcs] at h
  | cons c cs => exact ⟨c, cs, rfl, by simpa [hcs] using h⟩

/-- The text of a name is a word that begins like a name. -/
theorem name_cases {token : Token} (hn : token.isName = true) (h : token.Legible) :
    Compact token.toText.toList ∧
      ∃ c cs, token.toText.toList = c :: cs ∧ Token.isNameStart c = true := by
  refine ⟨fun c hc => ne_of_isNamePart (h.name hn c hc), ?_⟩
  obtain ⟨kind, line⟩ := token
  cases kind with
  | word text => exact exists_cons_of_any_head hn
  | number value => cases hn
  | string value => cases hn
  | endOfLine => cases hn
  | endOfFile => cases hn

/-- The text of an operator is a word that does not begin with a parenthesis. -/
theorem operator_cases {token : Token} {precedence : Precedence}
    (h : operators.ofToken? token = some precedence) :
    Compact token.toText.toList ∧ ∃ c cs, token.toText.toList = c :: cs ∧ c ≠ '(' := by
  have hrows : ∀ row ∈ operators.rows, Compact row.1.toList ∧
      row.1.toList.head?.any (· != '(') = true := by decide
  have hget := Operators.get?_of_ofToken? h
  obtain ⟨before, after, hmem, -⟩ := List.lookup_eq_some_iff.1 hget
  obtain ⟨hcompact, hhead⟩ := hrows (token.toText, precedence) (by rw [hmem]; simp)
  obtain ⟨c, cs, hcs, hc⟩ := exists_cons_of_any_head hhead
  exact ⟨hcompact, c, cs, hcs, bne_iff_ne.1 hc⟩

/-! ## First characters -/

/-- The sorts of expressions that the first character tells apart. -/
inductive Lead where
  /-- An integer literal. -/
  | digit
  /-- A string literal. -/
  | quote
  /-- A variable. -/
  | letter
  /-- A minus sign before an operand. -/
  | minus
  /-- An operation or a call. -/
  | paren
deriving DecidableEq

/-- The sort of the expressions that begin with a character. -/
def Lead.ofChar? (c : Char) : Option Lead :=
  if Token.isNameStart c then some .letter
  else if c.isDigit then some .digit
  else [('"', .quote), ('-', .minus), ('(', .paren)].lookup c

/-- The sort of a tree. -/
def lead : Tree → Lead
  | .leaf .number _ => .digit
  | .leaf .string _ => .quote
  | .leaf _ _ => .letter
  | .branch .negative _ => .minus
  | .branch _ _ => .paren

/-- The first character of a printed expression tells its form. -/
theorem IsExpression.exists_lead {tree : Tree} (h : IsExpression tree) (hr : tree.Readable) :
    ∃ c cs, tree.chars = c :: cs ∧ Lead.ofChar? c = some tree.lead := by
  cases h with
  | number hn =>
      obtain ⟨-, c, cs, hcs, hc⟩ := number_cases hn hr.token.1
      exact ⟨c, cs, hcs, by simp [Lead.ofChar?, hc, Token.isNameStart_of_isDigit hc, lead]⟩
  | string hs => exact ⟨'"', _, String.toList_ofList, rfl⟩
  | name hn =>
      obtain ⟨-, c, cs, hcs, hc⟩ := name_cases hn hr.token.1
      exact ⟨c, cs, hcs, by simp [Lead.ofChar?, hc, lead]⟩
  | negative => exact ⟨'-', _, chars_negative _, rfl⟩
  | binary => exact ⟨'(', _, chars_branch (by simp) _, rfl⟩
  | primary => exact ⟨'(', _, chars_branch (by simp) _, rfl⟩

/-- The shape holds and the tokens can be read. -/
def Told (Shape : Tree → Prop) (tree : Tree) : Prop := Shape tree ∧ tree.Readable

/-- Expressions that are printed alike have the same form. -/
theorem lead_eq {tree other : Tree} (h : Told IsExpression tree) (ho : Told IsExpression other)
    (heq : tree.chars ++ rest = other.chars ++ rest') : tree.lead = other.lead := by
  obtain ⟨c, cs, hc, hlead⟩ := h.1.exists_lead h.2
  obtain ⟨d, ds, hd, hlead'⟩ := ho.1.exists_lead ho.2
  rw [hc, hd, List.cons_append, List.cons_append] at heq
  rw [(List.cons.inj heq).1, hlead'] at hlead
  exact (Option.some.inj hlead).symm

/-! ## Decoding -/

/-- What the printed form of the tree begins with is the printed form of no other tree, up to lines,
with the property. -/
def Decodes (P : Tree → Prop) (tree : Tree) : Prop :=
  ∀ other rest rest', P other → Delimited rest → Delimited rest' →
    tree.chars ++ rest = other.chars ++ rest' → tree.unlined = other.unlined ∧ rest = rest'

theorem unlined_leaf (kind : LeafKind) {token token' : Token} (h : token.kind = token'.kind) :
    (leaf kind token).unlined = (leaf kind token').unlined := by
  simp [unlined, Token.relined, h]

theorem unlined_branch {kind : BranchKind} {children children' : List Tree}
    (h : children.map unlined = children'.map unlined) :
    (branch kind children).unlined = (branch kind children').unlined := by
  have heq : children.map (relined fun _ => 0) = children'.map (relined fun _ => 0) := h
  simp [unlined, heq]

/-- A name is the word that it is printed as. -/
theorem kind_of_isName {token : Token} (h : token.isName = true) :
    token.kind = .word token.toText := by
  obtain ⟨kind, line⟩ := token
  cases kind with
  | word text => rfl
  | _ => cases h

theorem kind_eq_of_isName {token token' : Token} (h : token.isName = true)
    (h' : token'.isName = true) (htext : token.toText.toList = token'.toText.toList) :
    token.kind = token'.kind := by
  rw [kind_of_isName h, kind_of_isName h', String.toList_inj.1 htext]

/-- Operators with the same text are the same. -/
theorem kind_eq_of_ofToken? {token token' : Token} {precedence precedence' : Precedence}
    (h : operators.ofToken? token = some precedence)
    (h' : operators.ofToken? token' = some precedence')
    (htext : token.toText.toList = token'.toText.toList) : token.kind = token'.kind := by
  obtain ⟨text, hword, -⟩ := isWord_of_ofToken? h
  obtain ⟨text', hword', -⟩ := isWord_of_ofToken? h'
  rw [Token.toText, Token.toText, hword, hword', String.toList_inj] at htext
  exact hword.trans ((congrArg _ htext).trans hword'.symm)

/-- Numbers with the same digits are equal. -/
theorem kind_eq_of_isNumber {token token' : Token} (h : token.isNumber = true)
    (h' : token'.isNumber = true) (hl : token.Legible) (hl' : token'.Legible)
    (htext : token.toText.toList = token'.toText.toList) : token.kind = token'.kind := by
  obtain ⟨value, line, rfl⟩ := exists_number h
  obtain ⟨value', line', rfl⟩ := exists_number h'
  rw [toList_number hl, toList_number hl'] at htext
  have hnat := congrArg (fun digits => Nat.ofDigitChars 10 digits 0) htext
  simp only [Nat.ofDigitChars_ten_toDigits] at hnat
  have hpos := hl.number value rfl
  have hpos' := hl'.number value' rfl
  have hint : value.toInt = value'.toInt := by omega
  rw [Int64.toInt_inj.1 hint]

theorem kind_eq_of_isString {token token' : Token} (h : token.isString = true)
    (h' : token'.isString = true) (htext : token.toText = token'.toText) :
    token.kind = token'.kind := by
  have hstring : ∀ {token : Token}, token.isString = true → token.kind = .string token.toText := by
    intro token h
    obtain ⟨kind, line⟩ := token
    cases kind with
    | string value => rfl
    | _ => cases h
  rw [hstring h, hstring h', htext]

section Parts

variable {P : Tree → Prop} {tree other : Tree} {trees trees' : List Tree}
variable {parts parts' : List (List Char)}

/-- After two compact parts that are equal, the others are equal as well. -/
theorem Compact.close (hx : Compact xs) (hy : Compact ys)
    (heq : closeChars (xs :: parts) ++ rest = closeChars (ys :: parts') ++ rest') :
    xs = ys ∧ closeChars parts ++ rest = closeChars parts' ++ rest' := by
  rw [closeChars_cons_append, closeChars_cons_append] at heq
  exact hx.append_inj hy (delimited_closeChars _ _) (delimited_closeChars _ _) (List.cons.inj heq).2

/-- A tree that decodes is told, and what is printed after it. -/
theorem Decodes.close (h : Decodes P tree) (ho : P other)
    (heq : closeChars (tree.chars :: parts) ++ rest = closeChars (other.chars :: parts') ++ rest') :
    tree.unlined = other.unlined ∧ closeChars parts ++ rest = closeChars parts' ++ rest' := by
  rw [closeChars_cons_append, closeChars_cons_append] at heq
  exact h _ _ _ ho (delimited_closeChars _ _) (delimited_closeChars _ _) (List.cons.inj heq).2

theorem Decodes.open (h : Decodes P tree) (ho : P other)
    (heq : openChars (tree.chars :: parts) ++ rest = openChars (other.chars :: parts') ++ rest') :
    tree.unlined = other.unlined ∧ closeChars parts ++ rest = closeChars parts' ++ rest' :=
  h.close ho (congrArg (' ' :: ·) heq)

/-- Parts after the first one decode if each of them does. -/
theorem closeChars_inj (h : ∀ tree ∈ trees, Decodes P tree) (h' : ∀ tree ∈ trees', P tree)
    (heq : closeChars (trees.map chars) ++ rest = closeChars (trees'.map chars) ++ rest') :
    trees.map unlined = trees'.map unlined ∧ rest = rest' := by
  induction trees generalizing trees' with
  | nil =>
      cases trees' with
      | nil => exact ⟨rfl, (List.cons.inj heq).2⟩
      | cons tree' trees' => exact absurd (List.cons.inj heq).1 (by decide)
  | cons tree trees ih =>
      cases trees' with
      | nil => exact absurd (List.cons.inj heq).1 (by decide)
      | cons tree' trees' =>
          obtain ⟨hfirst, heq⟩ :=
            (h tree List.mem_cons_self).close (h' tree' List.mem_cons_self) heq
          obtain ⟨htrees, rfl⟩ := ih (fun other hmem => h other (List.mem_cons_of_mem _ hmem))
            (fun other hmem => h' other (List.mem_cons_of_mem _ hmem)) heq
          exact ⟨by rw [List.map_cons, List.map_cons, hfirst, htrees], rfl⟩

/-- Parts decode if each of them does and does not begin with a closing parenthesis. -/
theorem openChars_inj (hP : ∀ tree, P tree → ∃ c cs, tree.chars = c :: cs ∧ c ≠ ')')
    (h : ∀ tree ∈ trees, P tree ∧ Decodes P tree) (h' : ∀ tree ∈ trees', P tree)
    (heq : openChars (trees.map chars) ++ rest = openChars (trees'.map chars) ++ rest') :
    trees.map unlined = trees'.map unlined ∧ rest = rest' := by
  cases trees with
  | nil =>
      cases trees' with
      | nil => exact ⟨rfl, (List.cons.inj heq).2⟩
      | cons tree' trees' =>
          obtain ⟨c, cs, hcs, hc⟩ := hP tree' (h' tree' List.mem_cons_self)
          simp only [List.map_cons, openChars, hcs, List.cons_append] at heq
          exact absurd (List.cons.inj heq).1.symm hc
  | cons tree trees =>
      cases trees' with
      | nil =>
          obtain ⟨c, cs, hcs, hc⟩ := hP tree (h tree List.mem_cons_self).1
          simp only [List.map_cons, openChars, hcs, List.cons_append] at heq
          exact absurd (List.cons.inj heq).1 hc
      | cons tree' trees' =>
          refine closeChars_inj (fun other hmem => (h other hmem).2) h' ?_
          exact congrArg (' ' :: ·) heq

end Parts

/-- A branch that is printed by its children alone decodes if each of them does. -/
theorem decodes_branch {kind : BranchKind}
    (hkind : kind ∈ [.binary, .primary, .arguments, .parameters, .block, .null])
    {Shape Whole : Tree → Prop}
    (hwhole : ∀ tree, Whole tree → ∃ children, tree = branch kind children ∧
      ∀ child ∈ children, Shape child)
    (hshape : ∀ tree, Told Shape tree → ∃ c cs, tree.chars = c :: cs ∧ c ≠ ')')
    {children : List Tree} (hr : Readable (branch kind children))
    (h : ∀ child ∈ children, Shape child)
    (hd : ∀ child ∈ children, Decodes (Told Shape) child) :
    Decodes (Told Whole) (branch kind children) := by
  rintro other rest rest' ⟨ho, hro⟩ _ _ heq
  obtain ⟨children', rfl, h'⟩ := hwhole other ho
  rw [readable_branch] at hr hro
  rw [chars_branch hkind, chars_branch hkind] at heq
  obtain ⟨hsame, rfl⟩ := openChars_inj hshape
    (fun child hmem => ⟨⟨h child hmem, hr child hmem⟩, hd child hmem⟩)
    (fun child hmem => ⟨h' child hmem, hro child hmem⟩) (List.cons.inj heq).2
  exact ⟨unlined_branch hsame, rfl⟩

/-! ## Expressions -/

theorem IsExpression.ne_close (tree : Tree) (h : Told IsExpression tree) :
    ∃ c cs, tree.chars = c :: cs ∧ c ≠ ')' := by
  obtain ⟨c, cs, hcs, hlead⟩ := h.1.exists_lead h.2
  refine ⟨c, cs, hcs, ?_⟩
  rintro rfl
  cases hlead

/-- Arguments decode if each one does. The induction is on the arguments. -/
theorem decodes_arguments {arguments : List Tree} (hr : Readable (branch .arguments arguments))
    (h : ∀ argument ∈ arguments, IsExpression argument)
    (hd : ∀ argument ∈ arguments, Decodes (Told IsExpression) argument) :
    Decodes (Told IsArguments) (branch .arguments arguments) := by
  refine decodes_branch (by simp) ?_ IsExpression.ne_close hr h hd
  rintro _ ⟨ha⟩
  exact ⟨_, rfl, ha⟩

/-- An operator is not taken for arguments. -/
theorem operator_ne_arguments {operator : Token} {precedence : Precedence}
    (h : operators.ofToken? operator = some precedence) {arguments : List Tree}
    {parts parts' : List (List Char)} :
    closeChars (operator.toText.toList :: parts) ++ rest ≠
      closeChars ((branch .arguments arguments).chars :: parts') ++ rest' := by
  obtain ⟨-, c, cs, hcs, hc⟩ := operator_cases h
  rw [hcs, chars_branch (by simp), closeChars_cons_append, closeChars_cons_append]
  exact fun heq => hc (List.cons.inj (List.cons.inj heq).2).1

section Expressions

variable {left right target operand : Tree} {token operator : Token} {precedence : Precedence}
variable {calls : List (List Tree)}

theorem decodes_number (hn : token.isNumber = true) (hr : Readable (leaf .number token)) :
    Decodes (Told IsExpression) (leaf .number token) := by
  intro other rest rest' ho hd hd' heq
  have hlead := lead_eq ⟨.number hn, hr⟩ ho heq
  obtain ⟨ho, hro⟩ := ho
  cases ho with
  | number hn' =>
      obtain ⟨htext, hrest⟩ := (number_cases hn hr.token.1).1.append_inj
        (number_cases hn' hro.token.1).1 hd hd' heq
      exact ⟨unlined_leaf _ (kind_eq_of_isNumber hn hn' hr.token.1 hro.token.1 htext), hrest⟩
  | _ => cases hlead

theorem decodes_string (hs : token.isString = true) (hr : Readable (leaf .string token)) :
    Decodes (Told IsExpression) (leaf .string token) := by
  intro other rest rest' ho _ _ heq
  have hlead := lead_eq ⟨.string hs, hr⟩ ho heq
  obtain ⟨ho, -⟩ := ho
  cases ho with
  | string hs' =>
      obtain ⟨htext, hrest⟩ := Text.quoted_append_inj heq
      exact ⟨unlined_leaf _ (kind_eq_of_isString hs hs' htext), hrest⟩
  | _ => cases hlead

theorem decodes_name (hn : token.isName = true) (hr : Readable (leaf .variable token)) :
    Decodes (Told IsExpression) (leaf .variable token) := by
  intro other rest rest' ho hd hd' heq
  have hlead := lead_eq ⟨.name hn, hr⟩ ho heq
  obtain ⟨ho, hro⟩ := ho
  cases ho with
  | name hn' =>
      obtain ⟨htext, hrest⟩ := (name_cases hn hr.token.1).1.append_inj
        (name_cases hn' hro.token.1).1 hd hd' heq
      exact ⟨unlined_leaf _ (kind_eq_of_isName hn hn' htext), hrest⟩
  | _ => cases hlead

/-- After the minus sign comes the operand. -/
theorem decodes_negative (h : IsExpression operand) (hr : Readable (branch .negative [operand]))
    (ho : Decodes (Told IsExpression) operand) :
    Decodes (Told IsExpression) (branch .negative [operand]) := by
  intro other rest rest' hother hd hd' heq
  have hlead := lead_eq ⟨.negative h, hr⟩ hother heq
  obtain ⟨hother, hro⟩ := hother
  cases hother with
  | negative h' =>
      rw [readable_branch] at hro
      rw [chars_negative, chars_negative] at heq
      obtain ⟨hsame, hrest⟩ := ho _ _ _ ⟨h', hro _ (List.mem_singleton_self _)⟩ hd hd'
        (List.cons.inj heq).2
      exact ⟨unlined_branch (congrArg (fun tree => [tree]) hsame), hrest⟩
  | _ => cases hlead

/-- Both operands decode, with the operator between them. -/
theorem decodes_binary (hleft : IsExpression left)
    (hoperator : operators.ofToken? operator = some precedence) (hright : IsExpression right)
    (hr : Readable (branch .binary [left, .leaf .plain operator, right]))
    (hl : Decodes (Told IsExpression) left) (hrt : Decodes (Told IsExpression) right) :
    Decodes (Told IsExpression) (branch .binary [left, .leaf .plain operator, right]) := by
  intro other rest rest' hother _ _ heq
  have hlead := lead_eq ⟨.binary hleft hoperator hright, hr⟩ hother heq
  obtain ⟨hother, hro⟩ := hother
  cases hother with
  | @binary left' right' operator' _ hleft' hoperator' hright' =>
      rw [readable_branch] at hro
      rw [chars_branch (by simp), chars_branch (by simp)] at heq
      obtain ⟨hsame, heq⟩ := hl.open ⟨hleft', hro left' (by simp)⟩ (List.cons.inj heq).2
      obtain ⟨htext, heq⟩ := (operator_cases hoperator).1.close (operator_cases hoperator').1 heq
      obtain ⟨hsame', heq⟩ := hrt.close ⟨hright', hro right' (by simp)⟩ heq
      have hleaf := unlined_leaf .plain (kind_eq_of_ofToken? hoperator hoperator' htext)
      exact ⟨unlined_branch (by simp only [List.map_cons, List.map_nil, hsame, hleaf, hsame']),
        (List.cons.inj heq).2⟩
  | @primary target' calls' htarget' hcalls' _ =>
      rw [readable_branch] at hro
      rw [chars_branch (by simp), chars_branch (by simp)] at heq
      obtain ⟨-, heq⟩ := hl.open ⟨htarget', hro target' (by simp)⟩ (List.cons.inj heq).2
      obtain ⟨arguments, calls', rfl⟩ := List.exists_cons_of_ne_nil hcalls'
      exact absurd heq (operator_ne_arguments hoperator)
  | _ => cases hlead

theorem told_arguments {arguments : List Tree}
    (hr : Readable (branch .primary (target :: calls.map (branch .arguments))))
    (h : ∀ arguments ∈ calls, ∀ argument ∈ arguments, IsExpression argument)
    (hmem : arguments ∈ calls) : Told IsArguments (branch .arguments arguments) := by
  refine ⟨.arguments (h arguments hmem), readable_branch.1 hr _ ?_⟩
  exact List.mem_cons_of_mem _ (List.mem_map_of_mem hmem)

/-- The target decodes, and then each list of arguments. -/
theorem decodes_primary (htarget : IsExpression target) (hcalls : calls ≠ [])
    (h : ∀ arguments ∈ calls, ∀ argument ∈ arguments, IsExpression argument)
    (hr : Readable (branch .primary (target :: calls.map (branch .arguments))))
    (ht : Decodes (Told IsExpression) target)
    (hc : ∀ arguments ∈ calls, Decodes (Told IsArguments) (branch .arguments arguments)) :
    Decodes (Told IsExpression) (branch .primary (target :: calls.map (branch .arguments))) := by
  intro other rest rest' hother _ _ heq
  have hlead := lead_eq ⟨.primary htarget hcalls h, hr⟩ hother heq
  obtain ⟨hother, hro⟩ := hother
  cases hother with
  | @binary left' _ operator' _ hleft' hoperator' _ =>
      rw [readable_branch] at hro
      rw [chars_branch (by simp), chars_branch (by simp)] at heq
      obtain ⟨-, heq⟩ := ht.open ⟨hleft', hro left' (by simp)⟩ (List.cons.inj heq).2
      obtain ⟨arguments, calls, rfl⟩ := List.exists_cons_of_ne_nil hcalls
      exact absurd heq.symm (operator_ne_arguments hoperator')
  | @primary target' calls' htarget' _ h' =>
      rw [chars_branch (by simp), chars_branch (by simp)] at heq
      obtain ⟨htargets, heq⟩ := ht.open
        ⟨htarget', readable_branch.1 hro target' List.mem_cons_self⟩ (List.cons.inj heq).2
      have hdecodes : ∀ call ∈ calls.map (branch .arguments), Decodes (Told IsArguments) call :=
        List.forall_mem_map.2 hc
      have htold : ∀ call ∈ calls'.map (branch .arguments), Told IsArguments call :=
        List.forall_mem_map.2 fun _ hmem => told_arguments hro h' hmem
      obtain ⟨hsame, hrest⟩ := closeChars_inj hdecodes htold heq
      exact ⟨unlined_branch (by rw [List.map_cons, List.map_cons, htargets, hsame]), hrest⟩
  | _ => cases hlead

/-- The induction is on the expression, with one case for each form. -/
theorem IsExpression.decodes {tree : Tree} (h : IsExpression tree) :
    tree.Readable → Decodes (Told IsExpression) tree := by
  induction h with
  | number hn => exact decodes_number hn
  | string hs => exact decodes_string hs
  | name hn => exact decodes_name hn
  | negative h ih =>
      intro hr
      exact decodes_negative h hr (ih (readable_branch.1 hr _ (by simp)))
  | binary hleft hoperator hright ihleft ihright =>
      intro hr
      have hparts := readable_branch.1 hr
      exact decodes_binary hleft hoperator hright hr (ihleft (hparts _ (by simp)))
        (ihright (hparts _ (by simp)))
  | primary htarget hcalls h ih ihs =>
      intro hr
      refine decodes_primary htarget hcalls h hr (ih (readable_branch.1 hr _ (by simp))) ?_
      intro arguments hmem
      have hra := (told_arguments hr h hmem).2
      exact decodes_arguments hra (h arguments hmem) fun argument ha =>
        ihs arguments hmem argument ha (readable_branch.1 hra argument ha)

end Expressions

/-! ## Parameters -/

theorem IsParameter.ne_close (tree : Tree) (h : Told IsParameter tree) :
    ∃ c cs, tree.chars = c :: cs ∧ c ≠ ')' := by
  obtain ⟨⟨hn⟩, hr⟩ := h
  obtain ⟨hcompact, c, cs, hcs, -⟩ := name_cases hn hr.token.1
  exact ⟨c, cs, hcs, (hcompact c (hcs ▸ List.mem_cons_self)).2⟩

theorem IsParameter.decodes {tree : Tree} (h : Told IsParameter tree) :
    Decodes (Told IsParameter) tree := by
  rintro other rest rest' ⟨⟨hn'⟩, hro⟩ hd hd' heq
  obtain ⟨⟨hn⟩, hr⟩ := h
  obtain ⟨htext, hrest⟩ := (name_cases hn hr.token.1).1.append_inj
    (name_cases hn' hro.token.1).1 hd hd' heq
  exact ⟨unlined_leaf _ (kind_eq_of_isName hn hn' htext), hrest⟩

theorem IsParameters.decodes {tree : Tree} (h : Told IsParameters tree) :
    Decodes (Told IsParameters) tree := by
  obtain ⟨⟨hp⟩, hr⟩ := h
  refine decodes_branch (by simp) ?_ IsParameter.ne_close hr hp fun parameter hmem =>
    IsParameter.decodes ⟨hp parameter hmem, readable_branch.1 hr parameter hmem⟩
  rintro _ ⟨hp⟩
  exact ⟨_, rfl, hp⟩

/-! ## Statements -/

/-- The word that a compound statement begins with. -/
def keyword? : Tree → Option String
  | .branch .conditional _ => some "if"
  | .branch .loop _ => some "while"
  | .branch .definition _ => some "def"
  | _ => none

/-- No expression is printed with a keyword in front. -/
theorem IsExpression.keyword?_eq {tree : Tree} (h : IsExpression tree) : tree.keyword? = none := by
  cases h <;> rfl

/-- A statement is an expression or begins with its keyword. -/
theorem IsStatement.keyword_cases {tree : Tree} (h : IsStatement tree) :
    IsExpression tree ∨ ∃ text ∈ keywords, ∃ parts, tree.keyword? = some text ∧
      tree.chars = '(' :: openChars (text.toList :: parts) := by
  cases h with
  | expression h => exact .inl h
  | conditional => exact .inr ⟨"if", by decide, _, rfl, chars_conditional _ _⟩
  | alternative => exact .inr ⟨"if", by decide, _, rfl, chars_alternative _ _ _⟩
  | loop => exact .inr ⟨"while", by decide, _, rfl, chars_loop _ _⟩
  | definition => exact .inr ⟨"def", by decide, _, rfl, chars_definition _ _ _⟩

theorem IsStatement.ne_close (tree : Tree) (h : Told IsStatement tree) :
    ∃ c cs, tree.chars = c :: cs ∧ c ≠ ')' := by
  rcases h.1.keyword_cases with he | ⟨text, -, parts, -, hchars⟩
  · exact IsExpression.ne_close tree ⟨he, h.2⟩
  · exact ⟨'(', _, hchars, by decide⟩

theorem compact_keyword : ∀ text ∈ keywords, Compact text.toList := by decide

/-- An expression is not taken for a keyword. -/
theorem openChars_ne_keyword {tree : Tree} (h : Told IsExpression tree) {text : String}
    (htext : text ∈ keywords) {parts parts' : List (List Char)} :
    openChars (tree.chars :: parts) ++ rest ≠ openChars (text.toList :: parts') ++ rest' := by
  intro heq
  have hstart : ∀ text ∈ keywords, text.toList.head?.any Token.isNameStart = true := by decide
  obtain ⟨d, ds, hds, hd⟩ := exists_cons_of_any_head (hstart text htext)
  obtain ⟨c, cs, hcs, hlead⟩ := h.1.exists_lead h.2
  have hletter : tree.lead = .letter := by
    rw [openChars, openChars, hcs, hds] at heq
    rw [(List.cons.inj heq).1, Lead.ofChar?, if_pos hd] at hlead
    exact (Option.some.inj hlead).symm
  obtain ⟨h, hr⟩ := h
  cases h with
  | name hn =>
      obtain ⟨htoken, hkeyword⟩ := hr.token
      have hclose := congrArg (' ' :: ·) heq
      obtain ⟨hsame, -⟩ := (name_cases hn htoken).1.close (compact_keyword text htext) hclose
      exact hkeyword text htext ((kind_of_isName hn).trans (congrArg _ (String.toList_inj.1 hsame)))
  | _ => cases hletter

/-- An expression is not taken for a compound statement. -/
theorem IsExpression.ne_compound {tree : Tree} (h : Told IsExpression tree) {text : String}
    (htext : text ∈ keywords) {parts : List (List Char)} :
    tree.chars ++ rest ≠ '(' :: openChars (text.toList :: parts) ++ rest' := by
  intro heq
  obtain ⟨c, cs, hcs, hlead⟩ := h.1.exists_lead h.2
  have hparen : tree.lead = .paren := by
    rw [hcs] at heq
    rw [(List.cons.inj heq).1] at hlead
    exact (Option.some.inj hlead).symm
  obtain ⟨h, hr⟩ := h
  cases h with
  | binary hleft =>
      rw [chars_branch (by simp)] at heq
      exact openChars_ne_keyword ⟨hleft, readable_branch.1 hr _ (by simp)⟩ htext
        (List.cons.inj heq).2
  | primary htarget =>
      rw [chars_branch (by simp)] at heq
      exact openChars_ne_keyword ⟨htarget, readable_branch.1 hr _ (by simp)⟩ htext
        (List.cons.inj heq).2
  | _ => cases hparen

/-- Statements that are printed alike have the same keyword, or none. -/
theorem keyword?_eq {tree other : Tree} (h : Told IsStatement tree) (ho : Told IsStatement other)
    (heq : tree.chars ++ rest = other.chars ++ rest') : tree.keyword? = other.keyword? := by
  rcases h.1.keyword_cases with he | ⟨text, htext, parts, hword, hchars⟩
  · rcases ho.1.keyword_cases with he' | ⟨text', htext', parts', -, hchars'⟩
    · rw [he.keyword?_eq, he'.keyword?_eq]
    · rw [hchars'] at heq
      exact absurd heq (IsExpression.ne_compound ⟨he, h.2⟩ htext')
  · rcases ho.1.keyword_cases with he' | ⟨text', htext', parts', hword', hchars'⟩
    · rw [hchars] at heq
      exact absurd heq.symm (IsExpression.ne_compound ⟨he', ho.2⟩ htext)
    · rw [hchars, hchars'] at heq
      have hclose := congrArg (' ' :: ·) (List.cons.inj heq).2
      obtain ⟨hsame, -⟩ := (compact_keyword text htext).close (compact_keyword text' htext') hclose
      rw [hword, hword', String.toList_inj.1 hsame]

/-- A block decodes if its statements do. -/
theorem decodes_block {body : List Tree} (hr : Readable (branch .block body))
    (h : ∀ statement ∈ body, IsStatement statement)
    (hd : ∀ statement ∈ body, statement.Readable → Decodes (Told IsStatement) statement) :
    Decodes (Told IsBlock) (branch .block body) := by
  refine decodes_branch (by simp) ?_ IsStatement.ne_close hr h fun statement hmem =>
    hd statement hmem (readable_branch.1 hr statement hmem)
  rintro _ ⟨hb⟩
  exact ⟨_, rfl, hb⟩

theorem close_of_keyword {text : String} {parts parts' : List (List Char)}
    (heq : '(' :: (text.toList ++ closeChars parts) ++ rest =
      '(' :: (text.toList ++ closeChars parts') ++ rest') :
    closeChars parts ++ rest = closeChars parts' ++ rest' := by
  simpa using heq

section Compound

variable {condition parameters : Tree} {body otherwise : List Tree} {token : Token}

/-- After the block there is nothing in one form and `else` in the other. -/
theorem decodes_conditional (hc : IsExpression condition)
    (hb : ∀ statement ∈ body, IsStatement statement)
    (hr : Readable (branch .conditional [condition, branch .block body]))
    (hcondition : Decodes (Told IsExpression) condition)
    (hbody : Decodes (Told IsBlock) (branch .block body)) :
    Decodes (Told IsStatement) (branch .conditional [condition, branch .block body]) := by
  intro other rest rest' ho _ _ heq
  have hword := keyword?_eq ⟨.conditional hc hb, hr⟩ ho heq
  obtain ⟨ho, hro⟩ := ho
  cases ho with
  | expression he => exact absurd (hword.trans he.keyword?_eq) (by simp [keyword?])
  | conditional hc' hb' =>
      rw [readable_branch] at hro
      rw [chars_conditional, chars_conditional] at heq
      obtain ⟨hsame, heq⟩ := hcondition.close ⟨hc', hro _ (by simp)⟩ (close_of_keyword heq)
      obtain ⟨hsame', heq⟩ := hbody.close ⟨.block hb', hro _ (by simp)⟩ heq
      exact ⟨unlined_branch (by simp only [List.map_cons, List.map_nil, hsame, hsame']),
        (List.cons.inj heq).2⟩
  | alternative hc' hb' _ =>
      rw [readable_branch] at hro
      rw [chars_conditional, chars_alternative] at heq
      obtain ⟨-, heq⟩ := hcondition.close ⟨hc', hro _ (by simp)⟩ (close_of_keyword heq)
      obtain ⟨-, heq⟩ := hbody.close ⟨.block hb', hro _ (by simp)⟩ heq
      exact absurd (List.cons.inj heq).1 (by decide)
  | loop => simp [keyword?] at hword
  | definition => simp [keyword?] at hword

theorem decodes_alternative (hc : IsExpression condition)
    (hb : ∀ statement ∈ body, IsStatement statement)
    (hb₂ : ∀ statement ∈ otherwise, IsStatement statement)
    (hr : Readable (branch .conditional [condition, branch .block body, branch .block otherwise]))
    (hcondition : Decodes (Told IsExpression) condition)
    (hbody : Decodes (Told IsBlock) (branch .block body))
    (hotherwise : Decodes (Told IsBlock) (branch .block otherwise)) :
    Decodes (Told IsStatement)
      (branch .conditional [condition, branch .block body, branch .block otherwise]) := by
  intro other rest rest' ho _ _ heq
  have hword := keyword?_eq ⟨.alternative hc hb hb₂, hr⟩ ho heq
  obtain ⟨ho, hro⟩ := ho
  cases ho with
  | expression he => exact absurd (hword.trans he.keyword?_eq) (by simp [keyword?])
  | conditional hc' hb' =>
      rw [readable_branch] at hro
      rw [chars_alternative, chars_conditional] at heq
      obtain ⟨-, heq⟩ := hcondition.close ⟨hc', hro _ (by simp)⟩ (close_of_keyword heq)
      obtain ⟨-, heq⟩ := hbody.close ⟨.block hb', hro _ (by simp)⟩ heq
      exact absurd (List.cons.inj heq).1 (by decide)
  | alternative hc' hb' hb₂' =>
      rw [readable_branch] at hro
      rw [chars_alternative, chars_alternative] at heq
      have helse := compact_keyword "else" (by decide)
      obtain ⟨hsame, heq⟩ := hcondition.close ⟨hc', hro _ (by simp)⟩ (close_of_keyword heq)
      obtain ⟨hsame', heq⟩ := hbody.close ⟨.block hb', hro _ (by simp)⟩ heq
      obtain ⟨-, heq⟩ := helse.close helse heq
      obtain ⟨hsame₂, heq⟩ := hotherwise.close ⟨.block hb₂', hro _ (by simp)⟩ heq
      exact ⟨unlined_branch (by simp only [List.map_cons, List.map_nil, hsame, hsame', hsame₂]),
        (List.cons.inj heq).2⟩
  | loop => simp [keyword?] at hword
  | definition => simp [keyword?] at hword

theorem decodes_loop (hc : IsExpression condition)
    (hb : ∀ statement ∈ body, IsStatement statement)
    (hr : Readable (branch .loop [condition, branch .block body]))
    (hcondition : Decodes (Told IsExpression) condition)
    (hbody : Decodes (Told IsBlock) (branch .block body)) :
    Decodes (Told IsStatement) (branch .loop [condition, branch .block body]) := by
  intro other rest rest' ho _ _ heq
  have hword := keyword?_eq ⟨.loop hc hb, hr⟩ ho heq
  obtain ⟨ho, hro⟩ := ho
  cases ho with
  | expression he => exact absurd (hword.trans he.keyword?_eq) (by simp [keyword?])
  | loop hc' hb' =>
      rw [readable_branch] at hro
      rw [chars_loop, chars_loop] at heq
      obtain ⟨hsame, heq⟩ := hcondition.close ⟨hc', hro _ (by simp)⟩ (close_of_keyword heq)
      obtain ⟨hsame', heq⟩ := hbody.close ⟨.block hb', hro _ (by simp)⟩ heq
      exact ⟨unlined_branch (by simp only [List.map_cons, List.map_nil, hsame, hsame']),
        (List.cons.inj heq).2⟩
  | conditional => simp [keyword?] at hword
  | alternative => simp [keyword?] at hword
  | definition => simp [keyword?] at hword

theorem decodes_definition (hn : token.isName = true) (hp : IsParameters parameters)
    (hb : ∀ statement ∈ body, IsStatement statement)
    (hr : Readable (branch .definition [leaf .plain token, parameters, branch .block body]))
    (hbody : Decodes (Told IsBlock) (branch .block body)) :
    Decodes (Told IsStatement)
      (branch .definition [leaf .plain token, parameters, branch .block body]) := by
  intro other rest rest' ho _ _ heq
  have hword := keyword?_eq ⟨.definition hn hp hb, hr⟩ ho heq
  obtain ⟨ho, hro⟩ := ho
  cases ho with
  | expression he => exact absurd (hword.trans he.keyword?_eq) (by simp [keyword?])
  | definition hn' hp' hb' =>
      rw [readable_branch] at hr hro
      rw [chars_definition, chars_definition] at heq
      have hname := IsParameter.decodes ⟨.name hn, hr _ (by simp)⟩
      have hparameters := IsParameters.decodes ⟨hp, hr _ (by simp)⟩
      obtain ⟨hsame, heq⟩ := hname.close ⟨.name hn', hro _ (by simp)⟩ (close_of_keyword heq)
      obtain ⟨hsame', heq⟩ := hparameters.close ⟨hp', hro _ (by simp)⟩ heq
      obtain ⟨hsame₂, heq⟩ := hbody.close ⟨.block hb', hro _ (by simp)⟩ heq
      exact ⟨unlined_branch (by simp only [List.map_cons, List.map_nil, hsame, hsame', hsame₂]),
        (List.cons.inj heq).2⟩
  | conditional => simp [keyword?] at hword
  | alternative => simp [keyword?] at hword
  | loop => simp [keyword?] at hword

end Compound

/-- The induction is on the statement, with one case for each form. -/
theorem IsStatement.decodes {tree : Tree} (h : IsStatement tree) :
    tree.Readable → Decodes (Told IsStatement) tree := by
  induction h with
  | @expression tree h =>
      intro hr other rest rest' ho hd hd' heq
      have hword := keyword?_eq ⟨.expression h, hr⟩ ho heq
      rcases ho.1.keyword_cases with he | ⟨text, -, _, hkeyword, -⟩
      · exact h.decodes hr other rest rest' ⟨he, ho.2⟩ hd hd' heq
      · rw [h.keyword?_eq, hkeyword] at hword
        cases hword
  | conditional hc hb ih =>
      intro hr
      have hparts := readable_branch.1 hr
      exact decodes_conditional hc hb hr (hc.decodes (hparts _ (by simp)))
        (decodes_block (hparts _ (by simp)) hb ih)
  | alternative hc hb hb₂ ih ih₂ =>
      intro hr
      have hparts := readable_branch.1 hr
      exact decodes_alternative hc hb hb₂ hr (hc.decodes (hparts _ (by simp)))
        (decodes_block (hparts _ (by simp)) hb ih) (decodes_block (hparts _ (by simp)) hb₂ ih₂)
  | loop hc hb ih =>
      intro hr
      have hparts := readable_branch.1 hr
      exact decodes_loop hc hb hr (hc.decodes (hparts _ (by simp)))
        (decodes_block (hparts _ (by simp)) hb ih)
  | definition hn hp hb ih =>
      intro hr
      have hparts := readable_branch.1 hr
      exact decodes_definition hn hp hb hr (decodes_block (hparts _ (by simp)) hb ih)

theorem openChars_ne_nil {part : List Char} {parts : List (List Char)}
    (h : ∃ c cs, part = c :: cs ∧ c ≠ ')') : openChars (part :: parts) ≠ openChars [] := by
  obtain ⟨c, cs, rfl, hc⟩ := h
  exact fun heq => hc (List.cons.inj heq).1

/-- A statement that does something is not taken for one that does nothing. -/
theorem IsStatement.ne_null {tree : Tree} (h : Told IsStatement tree) :
    tree.chars ≠ (branch .null []).chars := by
  intro heq
  rw [chars_branch (by simp), List.map_nil] at heq
  rcases h.1.keyword_cases with he | ⟨text, htext, parts, -, hchars⟩
  · obtain ⟨c, cs, hcs, hlead⟩ := he.exists_lead h.2
    have hparen : tree.lead = .paren := by
      rw [hcs] at heq
      rw [(List.cons.inj heq).1] at hlead
      exact (Option.some.inj hlead).symm
    have hparts : ∀ {kind children}, tree = branch kind children →
        ∀ child ∈ children, IsExpression child → ∃ c cs, child.chars = c :: cs ∧ c ≠ ')' := by
      rintro kind children rfl child hmem hchild
      exact IsExpression.ne_close child ⟨hchild, readable_branch.1 h.2 child hmem⟩
    cases he with
    | binary hleft =>
        rw [chars_branch (by simp)] at heq
        exact openChars_ne_nil (hparts rfl _ List.mem_cons_self hleft) (List.cons.inj heq).2
    | primary htarget =>
        rw [chars_branch (by simp)] at heq
        exact openChars_ne_nil (hparts rfl _ List.mem_cons_self htarget) (List.cons.inj heq).2
    | _ => cases hparen
  · have hhead : ∀ text ∈ keywords, text.toList.head?.any (· != ')') = true := by decide
    obtain ⟨c, cs, hcs, hc⟩ := exists_cons_of_any_head (hhead text htext)
    rw [hchars] at heq
    exact openChars_ne_nil ⟨c, cs, hcs, bne_iff_ne.1 hc⟩ (List.cons.inj heq).2

end Tree

namespace Language

open TokenStream TreeScript.Tree

theorem legible_endOfLine (line : Nat) : Token.Legible ⟨.endOfLine, line⟩ :=
  ⟨fun h => (by cases h), fun _ h => (by cases h)⟩

/-- The tokens that a stream of a source shows are legible. -/
theorem legible_of_shows {stream : TokenStream} (h : stream.Reachable) {tokens : List Token}
    {tail : List Item} (hs : stream.Shows tokens tail) : ∀ token ∈ tokens, token.Legible := by
  intro token hmem
  have hitem : token ∈ tokensIn stream.items := by
    rw [hs.1, tokensIn_append, tokensIn_map_ok]
    exact List.mem_append_left _ hmem
  obtain ⟨source, hsuffix⟩ := h.exists_source
  obtain ⟨item, hitem, hok⟩ := List.mem_filterMap.1 (hsuffix.subset hitem)
  cases item with
  | error cause => cases hok
  | ok token' =>
      cases hok
      exact forall_mem_sourceItems (fun _ _ _ => Token.legible_of_tokenize) legible_endOfLine hitem

/-- A statement that was read does something or nothing, and its tokens can be read. -/
theorem told_of_gives {stream stream' : TokenStream} (h : stream.Reachable) {tree : Tree}
    (hg : full.statement.Gives stream tree stream') :
    Told (fun tree => IsStatement tree ∨ tree = .branch .null []) tree := by
  refine ⟨(ensures_statement_shape (.inl rfl) stream).of_gives hg, fun token hmem => ?_⟩
  obtain ⟨tokens, tail, hs⟩ := stream.exists_shows
  obtain ⟨rest, -, -, hretains⟩ := (ensures_parse fun n => ensures_parseWithin closed_retains
    (failureClosed_any _ _) n full.program stream tokens hs).of_gives hg
  obtain ⟨hin, hkeyword⟩ := hretains token hmem
  exact ⟨legible_of_shows h hs token hin, hkeyword⟩

/-- Two statements with the same printed form are the same, up to lines. -/
theorem unlined_eq_of_printed_eq {s t s' t' : TokenStream} {a b : Tree} (hs : s.Reachable)
    (ht : t.Reachable) (ha : full.statement.Gives s a s') (hb : full.statement.Gives t b t')
    (h : a.printed = b.printed) : a.unlined = b.unlined := by
  obtain ⟨ha, hra⟩ := told_of_gives hs ha
  obtain ⟨hb, hrb⟩ := told_of_gives ht hb
  have hchars : a.chars = b.chars := congrArg String.toList h
  rcases ha with ha | rfl
  · rcases hb with hb | rfl
    · have hdelimited : Delimited [] := fun _ hc => by cases hc
      have heq : a.chars ++ [] = b.chars ++ [] := by rw [hchars]
      exact (ha.decodes hra b [] [] ⟨hb, hrb⟩ hdelimited hdelimited heq).1
    · exact absurd hchars (IsStatement.ne_null ⟨ha, hra⟩)
  · rcases hb with hb | rfl
    · exact absurd hchars.symm (IsStatement.ne_null ⟨hb, hrb⟩)
    · rfl

/-- The same statement on one line and on three, with parentheses that leave no trace. -/
theorem unlined_eq_of_printed_eq_alternative :
    let s := ofSource (.ofText "if x < 1 \x7b f(x)(2) \x7d else \x7b -y \x7d\n")
    let t := ofSource (.ofText "if (x < 1) \x7b\n (f(x)(2)); \x7d else \x7b -(y)\n\x7d\n")
    s.Reachable ∧ t.Reachable ∧ ∃ a b s' t',
      full.statement.Gives s a s' ∧ full.statement.Gives t b t' ∧
        a.printed = "(if (x < 1) ((f (x) (2))) else (-y))" ∧ a.printed = b.printed ∧
        a.unlined = b.unlined := by
  intro s t
  have hs : s.Reachable := .ofSource _
  have ht : t.Reachable := .ofSource _
  have ha : (full.statement s).value?.map (·.1.printed) =
      some "(if (x < 1) ((f (x) (2))) else (-y))" := by decide +kernel
  have hb : (full.statement t).value?.map (·.1.printed) =
      some "(if (x < 1) ((f (x) (2))) else (-y))" := by decide +kernel
  obtain ⟨⟨a, s'⟩, ha, hprinted⟩ := Option.map_eq_some_iff.1 ha
  obtain ⟨⟨b, t'⟩, hb, hprinted'⟩ := Option.map_eq_some_iff.1 hb
  have ha := Action.gives_of_value? ha
  have hb := Action.gives_of_value? hb
  have heq : a.printed = b.printed := hprinted.trans hprinted'.symm
  exact ⟨hs, ht, a, b, s', t', ha, hb, hprinted, heq, unlined_eq_of_printed_eq hs ht ha hb heq⟩

end Language

end TreeScript
