import TreeScript.Proofs.Grammar.Ending
import TreeScript.Proofs.Language.Derivation
import TreeScript.Proofs.Language.Numbering

/-!
# The rules of the language

What is asked of the two grammars themselves and not of their sources: kinds are of the right
sort, parsing ends, and which tokens a rule of the full language could start at.

A rule starts at a token of one of four sorts: one that opens an operand, one that opens a
factor, one that opens a compound statement, or a certain word. The sorts that a choice tells
apart exclude each other.
-/

namespace TreeScript

namespace Language

open Grammar

/-! ## Kinds and ranks -/

theorem wellKinded_full : full.grammar.WellKinded := wellKinded_of_table (by decide +kernel)

theorem wellKinded_basic : basic.grammar.WellKinded := wellKinded_of_table (by decide +kernel)

/-- How deep the first elements of the rules of a table nest. -/
def rank (size : Nat) (id : RuleId) : Nat :=
  if id < size then
    match id with
    | compoundId | primaryId | paramsId => 1
    | factorId | compoundStatementId => 2
    | exprId => 3
    | simpleId | argsId => 4
    | blockSimpleId | simpleStatementId => 5
    | blockStatementId | programId => 6
    | _ => 0
  else 0

/-- Every rule of a table takes a token but the one that looks for the end of a block. -/
def advances (size : Nat) (id : RuleId) : Bool := id < size && id != blockEndId

/-- Beyond a table nothing nests and no token is taken. -/
theorem rank_of_size_le {size : Nat} {id : RuleId} (h : size ≤ id) :
    rank size id = 0 ∧ advances size id = false := by
  simp [rank, advances, Nat.not_lt.2 h]

/-- The rules of the full language are ranked, so parsing ends. -/
theorem ranked_full : Ranked full.grammar (rank fullSize) (advances fullSize) :=
  ranked_of_table (fun _ h => rank_of_size_le h) (by decide +kernel)

/-- The rules of the basic language are ranked, so parsing ends. -/
theorem ranked_basic : Ranked basic.grammar (rank basicSize) (advances basicSize) :=
  ranked_of_table (fun _ h => rank_of_size_le h) (by decide +kernel)

/-- A statement at the top is read or refused within the budget. -/
theorem ends_statement_full (stream : TokenStream) : full.statement.Ends stream :=
  ranked_full.ends_parse full.program stream

/-- So it is in the basic language. -/
theorem ends_statement_basic (stream : TokenStream) : basic.statement.Ends stream :=
  ranked_basic.ends_parse basic.program stream

theorem consistent_operators : operators.Consistent := Operators.consistent_of_rows (by decide)

/-! ## Where rules start -/

/-- A rule that begins with a rule starts where that rule does. -/
theorem startsAtWithin_of_tree {grammar : Grammar} {id other : RuleId} {elements : List Element}
    (h : (grammar.rule id).elements = .tree other :: elements) (token : Token) (n : Nat) :
    grammar.startsAtWithin token (n + 1) id = grammar.startsAtWithin token n other := by
  rw [startsAtWithin, h]
  rfl

/-- The token opens an operand. -/
def opensOperand (token : Token) : Bool :=
  isLiteral ["("] token || token.isNumber || full.grammar.accepts .name token || token.isString

/-- The token opens a factor. -/
def opensFactor (token : Token) : Bool := isLiteral ["-"] token || opensOperand token

/-- The token opens a compound statement. -/
def opensCompound (token : Token) : Bool :=
  isLiteral ["def"] token || isLiteral ["if"] token || isLiteral ["while"] token

section Starts

variable (token : Token) (n : Nat)

/-- An operand starts where one of its atoms does. -/
theorem startsAtWithin_primary :
    full.grammar.startsAtWithin token (n + 2) primaryId = some (opensOperand token) := by
  have h : full.grammar.startsAtWithin token (n + 2) primaryId =
    (firstAt (full.grammar.startsAtWithin token (n + 1))
      [parenId, numberId, nameId, stringId]).map Option.isSome := rfl
  have h₂ : full.grammar.startsAtWithin token (n + 1) parenId = some (isLiteral ["("] token) := rfl
  have h₃ : full.grammar.startsAtWithin token (n + 1) numberId = some token.isNumber := rfl
  have h₄ : full.grammar.startsAtWithin token (n + 1) nameId =
    some (full.grammar.accepts .name token) := rfl
  have h₅ : full.grammar.startsAtWithin token (n + 1) stringId = some token.isString := rfl
  rw [h, firstAt_cons h₂, firstAt_cons h₃, firstAt_cons h₄, firstAt_cons h₅, firstAt, opensOperand]
  cases isLiteral ["("] token <;> cases token.isNumber <;>
    cases full.grammar.accepts .name token <;> cases token.isString <;> rfl

/-- A factor starts at a minus sign or where an operand does. -/
theorem startsAtWithin_factor :
    full.grammar.startsAtWithin token (n + 3) factorId = some (opensFactor token) := by
  have h : full.grammar.startsAtWithin token (n + 3) factorId =
    (firstAt (full.grammar.startsAtWithin token (n + 2))
      [negativeId, primaryId]).map Option.isSome := rfl
  have h₇ : full.grammar.startsAtWithin token (n + 2) negativeId =
    some (isLiteral ["-"] token) := rfl
  rw [h, firstAt_cons h₇, firstAt_cons (startsAtWithin_primary token n), firstAt, opensFactor]
  cases isLiteral ["-"] token <;> cases opensOperand token <;> rfl

theorem startsAtWithin_expr :
    full.grammar.startsAtWithin token (n + 4) exprId = some (opensFactor token) :=
  startsAtWithin_factor token n

theorem startsAtWithin_simple :
    full.grammar.startsAtWithin token (n + 5) simpleId = some (opensFactor token) :=
  (startsAtWithin_of_tree rfl token (n + 4)).trans (startsAtWithin_expr token n)

theorem startsAtWithin_blockSimple :
    full.grammar.startsAtWithin token (n + 6) blockSimpleId = some (opensFactor token) :=
  (startsAtWithin_of_tree rfl token (n + 5)).trans (startsAtWithin_simple token n)

/-- A compound statement starts at one of three words. -/
theorem startsAtWithin_compound :
    full.grammar.startsAtWithin token (n + 2) compoundId = some (opensCompound token) := by
  have h : full.grammar.startsAtWithin token (n + 2) compoundId =
    (firstAt (full.grammar.startsAtWithin token (n + 1))
      [defId, ifId, whileId]).map Option.isSome := rfl
  have h₁ : full.grammar.startsAtWithin token (n + 1) defId = some (isLiteral ["def"] token) := rfl
  have h₂ : full.grammar.startsAtWithin token (n + 1) ifId = some (isLiteral ["if"] token) := rfl
  have h₃ : full.grammar.startsAtWithin token (n + 1) whileId =
    some (isLiteral ["while"] token) := rfl
  rw [h, firstAt_cons h₁, firstAt_cons h₂, firstAt_cons h₃, firstAt, opensCompound]
  cases isLiteral ["def"] token <;> cases isLiteral ["if"] token <;>
    cases isLiteral ["while"] token <;> rfl

theorem startsAt_primary : full.grammar.startsAt primaryId token = some (opensOperand token) :=
  startsAtWithin_primary token _

theorem startsAt_negative :
    full.grammar.startsAt negativeId token = some (isLiteral ["-"] token) := rfl

theorem startsAt_compound : full.grammar.startsAt compoundId token = some (opensCompound token) :=
  startsAtWithin_compound token _

theorem startsAt_blockSimple :
    full.grammar.startsAt blockSimpleId token = some (opensFactor token) :=
  startsAtWithin_blockSimple token _

theorem startsAt_separator :
    full.grammar.startsAt separatorId token = some (isLiteral separators token) := rfl

theorem startsAt_blockEnd :
    full.grammar.startsAt blockEndId token = some (isLiteral ["\x7d"] token) := rfl

/-- A statement of a block starts where any of the three does. -/
theorem startsAt_blockStatement : full.grammar.startsAt blockStatementId token =
    some (opensCompound token || opensFactor token || isLiteral separators token) := by
  have h : full.grammar.startsAt blockStatementId token =
    (firstAt (full.grammar.startsAtWithin token fullSize)
      [compoundId, blockSimpleId, separatorId]).map Option.isSome := rfl
  have h₁ : full.grammar.startsAtWithin token fullSize separatorId =
    some (isLiteral separators token) := rfl
  rw [h, firstAt_cons (startsAtWithin_compound token _),
    firstAt_cons (startsAtWithin_blockSimple token _), firstAt_cons h₁, firstAt]
  cases opensCompound token <;> cases opensFactor token <;> cases isLiteral separators token <;> rfl

theorem startsAt_else : full.grammar.startsAt elseId token = some (isLiteral ["else"] token) := rfl

theorem startsAt_if : full.grammar.startsAt ifId token = some (isLiteral ["if"] token) := rfl

theorem startsAt_while :
    full.grammar.startsAt whileId token = some (isLiteral ["while"] token) := rfl

theorem startsAt_compoundStatement :
    full.grammar.startsAt compoundStatementId token = some (opensCompound token) :=
  (startsAtWithin_of_tree rfl token _).trans (startsAtWithin_compound token _)

theorem startsAt_simpleStatement :
    full.grammar.startsAt simpleStatementId token = some (opensFactor token) :=
  (startsAtWithin_of_tree rfl token _).trans (startsAtWithin_simple token _)

theorem startsAt_null :
    full.grammar.startsAt nullStatementId token = some (isLiteral separators token) := rfl

theorem startsAt_paramTail :
    full.grammar.startsAt paramTailId token = some (isLiteral [","] token) := rfl

theorem startsAt_params :
    full.grammar.startsAt paramsId token = some (full.grammar.accepts .name token) := rfl

theorem startsAt_def : full.grammar.startsAt defId token = some (isLiteral ["def"] token) := rfl

theorem startsAt_argTail :
    full.grammar.startsAt argTailId token = some (isLiteral [","] token) := rfl

theorem startsAt_args : full.grammar.startsAt argsId token = some (opensFactor token) :=
  (startsAtWithin_of_tree rfl token _).trans (startsAtWithin_expr token _)

theorem startsAt_call : full.grammar.startsAt callId token = some (isLiteral ["("] token) := rfl

/-! ## What is chosen -/

/-- The rules are asked in order. -/
theorem chooseAt_cons {grammar : Grammar} {id : RuleId} {yes : Bool} {token : Token}
    (h : grammar.startsAt id token = some yes) (ids : List RuleId) :
    grammar.chooseAt (id :: ids) token =
      if yes then some (some id) else grammar.chooseAt ids token := firstAt_cons h ids

theorem chooseAt_nil {grammar : Grammar} {token : Token} :
    grammar.chooseAt [] token = some none := rfl

/-- The first token tells the four atoms apart. -/
theorem chooseAt_atom : full.grammar.chooseAt [parenId, numberId, nameId, stringId] token =
    if isLiteral ["("] token then some (some parenId)
    else if token.isNumber then some (some numberId)
    else if full.grammar.accepts .name token then some (some nameId)
    else if token.isString then some (some stringId) else some none := by
  have h₂ : full.grammar.startsAt parenId token = some (isLiteral ["("] token) := rfl
  have h₃ : full.grammar.startsAt numberId token = some token.isNumber := rfl
  have h₄ : full.grammar.startsAt nameId token = some (full.grammar.accepts .name token) := rfl
  have h₅ : full.grammar.startsAt stringId token = some token.isString := rfl
  rw [chooseAt_cons h₂, chooseAt_cons h₃, chooseAt_cons h₄, chooseAt_cons h₅, chooseAt_nil]

/-- A minus sign tells the two factors apart. -/
theorem chooseAt_factor : full.grammar.chooseAt [negativeId, primaryId] token =
    if isLiteral ["-"] token then some (some negativeId)
    else if opensOperand token then some (some primaryId) else some none := by
  rw [chooseAt_cons (startsAt_negative token), chooseAt_cons (startsAt_primary token), chooseAt_nil]

theorem chooseAt_blockSimple : full.grammar.chooseAt [separatorId, blockEndId] token =
    if isLiteral separators token then some (some separatorId)
    else if isLiteral ["\x7d"] token then some (some blockEndId) else some none := by
  rw [chooseAt_cons (startsAt_separator token), chooseAt_cons (startsAt_blockEnd token),
    chooseAt_nil]

/-- The first token tells the three statements of a block apart. -/
theorem chooseAt_blockStatement :
    full.grammar.chooseAt [compoundId, blockSimpleId, separatorId] token =
    if opensCompound token then some (some compoundId)
    else if opensFactor token then some (some blockSimpleId)
    else if isLiteral separators token then some (some separatorId) else some none := by
  rw [chooseAt_cons (startsAt_compound token), chooseAt_cons (startsAt_blockSimple token),
    chooseAt_cons (startsAt_separator token), chooseAt_nil]

/-- The first word tells the three compound statements apart. -/
theorem chooseAt_compound : full.grammar.chooseAt [defId, ifId, whileId] token =
    if isLiteral ["def"] token then some (some defId)
    else if isLiteral ["if"] token then some (some ifId)
    else if isLiteral ["while"] token then some (some whileId) else some none := by
  rw [chooseAt_cons (startsAt_def token), chooseAt_cons (startsAt_if token),
    chooseAt_cons (startsAt_while token), chooseAt_nil]

/-- The first token tells the three statements at the top apart. -/
theorem chooseAt_program :
    full.grammar.chooseAt [compoundStatementId, simpleStatementId, nullStatementId] token =
    if opensCompound token then some (some compoundStatementId)
    else if opensFactor token then some (some simpleStatementId)
    else if isLiteral separators token then some (some nullStatementId) else some none := by
  rw [chooseAt_cons (startsAt_compoundStatement token),
    chooseAt_cons (startsAt_simpleStatement token),
    chooseAt_cons (startsAt_null token), chooseAt_nil]

end Starts

end Language

end TreeScript
