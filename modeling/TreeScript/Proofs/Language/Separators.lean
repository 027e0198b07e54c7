import TreeScript.Proofs.Grammar.Likewise
import TreeScript.Proofs.Program.Progress

/-!
# Semicolons and ends of lines

A semicolon is a word and the end of a line is not, but where one of them may stand the other one
may stand too. The literals of the two grammars have both texts or neither, and keep neither of
them. A semicolon is no operator and no name, so it never becomes a leaf (`Element.mixes`).

So the one can be put for the other anywhere, also inside blocks and also where it does not fit.
Parsing gives the same tree and consumes equally many tokens, or it fails at the same token
(`separators_interchangeable`).
-/

namespace TreeScript

/-! ## What elements tell apart -/

namespace Grammar

open TokenStream TreeScript.Derivation

/-- The element takes a semicolon where it takes the end of a line, and keeps neither. -/
def Element.mixes : Element → Bool
  | .literal texts keep =>
      texts.contains ";" == texts.contains Token.endOfLineText && !(keep && texts.contains ";")
  | .ahead texts => texts.contains ";" == texts.contains Token.endOfLineText
  | .expression _ operators _ => (operators.get? ";").isNone
  | _ => true

/-- The same token, or a separator for another one. -/
def Exchanged (token token' : Token) : Prop :=
  token' = token ∨ Separator token ∧ Separator token'

/-- At the ends of two sources the lines may differ as well. -/
def Matched (token token' : Token) : Prop :=
  Exchanged token token' ∨ token.isEndOfFile = true ∧ token'.isEndOfFile = true

/-- A token that is like the end of the source is the end itself. -/
theorem endsAlike_matched : EndsAlike Matched := fun _ _ => .inr ⟨rfl, rfl⟩

section Separators

variable {token token' : Token} {grammar : Grammar}

theorem isLiteral_of_separator (h : Separator token) {texts : List String}
    (hmixes : (texts.contains ";" == texts.contains Token.endOfLineText) = true) :
    isLiteral texts token = texts.contains ";" := by
  obtain ⟨kind, line⟩ := token
  rcases h with h | h
  · subst h
    rfl
  · subst h
    exact (beq_iff_eq.1 hmixes).symm

theorem accepts_of_separator (h : Separator token) (wanted : TokenClass) :
    grammar.accepts wanted token = false := by
  have hname : token.isName = false := by
    obtain ⟨kind, line⟩ := token
    rcases h with h | h
    · subst h
      show ";".toList.head?.any Token.isNameStart = false
      decide
    · subst h
      rfl
  obtain ⟨kind, line⟩ := token
  cases wanted with
  | name => simp [accepts, hname]
  | number | string =>
      rcases h with h | h
      · subst h
        rfl
      · subst h
        rfl

theorem ofToken?_of_separator (h : Separator token) {operators : Operators}
    (hmixes : (operators.get? ";").isNone = true) : operators.ofToken? token = none := by
  obtain ⟨kind, line⟩ := token
  rcases h with h | h
  · subst h
    exact Option.isNone_iff_eq_none.1 hmixes
  · subst h
    rfl

/-- What is the same for all separators, and for all ends of sources, is the same for matched
tokens. -/
theorem Matched.congr {α : Type} {f : Token → α} {a b : α} (h : Matched token token')
    (hseparator : ∀ token, Separator token → f token = a)
    (hend : ∀ line, f ⟨.endOfFile, line⟩ = b) : f token' = f token := by
  rcases h with (rfl | ⟨h, h'⟩) | ⟨h, h'⟩
  · rfl
  · rw [hseparator token h, hseparator token' h']
  · obtain ⟨line, rfl⟩ := eq_endOfFile h
    obtain ⟨line', rfl⟩ := eq_endOfFile h'
    rw [hend, hend]

/-- A token is matched with itself alone if separators and ends of sources fail a test that it
passes. -/
theorem Matched.eq_of_test (h : Matched token token') {test : Token → Bool}
    (hseparator : ∀ token, Separator token → test token = false)
    (hend : ∀ line, test ⟨.endOfFile, line⟩ = false) (htest : test token = true) :
    token' = token := by
  rcases h with (rfl | ⟨h, -⟩) | ⟨h, -⟩
  · rfl
  · rw [hseparator token h] at htest
    cases htest
  · obtain ⟨line, rfl⟩ := eq_endOfFile h
    rw [hend] at htest
    cases htest

theorem Element.overlooks_of_mixes {element : Element} (h : element.mixes = true) :
    element.Overlooks grammar Matched := by
  cases element with
  | tree | choice | repeated | orEmpty => trivial
  | token wanted kind =>
      intro token token' hmatched
      have hseparator : ∀ token, Separator token → grammar.accepts wanted token = false :=
        fun _ hs => accepts_of_separator hs wanted
      exact ⟨hmatched.congr hseparator (accepts_endOfFile grammar wanted),
        hmatched.eq_of_test hseparator (accepts_endOfFile grammar wanted)⟩
  | literal texts keep =>
      intro token token' hmatched
      obtain ⟨hmixes, hkeep⟩ := Bool.and_eq_true_iff.1 h
      have hseparator : ∀ token, Separator token → isLiteral texts token = texts.contains ";" :=
        fun _ hs => isLiteral_of_separator hs hmixes
      refine ⟨hmatched.congr hseparator (isLiteral_endOfFile texts), fun hkept his => ?_⟩
      have hnone : texts.contains ";" = false := by simpa [hkept] using hkeep
      rw [hnone] at hseparator
      exact hmatched.eq_of_test hseparator (isLiteral_endOfFile texts) his
  | ahead texts =>
      intro token token' hmatched
      exact hmatched.congr (fun _ hs => isLiteral_of_separator hs h) (isLiteral_endOfFile texts)
  | expression factor operators kind =>
      intro token token' hmatched
      have hseparator : ∀ token, Separator token → operators.ofToken? token = none :=
        fun _ hs => ofToken?_of_separator hs h
      refine ⟨hmatched.congr hseparator (ofToken?_endOfFile operators), fun hsome => ?_⟩
      have hnone : ∀ token, Separator token → (operators.ofToken? token).isSome = false :=
        fun token hs => by rw [hseparator token hs, Option.isSome_none]
      exact hmatched.eq_of_test hnone (fun _ => rfl) (Option.isSome_iff_ne_none.2 hsome)

/-- Only the rules of the table need a look. -/
theorem overlooks_of_table (h : ∀ id < grammar.rules.size,
    ∀ element ∈ (grammar.rule id).elements, element.mixes = true) : grammar.Overlooks Matched := by
  intro id element hmem
  rcases Nat.lt_or_ge id grammar.rules.size with hid | hid
  · exact Element.overlooks_of_mixes (h id hid element hmem)
  · rw [rule_of_size_le hid] at hmem
    cases hmem

end Separators

end Grammar

/-! ## Statements -/

namespace Language

open Grammar TokenStream

variable {language : Language} (hl : language = full ∨ language = basic)
include hl

theorem overlooks_matched : language.grammar.Overlooks Matched := by
  refine overlooks_of_table ?_
  cases hl with
  | inl hl =>
      subst hl
      decide +kernel
  | inr hl =>
      subst hl
      decide +kernel

/-- If two streams differ only in that ends of lines stand for semicolons or semicolons for ends of
lines, on any lines, a statement is parsed from both, with the same tree and as many tokens, or from
neither. Then both errors have the same message and are about the same place. -/
theorem separators_interchangeable {s s' : TokenStream} (hs : HandOutAlike Exchanged s s') :
    (∃ (tree : Tree) (t t' : TokenStream) (consumed consumed' : List Token),
      language.statement.Gives s tree t ∧ language.statement.Gives s' tree t' ∧
      s.items = consumed.map .ok ++ t.items ∧ s'.items = consumed'.map .ok ++ t'.items ∧
      consumed'.length = consumed.length) ∨
    ∃ e t e' t' k m message, language.statement.Stops s e t ∧ language.statement.Stops s' e' t' ∧
      RefusedAt k m message s e t ∧ RefusedAt k m message s' e' t' := by
  have hmatched : HandOutAlike Matched s s' := hs.imp fun _ _ hitem => hitem.mono fun _ _ => .inl
  have hparse := parse_alike (overlooks_matched hl) endsAlike_matched hmatched language.program
  have hends := Program.ends_rule hl language.program s
  rcases hends.gives_or_stops with ⟨tree, t, hg⟩ | ⟨e, t, hstops⟩
  · obtain ⟨t', k, hg', hk, hk'⟩ := hparse.of_gives hg
    obtain ⟨consumed, -, hconsumed⟩ := Program.exists_consumed_of_rule hl (.inl rfl) hg
    obtain ⟨consumed', -, hconsumed'⟩ := Program.exists_consumed_of_rule hl (.inl rfl) hg'
    refine .inl ⟨tree, t, t', consumed, consumed', hg, hg', hconsumed, hconsumed', ?_⟩
    have hleft : t'.items.length = t.items.length := by
      rw [hk, hk', List.length_drop, List.length_drop, hs.length_eq]
    have hall := congrArg List.length hconsumed
    have hall' := congrArg List.length hconsumed'
    rw [List.length_append, List.length_map] at hall hall'
    have hlength := hs.length_eq
    omega
  · obtain ⟨e', t', hstops', hrefused | ⟨cause, hshape⟩⟩ := hparse.of_stops hstops
    · obtain ⟨k, m, message, hrefused, hrefused'⟩ := hrefused
      exact .inr ⟨e, t, e', t', k, m, message, hstops, hstops', hrefused, hrefused'⟩
    · exact absurd ⟨cause, hshape⟩ ((ensures_statement_shape hl s).of_stops hstops)

omit hl in
/-- In a block and after it the end of line 7 may stand for a semicolon. After an operator neither
of them fits. -/
theorem separators_interchangeable_block :
    let word := fun text => Token.mk (.word text) 1
    let block := fun separator : Token => TokenStream.mk
      [word "if", word "x", word "\x7b", word "y", separator, word "z", word "\x7d", separator] [] 1
    let broken := fun separator : Token => TokenStream.mk
      [word "x", word "=", separator, word "y", separator] [] 1
    (∃ tree t t', full.statement.Gives (block (word ";")) tree t ∧
      full.statement.Gives (block ⟨.endOfLine, 7⟩) tree t') ∧
    ∃ e t e' t' k m message, full.statement.Stops (broken (word ";")) e t ∧
      full.statement.Stops (broken ⟨.endOfLine, 7⟩) e' t' ∧
      RefusedAt k m message (broken (word ";")) e t ∧
      RefusedAt k m message (broken ⟨.endOfLine, 7⟩) e' t' := by
  intro word block broken
  constructor
  · have hsame : HandOutAlike Exchanged (block (word ";")) (block ⟨.endOfLine, 7⟩) := by
      simp [HandOutAlike, items, sourceItems, block, word, Item.alike_token_iff, Exchanged,
        Derivation.Separator]
    have hgives : (full.statement (block (word ";"))).value?.isSome = true := by decide +kernel
    obtain ⟨⟨tree, t⟩, hvalue⟩ := Option.isSome_iff_exists.1 hgives
    rcases separators_interchangeable (.inl rfl) hsame with hboth | ⟨e, u, -, -, -, -, -, hstops, -⟩
    · obtain ⟨tree, t, t', -, -, hg, hg', -⟩ := hboth
      exact ⟨tree, t, t', hg, hg'⟩
    · exact absurd hstops (Action.gives_of_value? hvalue).not_stops
  · have hsame : HandOutAlike Exchanged (broken (word ";")) (broken ⟨.endOfLine, 7⟩) := by
      simp [HandOutAlike, items, sourceItems, broken, word, Item.alike_token_iff, Exchanged,
        Derivation.Separator]
    have hstops : (full.statement (broken (word ";"))).error?.isSome = true := by decide +kernel
    obtain ⟨⟨error, u⟩, herror⟩ := Option.isSome_iff_exists.1 hstops
    rcases separators_interchangeable (.inl rfl) hsame with hboth | hneither
    · obtain ⟨tree, t, -, -, -, hg, -⟩ := hboth
      exact absurd (Action.stops_of_error? herror) hg.not_stops
    · exact hneither

end Language

end TreeScript
