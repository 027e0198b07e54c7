import TreeScript.Proofs.Program.Delivers
import TreeScript.Proofs.TokenStream.Requests

/-!
# Parsing ends and makes progress

Parsing a statement or an expression ends on every stream, and a tree has cost at least one token.
So a whole source is parsed or refused, and a run that has gone on for some turns has one token less
for each of them: it parses at most as many statements as its source has tokens
(`parsing_progresses`). Which statement a turn has parsed, and which one has failed if the turn
stops, is said in `ensures_turn`.
-/

namespace TreeScript

/-! ## Turns of a repetition -/

namespace Action

variable {σ ε α β : Type}

/-- After `k` turns that all said to go on, a repetition has got from `b` and `s` to `c` and `t`. -/
inductive Turns (body : β → Action σ ε (β ⊕ α)) (b : β) (s : σ) : Nat → β → σ → Prop where
  /-- No turn was made. -/
  | start : Turns body b s 0 b s
  /-- One more turn says to go on. -/
  | more {k : Nat} {c d : β} {t u : σ} :
      Turns body b s k c t → (body c).Gives t (.inl d) u → Turns body b s (k + 1) d u

/-- A repetition that stops does so in some turn. -/
theorem exists_turns_of_stops {body : β → Action σ ε (β ⊕ α)} {n : Nat} {b : β} {s t : σ} {e : ε}
    (h : (iterate body n b).Stops s e t) :
    ∃ k c u, Turns body b s k c u ∧ (body c).Stops u e t := by
  have hensures : (iterate body n b).Ensures s (fun _ _ => True)
      fun e t => ∃ k c u, Turns body b s k c u ∧ (body c).Stops u e t := by
    refine ensures_iterate (fun c u => ∃ k, Turns body b s k c u) ?_ n b s ⟨0, .start⟩
    intro c u hreached
    obtain ⟨k, hturns⟩ := hreached
    refine (ensures_self (body c) u).mono ?_ fun _ _ hstops => ⟨k, c, u, hturns, hstops⟩
    intro next v hgives
    cases next with
    | inl d => exact ⟨k + 1, hturns.more hgives⟩
    | inr a => trivial
  exact hensures.of_stops h

end Action

namespace TokenStream

/-- What is shown are tokens of the stream. -/
theorem Shows.length_le_tokensIn {s : TokenStream} {tokens : List Token} {tail : List Item}
    (h : s.Shows tokens tail) : tokens.length ≤ (tokensIn s.items).length := by
  rw [h.1, tokensIn_append, tokensIn_map_ok, List.length_append]
  omega

end TokenStream

namespace Program

open Grammar TokenStream TreeScript.Language

variable {language : Language} {s t : TokenStream} {tokens : List Token} {tail : List Item}
  {tree : Tree}

/-! ## One tree -/

/-- A rule that takes a token leaves what comes after the tokens it has consumed. -/
theorem exists_consumed {grammar : Grammar} {rank : RuleId → Nat} {takes : RuleId → Bool}
    (hg : Ranked grammar rank takes) {id : RuleId} (htakes : takes id = true)
    (h : (grammar.parse id).Gives s tree t) :
    ∃ consumed : List Token, consumed ≠ [] ∧ s.items = consumed.map .ok ++ t.items := by
  obtain ⟨tokens, tail, hs⟩ := s.exists_shows
  have hfollows := ensures_parse fun n => hg.follows_shrinks tail n id s tokens hs
  obtain ⟨rest, ht, ⟨consumed, rfl⟩, hlt⟩ := hfollows.of_gives h
  refine ⟨consumed, ?_, ?_⟩
  · intro hnil
    subst hnil
    exact Nat.lt_irrefl _ (hlt htakes)
  · rw [hs.1, ht.1, List.map_append, List.append_assoc]

/-- The next statement of the stream begins with the token. What comes after it is left. -/
def Upcoming (language : Language) (s : TokenStream) (token : Token) (statement : Tree)
    (t : TokenStream) : Prop :=
  ∃ s₁, (Grammar.peek 0).Gives s token s₁ ∧ token.isEndOfFile = false ∧
    language.statement.Gives s₁ statement t

section Languages

variable (hl : language = full ∨ language = basic)
include hl

theorem ends_rule (id : RuleId) (s : TokenStream) : (language.grammar.parse id).Ends s := by
  cases hl with
  | inl hl =>
      subst hl
      exact ranked_full.ends_parse id s
  | inr hl =>
      subst hl
      exact ranked_basic.ends_parse id s

/-- A statement or an expression consumes at least one token. -/
theorem exists_consumed_of_rule {id : RuleId} (hid : id = language.program ∨ id = language.expr)
    (h : (language.grammar.parse id).Gives s tree t) :
    ∃ consumed : List Token, consumed ≠ [] ∧ s.items = consumed.map .ok ++ t.items := by
  cases hl with
  | inl hl =>
      subst hl
      have htakes : advances fullSize id = true := by
        cases hid with
        | inl h => rw [h]; rfl
        | inr h => rw [h]; rfl
      exact exists_consumed ranked_full htakes h
  | inr hl =>
      subst hl
      have htakes : advances basicSize id = true := by
        cases hid with
        | inl h => rw [h]; rfl
        | inr h => rw [h]; rfl
      exact exists_consumed ranked_basic htakes h

/-! ## The loop of a run -/

omit hl in
/-- A turn of a run that goes on has parsed a statement. If an evaluation fails, it is that of the
statement that was parsed. -/
theorem ensures_turn (budget : Nat) (s : TokenStream) (result : Value) (heap : Heap) :
    (runStatement language budget (s, result)).Ensures heap
      (fun next _ => ∀ state, next = .inl state →
        ∃ token statement, Upcoming language s token statement state.1)
      fun cause heap' => ∀ error location, cause = .eval error location →
        ∃ token statement t, Upcoming language s token statement t ∧ statement.isNull = false ∧
          (evaluate budget statement).Stops heap error heap' ∧
          location = statement.location?.getD "" := by
  rw [runStatement, Action.ensures_bind, Action.ensures_mapError, Action.ensures_inside]
  refine (Action.ensures_self _ s).mono ?_ fun _ _ _ _ _ herror => RunError.noConfusion herror
  intro token s₁ hpeek
  dsimp only
  cases hend : token.isEndOfFile with
  | true =>
      rw [if_pos rfl]
      intro state hnext
      cases hnext
  | false =>
      rw [if_neg Bool.false_ne_true, Action.ensures_bind, Action.ensures_mapError,
        Action.ensures_inside]
      refine (Action.ensures_self _ s₁).mono ?_ fun _ _ _ _ _ herror => RunError.noConfusion herror
      intro statement t hg
      have hupcoming : Upcoming language s token statement t := ⟨s₁, hpeek, hend, hg⟩
      dsimp only
      cases hnull : statement.isNull with
      | true =>
          rw [if_pos rfl]
          intro state hnext
          cases hnext
          exact ⟨token, statement, hupcoming⟩
      | false =>
          rw [if_neg Bool.false_ne_true, Action.ensures_bind, Action.ensures_mapError]
          refine (Action.ensures_self _ heap).mono ?_ ?_
          · intro value heap₁ _ state hnext
            cases hnext
            exact ⟨token, statement, hupcoming⟩
          · intro cause heap₁ hstops error location herror
            cases herror
            exact ⟨token, statement, t, hupcoming, hnull, hstops, rfl⟩

/-- A turn of a run that goes on has parsed a statement, so it leaves fewer tokens. -/
theorem exists_shorter_of_runStatement {budget : Nat} {result : Value} {heap heap' : Heap}
    {next : TokenStream × Value} (hs : s.Shows tokens tail)
    (h : (runStatement language budget (s, result)).Gives heap (.inl next) heap') :
    ∃ rest, next.1.Shows rest tail ∧ rest.length < tokens.length := by
  obtain ⟨token, tree, s₁, hpeek, -, hg⟩ := (ensures_turn budget s result heap).of_gives h next rfl
  obtain ⟨-, -, hs₁⟩ := shows_of_peek hs hpeek
  exact exists_shorter_of_statement hl hs₁ hg

/-- After `k` turns a run has `k` tokens less. -/
theorem exists_shows_of_turns {budget k : Nat} {result : Value} {heap heap' : Heap}
    {next : TokenStream × Value} (hs : s.Shows tokens tail)
    (h : Action.Turns (runStatement language budget) (s, result) heap k next heap') :
    ∃ rest, next.1.Shows rest tail ∧ k + rest.length ≤ tokens.length := by
  induction h with
  | start => exact ⟨tokens, hs, by omega⟩
  | more _ hturn ih =>
      obtain ⟨rest, hshows, hle⟩ := ih
      obtain ⟨rest', hshows', hlt⟩ := exists_shorter_of_runStatement hl hshows hturn
      exact ⟨rest', hshows', by omega⟩

/-- On every stream a statement or an expression is parsed or refused, and a tree has cost a token.
Every source is parsed or refused. A run goes on for no more turns, each with one statement, than
the source has tokens, and it tries to parse one more only if there is a token for it. -/
theorem parsing_progresses :
    (∀ parser, parser = language.statement ∨ parser = language.expression → ∀ s,
      ((∃ tree t, parser.Gives s tree t) ∨ ∃ error t, parser.Stops s error t) ∧
      ∀ tree t, parser.Gives s tree t →
        ∃ consumed : List Token, consumed ≠ [] ∧ s.items = consumed.map .ok ++ t.items) ∧
    ∀ source, let count := (tokensIn (ofSource source).items).length
      (∀ heap : Heap,
        (∃ trees, (parseAll language source).Gives heap trees heap ∧ trees.length ≤ count) ∨
        ∃ error, (parseAll language source).Stops heap error heap) ∧
      ∀ budget heap k t result heap',
        Action.Turns (runStatement language budget) (ofSource source, .nil) heap k (t, result)
          heap' →
        k ≤ count ∧ ∀ token t', (Grammar.peek 0).Gives t token t' → token.isEndOfFile = false →
          k < count := by
  refine ⟨fun parser hparser s => ?_, fun source => ?_⟩
  · cases hparser with
    | inl h =>
        subst h
        exact ⟨(ends_rule hl _ s).gives_or_stops,
          fun _ _ h => exists_consumed_of_rule hl (.inl rfl) h⟩
    | inr h =>
        subst h
        exact ⟨(ends_rule hl _ s).gives_or_stops,
          fun _ _ h => exists_consumed_of_rule hl (.inr rfl) h⟩
  · intro count
    obtain ⟨tokens, tail, hs⟩ := (ofSource source).exists_shows
    have hcount : tokens.length ≤ count := hs.length_le_tokensIn
    constructor
    · intro heap
      obtain ⟨trees, ending, hd⟩ := exists_delivers hl (ofSource source)
      cases ending with
      | none => exact .inl ⟨trees, hd.gives_parseAll hl heap, (hd.length_le hl hs).trans hcount⟩
      | some error => exact .inr ⟨error, hd.stops_parseAll hl heap⟩
    · intro budget heap k t result heap' hturns
      obtain ⟨rest, ht, hle⟩ := exists_shows_of_turns hl hs hturns
      refine ⟨by omega, fun token t' hpeek hend => ?_⟩
      obtain ⟨hsees, -, -⟩ := shows_of_peek ht hpeek
      cases hsees with
      | inl h =>
          obtain ⟨rest', rfl⟩ := h
          rw [List.length_cons] at hle
          omega
      | inr h =>
          obtain ⟨-, line, rfl⟩ := h
          cases hend

end Languages

/-- The first statement of a source is parsed and evaluated, the second one is refused. -/
theorem parsing_progresses_refused :
    let source := Source.ofText "x = 1; y = )\n"
    let count := (tokensIn (ofSource source).items).length
    (∃ error, (parseAll full source).Stops initialHeap error initialHeap) ∧
      (∃ tree t consumed, full.statement.Gives (ofSource source) tree t ∧ consumed ≠ [] ∧
        (ofSource source).items = consumed.map .ok ++ t.items) ∧
      ∃ t result heap', Action.Turns (runStatement full 20) (ofSource source, .nil) initialHeap 1
        (t, result) heap' ∧ 1 ≤ count := by
  intro source count
  obtain ⟨hrules, hsource⟩ := @parsing_progresses full (.inl rfl)
  obtain ⟨hall, hturns⟩ := hsource source
  refine ⟨?_, ?_, ?_⟩
  · have hstops : (parseAll full source initialHeap).error?.isSome = true := by decide +kernel
    obtain ⟨⟨error, heap⟩, herror⟩ := Option.isSome_iff_exists.1 hstops
    cases hall initialHeap with
    | inl h =>
        obtain ⟨trees, hg, -⟩ := h
        exact absurd (Action.stops_of_error? herror) hg.not_stops
    | inr h => exact h
  · have hgives : (full.statement (ofSource source)).value?.isSome = true := by decide +kernel
    obtain ⟨⟨tree, t⟩, hvalue⟩ := Option.isSome_iff_exists.1 hgives
    have hg := Action.gives_of_value? hvalue
    obtain ⟨consumed, hne, hitems⟩ :=
      (hrules full.statement (.inl rfl) (ofSource source)).2 tree t hg
    exact ⟨tree, t, consumed, hg, hne, hitems⟩
  · have hturn : (runStatement full 20 (ofSource source, .nil) initialHeap).value?.any
        (·.1.isLeft) = true := by decide +kernel
    obtain ⟨⟨next, heap'⟩, hvalue, hleft⟩ := (Option.any_eq_true _ _).1 hturn
    cases next with
    | inr value => cases hleft
    | inl next =>
        have hone := Action.Turns.start.more (Action.gives_of_value? hvalue)
        exact ⟨next.1, next.2, heap', hone, (hturns 20 initialHeap 1 _ _ heap' hone).1⟩

end Program

end TreeScript
