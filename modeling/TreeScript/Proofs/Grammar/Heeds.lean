import TreeScript.Proofs.Grammar.Glances
import TreeScript.Proofs.Grammar.Local

/-!
# Parsers heed what they glance at

What a parser does depends on the answers to its glances alone. `Heeds` says this of two parsers:
the glances that account for what the first one does make the second one do the same on every other
stream that answers them alike. How far answers may differ is a parameter. A grammar overlooks a
difference if no element of it tells such tokens apart and none of them becomes a leaf
(`Element.Overlooks`).

The judgement also bounds the pace at which a parser ends. A table of the paces at which rules end
is checked element by element (`Element.pace`), and parsing keeps it (`heeds_parse`). As the stream
that is left is the same and not only its items, a budget that is enough may as well be larger
(`gives_parse_of_within`).
-/

namespace TreeScript

namespace Grammar

open TokenStream

variable {α β : Type} {E : Token → Token → Prop}

/-! ## Parsers that heed their glances -/

/-- Both errors are about the last glance, or about the shape of a tree. -/
inductive Blames : List Glance → ParseError → List Glance → ParseError → Prop where
  | last (before before' : List Glance) (glance glance' : Glance) (message : String) :
      Blames (before ++ [glance]) (glance.blame message) (before' ++ [glance'])
        (glance'.blame message)
  | shape (glances glances' : List Glance) (cause : Tree.ShapeError) :
      Blames glances (.shape cause) glances' (.shape cause)

theorem Blames.prepend {glances glances' : List Glance} {e e' : ParseError}
    (h : Blames glances e glances' e') (before before' : List Glance) :
    Blames (before ++ glances) e (before' ++ glances') e' := by
  cases h with
  | last first first' glance glance' message =>
      rw [← List.append_assoc, ← List.append_assoc]
      exact .last _ _ _ _ _
  | shape _ _ cause => exact .shape _ _ cause

/-- Errors about the same glances are the same. -/
theorem Blames.error_eq {glances glances' : List Glance} {e e' : ParseError}
    (h : Blames glances e glances' e') (hsame : glances = glances') : e = e' := by
  cases h with
  | last before before' glance glance' message =>
      obtain ⟨-, hlast⟩ := List.append_inj' hsame rfl
      cases hlast
      rfl
  | shape => rfl

/-- From a stream that meets `C`, glances account for what `x` does, and `y` does the same on every
stream that answers them alike. If the pace is `p` before, it is at most `q` after a value. -/
def Heeds (E : Token → Token → Prop) (p q : Pace) (C : TokenStream → Prop) (x y : Parser α) :
    Prop :=
  ∀ s, C s → x.Ensures s
    (fun a t => ∃ glances, Replies s glances t ∧ paceAfter glances p ≤ q ∧
      ∀ s' glances' t', Likes E glances glances' → Replies s' glances' t' → y.Gives s' a t')
    fun e t => ∃ glances, Replies s glances t ∧
      ∀ s' glances' t', Likes E glances glances' → Replies s' glances' t' →
        ∃ e', y.Stops s' e' t' ∧ Blames glances e glances' e'

/-- From every stream. -/
abbrev AnyStream : TokenStream → Prop := fun _ => True

section Steps

variable {p q r : Pace} {C : TokenStream → Prop} {x y : Parser α} {f g : α → Parser β}

/-- The pace before may be nearer and the one after farther, and fewer streams may count. -/
theorem Heeds.mono {p' q' : Pace} {C' : TokenStream → Prop} (h : Heeds E p q C x y) (hp : p' ≤ p)
    (hq : q ≤ q') (hC : ∀ s, C' s → C s) : Heeds E p' q' C' x y := by
  intro s hs
  refine (h s (hC s hs)).mono ?_ fun _ _ he => he
  intro a t ⟨glances, hreplies, hpace, hother⟩
  exact ⟨glances, hreplies, (paceAfter_mono hp glances).trans (hpace.trans hq), hother⟩

/-- The pace before is the one that is known, and the pace after may be less known. -/
theorem Heeds.weaken {p' q' : Pace} (h : Heeds E p q C x y) (hp : p' ≤ p) (hq : q ≤ q') :
    Heeds E p' q' C x y := h.mono hp hq fun _ hs => hs

theorem heeds_pure (a : α) : Heeds E p p C (pure a) (pure a) := by
  intro s _
  refine ⟨[], .nil s, le_refl p, fun s' glances' t' hlikes hreplies => ?_⟩
  cases hlikes
  cases hreplies
  exact Action.gives_pure a

theorem heeds_shape (result : Except Tree.ShapeError α) :
    Heeds E p p C (Action.ofExcept (result.mapError .shape))
      (Action.ofExcept (result.mapError .shape)) := by
  cases result with
  | ok a => exact heeds_pure a
  | error cause =>
      intro s _
      refine ⟨[], .nil s, fun s' glances' t' hlikes hreplies => ?_⟩
      cases hlikes
      cases hreplies
      exact ⟨.shape cause, ⟨[], rfl⟩, .shape _ _ cause⟩

theorem heeds_tell (event : Event) : Heeds E p p C (Action.tell event) (Action.tell event) := by
  intro s _
  refine ⟨[], .nil s, le_refl p, fun s' glances' t' hlikes hreplies => ?_⟩
  cases hlikes
  cases hreplies
  exact ⟨[event], rfl⟩

theorem heeds_unfinished : Heeds E p q C Action.unfinished y := fun _ _ => trivial

/-- What follows begins at the pace at which the first part ends. -/
theorem Heeds.bind (h : Heeds E p q C x y) (hf : ∀ a, Heeds E q r AnyStream (f a) (g a)) :
    Heeds E p r C (x >>= f) (y >>= g) := by
  intro s hs
  rw [Action.ensures_bind]
  refine (h s hs).mono ?_ ?_
  · intro a t ⟨glances, hreplies, hpace, hfirst⟩
    refine (hf a t trivial).mono ?_ ?_
    · intro b u ⟨glances', hreplies', hpace', hsecond⟩
      refine ⟨glances ++ glances', hreplies.append hreplies', ?_, fun s' both u' hlikes hboth => ?_⟩
      · rw [paceAfter_append]
        exact (paceAfter_mono hpace glances').trans hpace'
      · obtain ⟨before, after, rfl, hbefore, hafter⟩ := exists_append_of_likes hlikes
        obtain ⟨t', ht', hu'⟩ := replies_append_iff.1 hboth
        exact (hfirst s' before t' hbefore ht').bind (hsecond t' after u' hafter hu')
    · intro e u ⟨glances', hreplies', hsecond⟩
      refine ⟨glances ++ glances', hreplies.append hreplies', fun s' both u' hlikes hboth => ?_⟩
      obtain ⟨before, after, rfl, hbefore, hafter⟩ := exists_append_of_likes hlikes
      obtain ⟨t', ht', hu'⟩ := replies_append_iff.1 hboth
      obtain ⟨e', hstops, hblames⟩ := hsecond t' after u' hafter hu'
      exact ⟨e', (hfirst s' before t' hbefore ht').bind_stops hstops, hblames.prepend _ _⟩
  · intro e t ⟨glances, hreplies, hfirst⟩
    refine ⟨glances, hreplies, fun s' glances' t' hlikes hreplies' => ?_⟩
    obtain ⟨e', hstops, hblames⟩ := hfirst s' glances' t' hlikes hreplies'
    exact ⟨e', hstops.bind g, hblames⟩

/-- The value is put to use. -/
theorem Heeds.map {k : α → β} (h : Heeds E p q C x y) :
    Heeds E p q C (do return k (← x)) (do return k (← y)) := h.bind fun a => heeds_pure (k a)

/-- Nothing is known of the pace in a repetition. -/
theorem heeds_iterate {body body' : α → Parser (α ⊕ β)}
    (h : ∀ a, Heeds E .ahead .ahead AnyStream (body a) (body' a)) :
    ∀ {n m : Nat}, n ≤ m → ∀ a : α,
      Heeds E .ahead .ahead AnyStream (Action.iterate body n a) (Action.iterate body' m a)
  | 0, _, _, _ => heeds_unfinished
  | n + 1, m + 1, hle, a => by
      rw [Action.iterate_succ, Action.iterate_succ]
      refine (h a).bind fun result => ?_
      cases result with
      | inl a' => exact heeds_iterate h (Nat.le_of_succ_le_succ hle) a'
      | inr b => exact heeds_pure b

end Steps

/-! ## Tokens -/

section Tokens

variable {p q r : Pace} {C C' : TokenStream → Prop} {x : Parser Token} {f g : Token → Parser β}

/-- What comes after a glance at a token does not depend on which one of the tokens that are alike
it is. Only where it does not fit, the error names it. -/
def Proceeds (E : Token → Token → Prop) (p q : Pace) (C : TokenStream → Prop) (token : Token)
    (x : Parser β) (g : Token → Parser β) : Prop :=
  ((∀ token', E token token' → g token' = g token) ∧ Heeds E p q C x (g token)) ∨
    ∃ message, x = Action.fail (.ofToken token message) ∧
      ∀ token', E token token' → g token' = Action.fail (.ofToken token' message)

/-- A glance is what a parser for a token does. -/
structure Glances (x : Parser Token) (glance : Token → Glance) : Prop where
  step_iff : ∀ {token s t}, (glance token).Step s t ↔ x.Gives s token t
  exists_like : ∀ {E token glance'}, Glance.Like E (glance token) glance' →
    ∃ token', glance' = glance token' ∧ E token token'
  blame : ∀ token message, (glance token).blame message = .ofToken token message
  stops_iff : ∀ {s t e}, x.Stops s e t ↔ ∃ cause, (fill 0).Stops s cause t ∧ e = .read cause

/-- A peek is a glance at a token that stays. -/
theorem glances_peek : Glances (peek 0) .saw where
  step_iff := ⟨fun h => by cases h with | saw hg => exact hg, .saw⟩
  exists_like h := by
    cases h with
    | saw hlike => exact ⟨_, rfl, hlike⟩
  blame _ _ := rfl
  stops_iff := stops_peek_iff

/-- Taking a token is a glance at it that uses it up. -/
theorem glances_next : Glances next .took where
  step_iff := ⟨fun h => by cases h with | took hg => exact hg, .took⟩
  exists_like h := by
    cases h with
    | took hlike => exact ⟨_, rfl, hlike⟩
  blame _ _ := rfl
  stops_iff := stops_next_iff

/-- A glance at a token, and what comes after it. -/
theorem Glances.heeds_bind {glance : Token → Glance} (hx : Glances x glance)
    (h : ∀ s token t, C s → x.Gives s token t →
      ∃ C', C' t ∧ Proceeds E ((glance token).pace p) q C' token (f token) g) :
    Heeds E p q C (x >>= f) (x >>= g) := by
  intro s hs
  rw [Action.ensures_bind]
  refine (Action.ensures_self x s).mono ?_ ?_
  · intro token t hg
    have hstep := hx.step_iff.2 hg
    obtain ⟨C', ht, ⟨hy, hheeds⟩ | ⟨message, hfail, hfail'⟩⟩ := h s token t hs hg
    · refine (hheeds t ht).mono ?_ ?_
      · intro b u ⟨glances, hreplies, hpace, hother⟩
        refine ⟨glance token :: glances, .cons hstep hreplies, hpace, ?_⟩
        intro s' all u' hlikes hall
        cases hlikes with
        | cons hlike hrest =>
            cases hall with
            | cons hstep' hreplies' =>
                obtain ⟨token', rfl, he⟩ := hx.exists_like hlike
                refine (hx.step_iff.1 hstep').bind ?_
                rw [hy token' he]
                exact hother _ _ u' hrest hreplies'
      · intro e u ⟨glances, hreplies, hother⟩
        refine ⟨glance token :: glances, .cons hstep hreplies, ?_⟩
        intro s' all u' hlikes hall
        cases hlikes with
        | cons hlike hrest =>
            cases hall with
            | cons hstep' hreplies' =>
                obtain ⟨token', rfl, he⟩ := hx.exists_like hlike
                obtain ⟨e', hstops, hblames⟩ := hother _ _ u' hrest hreplies'
                rw [← hy token' he] at hstops
                exact ⟨e', (hx.step_iff.1 hstep').bind_stops hstops,
                  hblames.prepend [glance token] [glance token']⟩
    · rw [hfail, Action.ensures_fail]
      refine ⟨[glance token], replies_one hstep, ?_⟩
      intro s' all t' hlikes hall
      obtain ⟨glance', hlike, rfl⟩ := exists_of_likes_one hlikes
      obtain ⟨token', rfl, he⟩ := hx.exists_like hlike
      refine ⟨.ofToken token' message, (hx.step_iff.1 (replies_one_iff.1 hall)).bind_stops ?_, ?_⟩
      · rw [hfail' token' he]
        exact ⟨[], rfl⟩
      · rw [← hx.blame token, ← hx.blame token']
        exact .last [] [] _ _ message
  · intro e t hstops
    obtain ⟨cause, hfill, rfl⟩ := hx.stops_iff.1 hstops
    refine ⟨[.missed cause], replies_one (.missed hfill), ?_⟩
    intro s' all t' hlikes hall
    obtain ⟨glance', hlike, rfl⟩ := exists_of_likes_one hlikes
    cases hlike
    cases replies_one_iff.1 hall with
    | missed hfill' =>
        exact ⟨.read cause, (hx.stops_iff.2 ⟨cause, hfill', rfl⟩).bind g,
          .last [] [] (.missed cause) (.missed cause) ""⟩

/-- After a peek, what follows has to heed its glances for each token that may have been seen. -/
theorem heeds_peek_bind
    (h : ∀ token, Proceeds E p.look q (Facing token) token (f token) g) :
    Heeds E p q C (peek 0 >>= f) (peek 0 >>= g) :=
  glances_peek.heeds_bind fun _ token _ _ hg => ⟨Facing token, facing_of_peek hg, h token⟩

/-- After a token is taken, what follows begins at the pace of that token. -/
theorem heeds_next_bind
    (h : ∀ token, Proceeds E (.taken token) q AnyStream token (f token) g) :
    Heeds E p q C (next >>= f) (next >>= g) :=
  glances_next.heeds_bind fun _ token _ _ _ => ⟨AnyStream, trivial, h token⟩

/-- A token is tested, and it does not fit if it fails the test. -/
theorem proceeds_ite {test : Token → Bool} {k : Token → Parser β} {message : String} {token : Token}
    (htest : ∀ token', E token token' → test token' = test token)
    (hk : test token = true →
      (∀ token', E token token' → k token' = k token) ∧ Heeds E p q C (k token) (k token)) :
    Proceeds E p q C token
      (if test token then k token else Action.fail (.ofToken token message))
      fun token => if test token then k token else Action.fail (.ofToken token message) := by
  cases hyes : test token with
  | true =>
      obtain ⟨hsame, hheeds⟩ := hk hyes
      refine .inl ⟨fun token' he => ?_, ?_⟩
      · simp only [htest token' he, hyes, if_true, hsame token' he]
      · simpa [hyes] using hheeds
  | false =>
      refine .inr ⟨message, rfl, fun token' he => ?_⟩
      simp [htest token' he, hyes]

end Tokens

/-! ## What a grammar overlooks -/

/-- The element does not tell apart tokens that are alike, and where it keeps one there is no other
one like it. -/
def Element.Overlooks (grammar : Grammar) (E : Token → Token → Prop) : Element → Prop
  | .token wanted _ => ∀ token token', E token token' →
      grammar.accepts wanted token' = grammar.accepts wanted token ∧
        (grammar.accepts wanted token = true → token' = token)
  | .literal texts keep => ∀ token token', E token token' →
      isLiteral texts token' = isLiteral texts token ∧
        (keep = true → isLiteral texts token = true → token' = token)
  | .ahead texts => ∀ token token', E token token' →
      isLiteral texts token' = isLiteral texts token
  | .expression _ operators _ => ∀ token token', E token token' →
      operators.ofToken? token' = operators.ofToken? token ∧
        (operators.ofToken? token ≠ none → token' = token)
  | _ => True

/-- No element of the grammar tells apart tokens that are alike. -/
def Overlooks (grammar : Grammar) (E : Token → Token → Prop) : Prop :=
  ∀ id, ∀ element ∈ (grammar.rule id).elements, element.Overlooks grammar E

/-- No element tells apart a token from itself. -/
theorem overlooks_eq (grammar : Grammar) : grammar.Overlooks Eq := by
  intro id element _
  cases element with
  | tree | choice | repeated | orEmpty => trivial
  | token wanted kind =>
      rintro token _ rfl
      exact ⟨rfl, fun _ => rfl⟩
  | literal texts keep =>
      rintro token _ rfl
      exact ⟨rfl, fun _ _ => rfl⟩
  | ahead texts =>
      rintro token _ rfl
      rfl
  | expression factor operators kind =>
      rintro token _ rfl
      exact ⟨rfl, fun _ => rfl⟩

/-! ## Whether a rule could start -/

section Parsers

variable {grammar : Grammar} {p : Pace}

/-- What follows a choice depends on the rule that is found. -/
theorem heeds_firstOf_bind {question : RuleId → Parser Bool}
    (h : ∀ p rule, Heeds E p p.look AnyStream (question rule) (question rule)) {q : Pace}
    {f g : Option RuleId → Parser β} {rules : List RuleId}
    (hsome : ∀ rule ∈ rules, Heeds E p.look q AnyStream (f (some rule)) (g (some rule)))
    (hnone : Heeds E p.look q AnyStream (f none) (g none)) :
    Heeds E p q AnyStream (firstOf question rules >>= f) (firstOf question rules >>= g) := by
  induction rules generalizing p with
  | nil => exact hnone.weaken p.le_look (le_refl q)
  | cons rule rules ih =>
      rw [firstOf, bind_assoc, bind_assoc]
      refine (h p rule).bind fun yes => ?_
      cases yes with
      | true => exact hsome rule List.mem_cons_self
      | false =>
          rw [← p.look_look] at hsome hnone
          exact ih (fun other hmem => hsome other (List.mem_cons_of_mem _ hmem)) hnone

/-- A question about the next token has one answer for tokens that are alike. -/
theorem heeds_question {question : Token → Bool}
    (h : ∀ token token', E token token' → question token' = question token) :
    Heeds E p p.look AnyStream (return question (← peek 0)) (return question (← peek 0)) :=
  heeds_peek_bind fun token =>
    .inl ⟨fun token' he => congrArg pure (h token token' he), heeds_pure _⟩

/-- Whether an element could start takes one look, for itself or by a rule that it asks. -/
theorem heeds_elementStarts {starts : RuleId → Parser Bool} {element : Element}
    (hover : element.Overlooks grammar E)
    (h : ∀ p rule, Heeds E p p.look AnyStream (starts rule) (starts rule)) :
    Heeds E p p.look AnyStream (grammar.elementStarts starts element)
      (grammar.elementStarts starts element) := by
  cases element with
  | tree rule => exact h p rule
  | repeated rule times => exact h p rule
  | expression factor operators kind => exact h p factor
  | choice rules =>
      exact heeds_firstOf_bind h (fun rule _ => heeds_pure (some rule).isSome)
        (heeds_pure (none : Option RuleId).isSome)
  | orEmpty rule => exact (heeds_pure true).weaken (le_refl p) p.le_look
  | token wanted kind => exact heeds_question fun token token' he => (hover token token' he).1
  | literal texts keep => exact heeds_question fun token token' he => (hover token token' he).1
  | ahead texts => exact heeds_question hover

section Overlooking

variable (hover : grammar.Overlooks E)
include hover

/-- Whether a rule could start takes one look. The induction is on the steps. -/
theorem heeds_startsWithin (n : Nat) (p : Pace) (rule : RuleId) :
    Heeds E p p.look AnyStream (grammar.startsWithin n rule) (grammar.startsWithin n rule) := by
  induction n generalizing p rule with
  | zero => exact heeds_unfinished
  | succ n ih =>
      rw [startsWithin]
      split
      · exact (heeds_pure true).weaken (le_refl p) p.le_look
      · next element elements helements =>
          refine heeds_elementStarts (hover rule element ?_) ih
          rw [helements]
          exact List.mem_cons_self

theorem heeds_starts (p : Pace) (rule : RuleId) :
    Heeds E p p.look AnyStream (grammar.starts rule) (grammar.starts rule) :=
  heeds_startsWithin hover _ p rule

end Overlooking

/-! ## Expressions -/

section Expressions

variable {operators : Operators} {kind : Tree.Kind} {operand operand' : Parser Tree}

/-- The token that is taken next is an operator. -/
def FacingOperator (operators : Operators) (s : TokenStream) : Prop :=
  ∀ taken t, next.Gives s taken t → operators.ofToken? taken ≠ none

/-- An operator that was seen is taken next. -/
theorem Facing.operator {token : Token} {s : TokenStream} (h : Facing token s)
    (hop : operators.ofToken? token ≠ none) : FacingOperator operators s := by
  intro taken t hg
  rcases h taken t hg with rfl | hend
  · exact hop
  · obtain ⟨line, rfl⟩ := eq_endOfFile hend
    exact absurd rfl hop

variable (hover : ∀ token token', E token token' →
  operators.ofToken? token' = operators.ofToken? token ∧
    (operators.ofToken? token ≠ none → token' = token))
include hover

/-- An operator is taken only where one was seen. -/
theorem heeds_foldOperator {takes : Precedence → Bool} {shift shift' : Tree → Nat → Parser Tree}
    (h : ∀ left value, Heeds E .ahead .ahead (FacingOperator operators) (shift left value)
      (shift' left value)) (operand : Tree) :
    Heeds E .ahead .ahead AnyStream (foldOperator operators takes shift operand)
      (foldOperator operators takes shift' operand) := by
  unfold foldOperator nextOperator
  rw [bind_assoc, bind_assoc]
  refine heeds_peek_bind fun token => .inl ⟨fun token' he => ?_, ?_⟩
  · simp only [pure_bind, (hover token token' he).1]
  · simp only [pure_bind]
    cases hop : operators.ofToken? token with
    | none => exact heeds_pure _
    | some precedence =>
        dsimp only
        split
        · exact ((h operand precedence.value).mono (le_refl _) (le_refl _)
            fun _ hs => hs.operator (by simp [hop])).map
        · exact heeds_pure _

variable (h : Heeds E .ahead .ahead AnyStream operand operand')
include h

/-- The operator is taken and the operand after it is parsed, until an operator comes that binds
looser. The induction is on the first budget. -/
theorem heeds_shift : ∀ {n m : Nat}, n ≤ m → ∀ (left : Tree) (value : Nat),
    Heeds E .ahead .ahead (FacingOperator operators) (shift operand operators kind n left value)
      (shift operand' operators kind m left value)
  | 0, _, _, _, _ => heeds_unfinished
  | n + 1, m + 1, hle, left, value => by
      have hle : n ≤ m := Nat.le_of_succ_le_succ hle
      rw [shift, shift]
      refine glances_next.heeds_bind fun s token t hs hg =>
        ⟨AnyStream, trivial, .inl ⟨fun token' he => ?_, ?_⟩⟩
      · rw [(hover token token' he).2 (hs token t hg)]
      · refine Heeds.weaken (p := .ahead) ?_ (Pace.le_ahead _) (le_refl _)
        refine (heeds_shape _).bind fun operator => h.bind fun right => ?_
        refine (heeds_iterate (fun tree => ?_) hle right).bind fun right => heeds_shape _
        exact heeds_foldOperator hover (heeds_shift hle) tree

/-- An expression ends after a look for the next operator. -/
theorem heeds_expression {n m : Nat} (hle : n ≤ m) :
    Heeds E .ahead .ahead AnyStream (expression operand operators kind n)
      (expression operand' operators kind m) := by
  unfold expression
  refine h.bind fun left => heeds_iterate (fun tree => ?_) hle left
  exact heeds_foldOperator hover (heeds_shift hover h hle) tree

end Expressions

/-! ## Elements and rules -/

/-- The pace at which an element ends, given this for rules and the pace at which the element
begins. -/
def Element.pace (after : RuleId → Pace) (p : Pace) : Element → Pace
  | .tree rule => after rule
  | .choice rules => (rules.map after).foldr max .within
  | .repeated _ .any => .ahead
  | .repeated rule .atMostOnce => max p.look (after rule)
  | .orEmpty rule => max p.look (after rule)
  | .token _ _ => .within
  | .literal texts _ => if texts.contains Token.endOfLineText then .atEnd else .within
  | .ahead _ => p.look
  | .expression _ _ _ => .ahead

/-- The rules end at these paces or nearer to the last token, wherever they begin. -/
def KeepsPace (grammar : Grammar) (after : RuleId → Pace) : Prop :=
  ∀ id, (grammar.rule id).elements.foldl (Element.pace after) .ahead ≤ after id

theorem le_foldr_max {after : RuleId → Pace} {rules : List RuleId} {rule : RuleId}
    (h : rule ∈ rules) : after rule ≤ (rules.map after).foldr max .within := by
  induction rules with
  | nil => cases h
  | cons first rules ih =>
      rw [List.map_cons, List.foldr_cons]
      rcases List.mem_cons.1 h with rfl | h
      · exact le_max_left _ _
      · exact (ih h).trans (le_max_right _ _)

theorem taken_of_accepts {wanted : TokenClass} {token : Token}
    (h : grammar.accepts wanted token = true) : Pace.taken token = .within := by
  have hline : token.isEndOfLine = false := isEndOfLine_of_accepts h
  cases hend : token.isEndOfFile with
  | true =>
      obtain ⟨line, rfl⟩ := eq_endOfFile hend
      simp at h
  | false => simp [Pace.taken, hline, hend]

/-- Only a text that ends a line takes a parser to the end of one. -/
theorem taken_le_of_isLiteral {texts : List String} {token : Token}
    (h : isLiteral texts token = true) :
    Pace.taken token ≤ if texts.contains Token.endOfLineText then .atEnd else .within := by
  cases hend : token.isEndOfFile with
  | true =>
      obtain ⟨line, rfl⟩ := eq_endOfFile hend
      cases h
  | false =>
      by_cases hmem : texts.contains Token.endOfLineText = true
      · rw [if_pos hmem]
        exact Pace.taken_le_atEnd hend
      · have hline := isEndOfLine_of_isLiteral h (by simpa using hmem)
        simp [Pace.taken, hend, hline, Pace.within_le]

section Rules

variable {after : RuleId → Pace} {parse parse' : RuleId → Parser Tree}
  (h : ∀ rule, Heeds E .ahead (after rule) AnyStream (parse rule) (parse' rule))
include h

/-- A rule that is known to come. -/
theorem heeds_rule {p q : Pace} {rule : RuleId} (hq : after rule ≤ q) {k : Tree → List Tree} :
    Heeds E p q AnyStream (do return k (← parse rule)) (do return k (← parse' rule)) :=
  ((h rule).weaken p.le_ahead hq).map

variable (hover : grammar.Overlooks E)
include hover

/-- One turn of a repetition looks whether there is another one. -/
theorem heeds_repeatOnce (rule : RuleId) (found : List Tree) :
    Heeds E .ahead .ahead AnyStream (grammar.repeatOnce parse rule found)
      (grammar.repeatOnce parse' rule found) := by
  unfold repeatOnce
  refine (heeds_starts hover .ahead rule).bind fun yes => ?_
  cases yes with
  | true => exact ((h rule).weaken (le_refl _) (Pace.le_ahead _)).map
  | false => exact heeds_pure _

/-- Each element heeds its glances at the pace that `Element.pace` tells. -/
theorem heeds_parseElement {n m : Nat} (hle : n ≤ m) (p : Pace) {element : Element}
    (helement : element.Overlooks grammar E) :
    Heeds E p (element.pace after p) AnyStream (grammar.parseElement parse n element)
      (grammar.parseElement parse' m element) := by
  cases element with
  | tree rule => exact heeds_rule h (le_refl _)
  | choice rules =>
      exact heeds_firstOf_bind (heeds_starts hover)
        (fun rule hmem => heeds_rule h (le_foldr_max hmem))
        (heeds_peek_bind fun token => .inr ⟨_, rfl, fun _ _ => rfl⟩)
  | repeated rule times =>
      cases times with
      | any =>
          exact (heeds_iterate (heeds_repeatOnce h hover rule) hle []).weaken p.le_ahead (le_refl _)
      | atMostOnce =>
          refine (heeds_starts hover p rule).bind fun yes => ?_
          cases yes with
          | true => exact heeds_rule h (le_max_right _ _)
          | false => exact (heeds_pure _).weaken (le_refl _) (le_max_left _ _)
  | orEmpty rule =>
      refine (heeds_starts hover p rule).bind fun yes => ?_
      cases yes with
      | true => exact heeds_rule h (le_max_right _ _)
      | false => exact (heeds_shape _).map.weaken (le_refl _) (le_max_left _ _)
  | token wanted kind =>
      refine heeds_next_bind fun token => ?_
      refine proceeds_ite (fun token' he => (helement token token' he).1) fun haccepts => ⟨?_, ?_⟩
      · intro token' he
        rw [(helement token token' he).2 haccepts]
      · exact (heeds_shape _).map.weaken (taken_of_accepts haccepts).le (le_refl _)
  | literal texts keep =>
      refine heeds_next_bind fun token => ?_
      refine proceeds_ite (fun token' he => (helement token token' he).1) fun his => ?_
      have hpace := taken_le_of_isLiteral his
      cases keep with
      | true =>
          refine ⟨fun token' he => by rw [(helement token token' he).2 rfl his], ?_⟩
          exact (heeds_shape _).map.weaken hpace (le_refl _)
      | false => exact ⟨fun _ _ => rfl, (heeds_pure []).weaken hpace (le_refl _)⟩
  | ahead texts =>
      refine heeds_peek_bind fun token => ?_
      exact proceeds_ite (fun token' he => helement token token' he) fun _ =>
        ⟨fun _ _ => rfl, heeds_pure []⟩
  | expression factor operators kind =>
      have hfactor := (h factor).weaken (le_refl _) (Pace.le_ahead _)
      exact (heeds_expression helement hfactor hle).map.weaken p.le_ahead (le_refl _)

/-- The paces of elements add up from the first one to the last. -/
theorem heeds_parseElements {n m : Nat} (hle : n ≤ m) (p : Pace) (elements : List Element)
    (helements : ∀ element ∈ elements, element.Overlooks grammar E) :
    Heeds E p (elements.foldl (Element.pace after) p) AnyStream
      (grammar.parseElements parse n elements) (grammar.parseElements parse' m elements) := by
  induction elements generalizing p with
  | nil => exact heeds_pure []
  | cons element elements ih =>
      rw [parseElements, parseElements]
      have hfirst := helements element List.mem_cons_self
      refine (heeds_parseElement h hover hle p hfirst).bind fun trees => ?_
      exact (ih _ fun other hmem => helements other (List.mem_cons_of_mem _ hmem)).map

/-- If the rules in it keep their paces, a rule ends at the pace of its elements. -/
theorem heeds_parseRule {n m : Nat} (hle : n ≤ m) (p : Pace) (rule : Rule)
    (helements : ∀ element ∈ rule.elements, element.Overlooks grammar E) :
    Heeds E p (rule.elements.foldl (Element.pace after) p) AnyStream
      (grammar.parseRule parse n rule) (grammar.parseRule parse' m rule) := by
  unfold parseRule
  refine (heeds_tell _).bind fun _ => ?_
  exact (heeds_parseElements h hover hle p rule.elements helements).bind fun trees => heeds_shape _

end Rules

/-- The pace at which nothing is known. -/
theorem keepsPace_ahead (grammar : Grammar) : grammar.KeepsPace fun _ => .ahead :=
  fun _ => Pace.le_ahead _

section KeepsPace

variable {after : RuleId → Pace} (hpace : grammar.KeepsPace after) (hover : grammar.Overlooks E)
include hpace hover

/-- Rules heed their glances, and a larger budget makes no difference. The induction is on the
smaller budget. -/
theorem heeds_parseWithin : ∀ {n m : Nat}, n ≤ m → ∀ rule : RuleId,
    Heeds E .ahead (after rule) AnyStream (grammar.parseWithin n rule) (grammar.parseWithin m rule)
  | 0, _, _, _ => heeds_unfinished
  | n + 1, m + 1, hle, rule => by
      have hle : n ≤ m := Nat.le_of_succ_le_succ hle
      have hrule := heeds_parseRule (heeds_parseWithin hle) hover hle .ahead (grammar.rule rule)
        (hover rule)
      exact hrule.weaken (le_refl _) (hpace rule)

end KeepsPace

section Budgets

variable {rule : RuleId} {n m : Nat} {s t : TokenStream} {tree : Tree} {e : ParseError}

/-- Within a larger budget the same happens, and the stream that is left is the same. -/
theorem gives_parseWithin_of_le (hle : n ≤ m) (h : (grammar.parseWithin n rule).Gives s tree t) :
    (grammar.parseWithin m rule).Gives s tree t := by
  have hheeds := heeds_parseWithin grammar.keepsPace_ahead grammar.overlooks_eq hle rule s trivial
  obtain ⟨glances, hreplies, -, hother⟩ := hheeds.of_gives h
  exact hother s glances t (likes_self glances) hreplies

/-- An error within a budget is met within a larger one. -/
theorem stops_parseWithin_of_le (hle : n ≤ m) (h : (grammar.parseWithin n rule).Stops s e t) :
    (grammar.parseWithin m rule).Stops s e t := by
  have hheeds := heeds_parseWithin grammar.keepsPace_ahead grammar.overlooks_eq hle rule s trivial
  obtain ⟨glances, hreplies, hother⟩ := hheeds.of_stops h
  obtain ⟨e', hstops, hblames⟩ := hother s glances t (likes_self glances) hreplies
  rwa [hblames.error_eq rfl]

/-- What happens within some budget happens within the budget of the stream. -/
theorem gives_parse_of_within (h : (grammar.parseWithin n rule).Gives s tree t) :
    (grammar.parse rule).Gives s tree t := by
  have hlarge := gives_parseWithin_of_le (Nat.le_add_right n (grammar.budget s)) h
  have hle : grammar.budget s ≤ n + grammar.budget s := Nat.le_add_left _ _
  rcases (ends_parse_of_parseWithin h.ends).gives_or_stops with ⟨found, u, hg⟩ | ⟨error, u, hstops⟩
  · obtain ⟨rfl, rfl⟩ := hlarge.unique (gives_parseWithin_of_le hle hg)
    exact hg
  · exact absurd (stops_parseWithin_of_le hle hstops) hlarge.not_stops

/-- An error within any budget is the error of the rule. -/
theorem stops_parse_of_within (h : (grammar.parseWithin n rule).Stops s e t) :
    (grammar.parse rule).Stops s e t := by
  have hlarge := stops_parseWithin_of_le (Nat.le_add_right n (grammar.budget s)) h
  have hle : grammar.budget s ≤ n + grammar.budget s := Nat.le_add_left _ _
  rcases (ends_parse_of_parseWithin h.ends).gives_or_stops with ⟨found, u, hg⟩ | ⟨error, u, hstops⟩
  · exact absurd hlarge (gives_parseWithin_of_le hle hg).not_stops
  · obtain ⟨rfl, rfl⟩ := hlarge.unique (stops_parseWithin_of_le hle hstops)
    exact hstops

end Budgets

/-- Parsing heeds its glances, and a rule ends at its pace. What is parsed within the budget of the
first stream is parsed within that of the second one. -/
theorem heeds_parse {after : RuleId → Pace} (hpace : grammar.KeepsPace after)
    (hover : grammar.Overlooks E) (rule : RuleId) :
    Heeds E .ahead (after rule) AnyStream (grammar.parse rule) (grammar.parse rule) := by
  intro s _
  refine Action.Ensures.mono
    (heeds_parseWithin hpace hover (Nat.le_refl (grammar.budget s)) rule s trivial) ?_ ?_
  · intro tree t ⟨glances, hreplies, hpace, hother⟩
    refine ⟨glances, hreplies, hpace, fun s' glances' t' hlikes hreplies' => ?_⟩
    exact gives_parse_of_within (hother s' glances' t' hlikes hreplies')
  · intro e t ⟨glances, hreplies, hother⟩
    refine ⟨glances, hreplies, fun s' glances' t' hlikes hreplies' => ?_⟩
    obtain ⟨e', hstops, hblames⟩ := hother s' glances' t' hlikes hreplies'
    exact ⟨e', stops_parse_of_within hstops, hblames⟩

end Parsers

end Grammar

end TreeScript
