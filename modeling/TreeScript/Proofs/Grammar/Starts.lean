import TreeScript.Proofs.TokenStream

/-!
# The next token

A parser asks three things of the next token: whether it belongs to a class, whether it is
one of several texts, and whether it is an operator. The end of the source is none of these.
`front` is the next token of a list of tokens, and what is asked of it is what is asked of
the token that a parser sees (`Sees`).

Whether a rule could start is a question about the next token alone: `startsAt` is its
answer, and `ensures_starts` says that `starts` gives that answer.
-/

namespace TreeScript

namespace Grammar

open TokenStream

/-! ## The next token -/

/-- The next token, or the end of the source. -/
def front (tokens : List Token) : Token := tokens.headD ⟨.endOfFile, 0⟩

@[simp] theorem front_nil : front [] = ⟨.endOfFile, 0⟩ := rfl

@[simp] theorem front_cons (token : Token) (tokens : List Token) :
    front (token :: tokens) = token := rfl

@[simp] theorem accepts_endOfFile (grammar : Grammar) (wanted : TokenClass) (line : Nat) :
    grammar.accepts wanted ⟨.endOfFile, line⟩ = false := by
  cases wanted with
  | number => rfl
  | string => rfl
  | name => rfl

@[simp] theorem isLiteral_endOfFile (texts : List String) (line : Nat) :
    isLiteral texts ⟨.endOfFile, line⟩ = false := rfl

@[simp] theorem ofToken?_endOfFile (operators : Operators) (line : Nat) :
    operators.ofToken? ⟨.endOfFile, line⟩ = none := rfl

variable {tokens : List Token} {token : Token}

theorem accepts_of_sees (h : Sees tokens token) (grammar : Grammar) (wanted : TokenClass) :
    grammar.accepts wanted token = grammar.accepts wanted (front tokens) := by
  rcases h with ⟨rest, rfl⟩ | ⟨rfl, line, rfl⟩
  · rfl
  · simp

theorem isLiteral_of_sees (h : Sees tokens token) (texts : List String) :
    isLiteral texts token = isLiteral texts (front tokens) := by
  rcases h with ⟨rest, rfl⟩ | ⟨rfl, line, rfl⟩
  · rfl
  · simp

theorem ofToken?_of_sees (h : Sees tokens token) (operators : Operators) :
    operators.ofToken? token = operators.ofToken? (front tokens) := by
  rcases h with ⟨rest, rfl⟩ | ⟨rfl, line, rfl⟩
  · rfl
  · simp

theorem ofToken_of_sees (h : Sees tokens token) (message : String) :
    ParseError.ofToken token message = .ofToken (front tokens) message := by
  rcases h with ⟨rest, rfl⟩ | ⟨rfl, line, rfl⟩
  · rfl
  · rfl

/-- A token that is accepted is not the end of the source, so it is there. -/
theorem eq_cons_of_sees_accepts (h : Sees tokens token) {grammar : Grammar} {wanted : TokenClass}
    (ha : grammar.accepts wanted token = true) : tokens = token :: tokens.tail := by
  rcases h with ⟨rest, rfl⟩ | ⟨rfl, line, rfl⟩
  · rfl
  · simp at ha

/-- A token with a text is not the end of the source, so it is there. -/
theorem eq_cons_of_sees_isLiteral (h : Sees tokens token) {texts : List String}
    (ha : isLiteral texts token = true) : tokens = token :: tokens.tail := by
  rcases h with ⟨rest, rfl⟩ | ⟨rfl, line, rfl⟩
  · rfl
  · simp at ha

theorem eq_cons_of_ofToken? {operators : Operators} {precedence : Precedence}
    (h : operators.ofToken? (front tokens) = some precedence) :
    ∃ operator rest, tokens = operator :: rest ∧ operators.ofToken? operator = some precedence := by
  cases tokens with
  | nil => simp at h
  | cons operator rest => exact ⟨operator, rest, rfl, h⟩

/-! ## Tokens that end no line -/

/-- The end of a line is no name, no number and no string. -/
theorem isEndOfLine_of_accepts {grammar : Grammar} {wanted : TokenClass}
    (h : grammar.accepts wanted token = true) : token.isEndOfLine = false := by
  obtain ⟨kind, line⟩ := token
  cases kind with
  | endOfLine =>
      cases wanted with
      | number => cases h
      | string => cases h
      | name => cases h
  | word text => rfl
  | number value => rfl
  | string value => rfl
  | endOfFile => rfl

theorem isEndOfLine_of_isLiteral {texts : List String} (h : isLiteral texts token = true)
    (ht : Token.endOfLineText ∉ texts) : token.isEndOfLine = false := by
  obtain ⟨kind, line⟩ := token
  cases kind with
  | endOfLine =>
      simp only [isLiteral, Bool.and_eq_true, List.contains_iff_mem] at h
      exact absurd h.2 ht
  | word text => rfl
  | number value => rfl
  | string value => rfl
  | endOfFile => rfl

/-- The end of a line is no operator. -/
theorem isEndOfLine_of_ofToken? {operators : Operators} {precedence : Precedence}
    (h : operators.ofToken? token = some precedence) : token.isEndOfLine = false := by
  obtain ⟨kind, line⟩ := token
  cases kind with
  | endOfLine => cases h
  | word text => rfl
  | number value => rfl
  | string value => rfl
  | endOfFile => rfl

/-! ## Whether a rule could start -/

/-- The first of several rules for which the answer is yes, if all answers before it are
known. -/
def firstAt (answer : RuleId → Option Bool) : List RuleId → Option (Option RuleId)
  | [] => some none
  | id :: ids =>
      match answer id with
      | none => none
      | some true => some (some id)
      | some false => firstAt answer ids
termination_by structural ids => ids

/-- A rule that is chosen is one of the rules. -/
theorem mem_of_firstAt {answer : RuleId → Option Bool} {rules : List RuleId} {rule : RuleId}
    (h : firstAt answer rules = some (some rule)) : rule ∈ rules := by
  induction rules with
  | nil => simp [firstAt] at h
  | cons first rules ih =>
      simp only [firstAt] at h
      split at h
      · cases h
      · cases h
        exact List.mem_cons_self
      · exact List.mem_cons_of_mem _ (ih h)

/-- A rule that is chosen could start. -/
theorem answer_of_firstAt {answer : RuleId → Option Bool} {rules : List RuleId} {rule : RuleId}
    (h : firstAt answer rules = some (some rule)) : answer rule = some true := by
  induction rules with
  | nil => cases h
  | cons first rules ih =>
      rw [firstAt] at h
      split at h
      · cases h
      · rename_i hanswer
        cases h
        exact hanswer
      · exact ih h

/-- The first rule with an answer of yes is chosen. -/
theorem firstAt_cons {answer : RuleId → Option Bool} {id : RuleId} {yes : Bool}
    (h : answer id = some yes) (ids : List RuleId) :
    firstAt answer (id :: ids) = if yes then some (some id) else firstAt answer ids := by
  cases yes with
  | true => simp [firstAt, h]
  | false => simp [firstAt, h]

/-- If the rules keep their answers, the same one is first. -/
theorem firstAt_of_forall {answer answer' : RuleId → Option Bool} {ids : List RuleId}
    {first : Option RuleId}
    (h : ∀ id ∈ ids, ∀ yes, answer id = some yes → answer' id = some yes)
    (hf : firstAt answer ids = some first) : firstAt answer' ids = some first := by
  induction ids with
  | nil => exact hf
  | cons id ids ih =>
      cases ha : answer id with
      | none => simp [firstAt, ha] at hf
      | some yes =>
          rw [firstAt_cons ha] at hf
          rw [firstAt_cons (h id List.mem_cons_self yes ha)]
          cases yes with
          | true => exact hf
          | false => exact ih (fun other hmem => h other (List.mem_cons_of_mem _ hmem)) hf

/-- The rules that are asked to know whether an element could start. -/
def Element.asked : Element → List RuleId
  | .tree rule => [rule]
  | .repeated rule _ => [rule]
  | .expression factor _ _ => [factor]
  | .choice rules => rules
  | .orEmpty _ => []
  | .token _ _ => []
  | .literal _ _ => []
  | .ahead _ => []

/-- Whether an element could start at a token, given the answers for rules. -/
def elementStartsAt (grammar : Grammar) (token : Token) (answer : RuleId → Option Bool) :
    Element → Option Bool
  | .tree rule => answer rule
  | .repeated rule _ => answer rule
  | .expression factor _ _ => answer factor
  | .choice rules => (firstAt answer rules).map Option.isSome
  | .orEmpty _ => some true
  | .token wanted _ => some (grammar.accepts wanted token)
  | .literal texts _ => some (isLiteral texts token)
  | .ahead texts => some (isLiteral texts token)

/-- If the rules keep their answers and tokens their classes, an element keeps its answer. -/
theorem elementStartsAt_of_forall {grammar other : Grammar} {token : Token}
    (hclass : ∀ wanted, grammar.accepts wanted token = other.accepts wanted token)
    {answer answer' : RuleId → Option Bool} {element : Element} {yes : Bool}
    (h : ∀ rule ∈ element.asked, ∀ yes, answer rule = some yes → answer' rule = some yes)
    (hs : grammar.elementStartsAt token answer element = some yes) :
    other.elementStartsAt token answer' element = some yes := by
  cases element with
  | tree rule => exact h rule (List.mem_singleton_self rule) yes hs
  | repeated rule times => exact h rule (List.mem_singleton_self rule) yes hs
  | expression factor operators kind => exact h factor (List.mem_singleton_self factor) yes hs
  | choice rules =>
      obtain ⟨first, hf, rfl⟩ := Option.map_eq_some_iff.1 hs
      exact Option.map_eq_some_iff.2 ⟨first, firstAt_of_forall h hf, rfl⟩
  | orEmpty rule => simpa only [elementStartsAt] using hs
  | token wanted kind => simpa only [elementStartsAt, hclass] using hs
  | literal texts keep => simpa only [elementStartsAt] using hs
  | ahead texts => simpa only [elementStartsAt] using hs

/-- Whether a rule could start at a token, within a budget. -/
def startsAtWithin (grammar : Grammar) (token : Token) : Nat → RuleId → Option Bool
  | 0, _ => none
  | n + 1, id =>
      match (grammar.rule id).elements with
      | [] => some true
      | element :: _ => grammar.elementStartsAt token (grammar.startsAtWithin token n) element
termination_by structural n => n

/-- Whether a rule could start at a token. -/
def startsAt (grammar : Grammar) (id : RuleId) (token : Token) : Option Bool :=
  grammar.startsAtWithin token (grammar.rules.size + 1) id

/-- The first of several rules that could start at a token. -/
def chooseAt (grammar : Grammar) (rules : List RuleId) (token : Token) : Option (Option RuleId) :=
  firstAt (grammar.startsAt · token) rules

/-- The next token cannot be read. -/
def Unreadable (tokens : List Token) (tail : List Item) (error : ParseError) : Prop :=
  tokens = [] ∧ ∃ cause rest, tail = .error cause :: rest ∧ error = .read cause

section Starts

variable {stream : TokenStream} {tail : List Item} {grammar : Grammar}

/-- A question that leaves the stream as it is and gives the answer for the next token. -/
def Answers (tokens : List Token) (tail : List Item)
    (question : RuleId → Parser Bool) (answer : RuleId → Option Bool) : Prop :=
  ∀ id stream, stream.Shows tokens tail → (question id).Ensures stream
    (fun yes stream' => stream'.Shows tokens tail ∧ answer id = some yes)
    (fun error _ => Unreadable tokens tail error)

/-- The rules are asked in order, and no answer changes what the stream shows. -/
theorem ensures_firstOf {question : RuleId → Parser Bool} {answer : RuleId → Option Bool}
    (hq : Answers tokens tail question answer) :
    ∀ (ids : List RuleId) (stream : TokenStream), stream.Shows tokens tail →
      (firstOf question ids).Ensures stream
        (fun first stream' => stream'.Shows tokens tail ∧ firstAt answer ids = some first)
        (fun error _ => Unreadable tokens tail error)
  | [], stream, h => by
      rw [firstOf, Action.ensures_pure]
      exact ⟨h, rfl⟩
  | id :: ids, stream, h => by
      rw [firstOf, Action.ensures_bind]
      refine (hq id stream h).mono ?_ (fun _ _ he => he)
      rintro yes stream' ⟨hs, ha⟩
      cases yes with
      | true =>
          simp only [if_true, Action.ensures_pure, firstAt, ha]
          exact ⟨hs, trivial⟩
      | false =>
          simp only [Bool.false_eq_true, if_false, firstAt, ha]
          exact ensures_firstOf hq ids stream' hs

theorem ensures_elementStarts {question : RuleId → Parser Bool} {answer : RuleId → Option Bool}
    (hq : Answers tokens tail question answer) (element : Element)
    (h : stream.Shows tokens tail) :
    (grammar.elementStarts question element).Ensures stream
      (fun yes stream' => stream'.Shows tokens tail ∧
        grammar.elementStartsAt (front tokens) answer element = some yes)
      (fun error _ => Unreadable tokens tail error) := by
  cases element with
  | tree rule => exact hq rule stream h
  | repeated rule times => exact hq rule stream h
  | expression factor operators kind => exact hq factor stream h
  | choice rules =>
      rw [elementStarts, Action.ensures_bind]
      refine (ensures_firstOf hq rules stream h).mono ?_ (fun _ _ he => he)
      rintro first stream' ⟨hs, ha⟩
      rw [Action.ensures_pure, elementStartsAt, ha]
      exact ⟨hs, rfl⟩
  | orEmpty rule =>
      rw [elementStarts, Action.ensures_pure]
      exact ⟨h, rfl⟩
  | token wanted kind =>
      rw [elementStarts, Action.ensures_bind]
      refine ensures_peek h ?_ (fun cause rest _ hn ht => ⟨hn, cause, rest, ht, rfl⟩)
      intro token stream' hsees _ hs
      rw [Action.ensures_pure, accepts_of_sees hsees]
      exact ⟨hs, rfl⟩
  | literal texts keep =>
      rw [elementStarts, Action.ensures_bind]
      refine ensures_peek h ?_ (fun cause rest _ hn ht => ⟨hn, cause, rest, ht, rfl⟩)
      intro token stream' hsees _ hs
      rw [Action.ensures_pure, isLiteral_of_sees hsees]
      exact ⟨hs, rfl⟩
  | ahead texts =>
      rw [elementStarts, Action.ensures_bind]
      refine ensures_peek h ?_ (fun cause rest _ hn ht => ⟨hn, cause, rest, ht, rfl⟩)
      intro token stream' hsees _ hs
      rw [Action.ensures_pure, isLiteral_of_sees hsees]
      exact ⟨hs, rfl⟩

theorem answers_startsWithin : ∀ n : Nat, Answers tokens tail (grammar.startsWithin n)
    (grammar.startsAtWithin (front tokens) n)
  | 0, _, _, _ => trivial
  | n + 1, id, stream, h => by
      rw [startsWithin, startsAtWithin]
      cases (grammar.rule id).elements with
      | nil => exact ⟨h, rfl⟩
      | cons element elements => exact ensures_elementStarts (answers_startsWithin n) element h

/-- Asking whether a rule could start gives the answer for the next token. -/
theorem ensures_starts (id : RuleId) (h : stream.Shows tokens tail) :
    (grammar.starts id).Ensures stream
      (fun yes stream' => stream'.Shows tokens tail ∧ grammar.startsAt id (front tokens) = some yes)
      (fun error _ => Unreadable tokens tail error) :=
  answers_startsWithin (grammar.rules.size + 1) id stream h

theorem ensures_choose (rules : List RuleId) (h : stream.Shows tokens tail) :
    (grammar.choose rules).Ensures stream
      (fun first stream' => stream'.Shows tokens tail ∧
        grammar.chooseAt rules (front tokens) = some first)
      (fun error _ => Unreadable tokens tail error) :=
  ensures_firstOf (fun id _ hs => ensures_starts id hs) rules stream h

/-! ## Asking ends -/

theorem ends_firstOf {question : RuleId → Parser Bool} {answer : RuleId → Option Bool}
    (hq : Answers tokens tail question answer)
    (he : ∀ id stream, stream.Shows tokens tail → answer id ≠ none → (question id).Ends stream) :
    ∀ (ids : List RuleId) (stream : TokenStream), stream.Shows tokens tail →
      firstAt answer ids ≠ none → (firstOf question ids).Ends stream
  | [], _, _, _ => Action.ends_pure _
  | id :: ids, stream, h, hfirst => by
      have hknown : answer id ≠ none := by
        intro hn
        simp [firstAt, hn] at hfirst
      rw [firstOf, Action.ends_bind]
      refine ⟨he id stream h hknown, (hq id stream h).mono ?_ (fun _ _ _ => trivial)⟩
      rintro yes stream' ⟨hs, ha⟩
      cases yes with
      | true => exact Action.ends_pure _
      | false =>
          simp only [firstAt, ha] at hfirst
          exact ends_firstOf hq he ids stream' hs hfirst

theorem ends_elementStarts {question : RuleId → Parser Bool} {answer : RuleId → Option Bool}
    (hq : Answers tokens tail question answer)
    (he : ∀ id stream, stream.Shows tokens tail → answer id ≠ none → (question id).Ends stream)
    (element : Element) (h : stream.Shows tokens tail)
    (hknown : grammar.elementStartsAt (front tokens) answer element ≠ none) :
    (grammar.elementStarts question element).Ends stream := by
  cases element with
  | tree rule => exact he rule stream h hknown
  | repeated rule times => exact he rule stream h hknown
  | expression factor operators kind => exact he factor stream h hknown
  | choice rules =>
      refine (ends_firstOf hq he rules stream h ?_).bind fun _ _ => Action.ends_pure _
      intro hn
      simp [elementStartsAt, hn] at hknown
  | orEmpty rule => exact Action.ends_pure _
  | token wanted kind => exact ends_peek.bind fun _ _ => Action.ends_pure _
  | literal texts keep => exact ends_peek.bind fun _ _ => Action.ends_pure _
  | ahead texts => exact ends_peek.bind fun _ _ => Action.ends_pure _

/-- Whether a rule could start is found out if the grammar knows it. The induction is on the steps.
-/
theorem ends_startsWithin : ∀ (n : Nat) (id : RuleId) (stream : TokenStream),
    stream.Shows tokens tail → grammar.startsAtWithin (front tokens) n id ≠ none →
    (grammar.startsWithin n id).Ends stream
  | 0, _, _, _, hknown => absurd rfl hknown
  | n + 1, id, stream, h, hknown => by
      rw [startsAtWithin] at hknown
      rw [startsWithin]
      cases he : (grammar.rule id).elements with
      | nil => exact Action.ends_pure _
      | cons element elements =>
          rw [he] at hknown
          exact ends_elementStarts (answers_startsWithin n) (ends_startsWithin n) element h hknown

/-- Asking whether a rule could start ends if there is an answer. -/
theorem ends_starts {id : RuleId} (h : stream.Shows tokens tail)
    (hknown : grammar.startsAt id (front tokens) ≠ none) : (grammar.starts id).Ends stream :=
  ends_startsWithin _ id stream h hknown

theorem ends_choose {rules : List RuleId} (h : stream.Shows tokens tail)
    (hknown : grammar.chooseAt rules (front tokens) ≠ none) :
    (grammar.choose rules).Ends stream :=
  ends_firstOf (fun id _ hs => ensures_starts id hs) (fun _ _ hs hk => ends_starts hs hk)
    rules stream h hknown

/-! ## Known answers -/

/-- A parser that only fails where the stream cannot be read gives a value where it can. -/
theorem exists_gives_of_readable {α : Type} {x : Parser α} {a : α} {rest : List Token}
    (hx : x.Ensures stream (fun a' stream' => stream'.Shows rest tail ∧ a' = a)
      fun error _ => Unreadable tokens tail error)
    (hends : x.Ends stream) (htail : tokens = [] → tail = []) :
    ∃ stream', x.Gives stream a stream' ∧ stream'.Shows rest tail := by
  have hensures : x.Ensures stream (fun a' stream' => stream'.Shows rest tail ∧ a' = a)
      fun _ _ => False := by
    refine hx.mono (fun _ _ hs => hs) ?_
    intro error stream' ⟨hn, cause, others, hfault, _⟩
    rw [htail hn] at hfault
    cases hfault
  obtain ⟨_, stream', hg, hs, rfl⟩ := hensures.exists_gives hends
  exact ⟨stream', hg, hs⟩

/-- If the grammar knows whether the rule could start and the next item is readable, the parser
gives that answer. -/
theorem exists_gives_starts_of_shows {id : RuleId} {yes : Bool} (h : stream.Shows tokens tail)
    (htail : tokens = [] → tail = []) (hyes : grammar.startsAt id (front tokens) = some yes) :
    ∃ stream', (grammar.starts id).Gives stream yes stream' ∧ stream'.Shows tokens tail := by
  refine exists_gives_of_readable ((ensures_starts id h).mono ?_ fun _ _ he => he)
    (ends_starts h ?_) htail
  · intro yes' stream' ⟨hs, hyes'⟩
    rw [hyes] at hyes'
    exact ⟨hs, (Option.some.inj hyes').symm⟩
  · rw [hyes]
    exact Option.some_ne_none yes

/-- If the grammar knows which rule to choose and the next item is readable, the parser chooses it.
-/
theorem exists_gives_choose_of_shows {rules : List RuleId} {first : Option RuleId}
    (h : stream.Shows tokens tail) (htail : tokens = [] → tail = [])
    (hfirst : grammar.chooseAt rules (front tokens) = some first) :
    ∃ stream', (grammar.choose rules).Gives stream first stream' ∧ stream'.Shows tokens tail := by
  refine exists_gives_of_readable ((ensures_choose rules h).mono ?_ fun _ _ he => he)
    (ends_choose h ?_) htail
  · intro first' stream' ⟨hs, hfirst'⟩
    rw [hfirst] at hfirst'
    exact ⟨hs, (Option.some.inj hfirst').symm⟩
  · rw [hfirst]
    exact Option.some_ne_none first

end Starts

end Grammar

end TreeScript
