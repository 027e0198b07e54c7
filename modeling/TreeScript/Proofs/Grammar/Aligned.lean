import TreeScript.Proofs.Grammar.Ending
import TreeScript.Proofs.Lines
import TreeScript.Proofs.Simulation

/-!
# Parsers on two streams

A parser sees of a stream what comes next, and of a token what it is and never where it stands. So
if two streams always have the same next, up to lines, a parser does the same on both, and its tree
or its error is relined. `Carries` says this of two parsers: one tie between the items of the
streams holds before them and another one after them.

A tie is `Aligned` if tied items begin alike and stay tied when a token is taken. Taking the end of
a line is the exception: it may lead to a weaker tie. Every step of parsing keeps an aligned tie, up
to single elements (`carries_parseElement`).

At the end of a source the parser gets a token whose line need not be relined. It never becomes a
leaf, because an operator is only taken after it was seen.
-/

namespace TreeScript

namespace Grammar

open TokenStream

variable {f : Nat → Nat} {α β : Type} {P Q R : List Item → List Item → Prop}

/-- On items that `P` ties the second parser does what the first one does, and leaves items that `Q`
ties. `g` is what becomes of a value on other lines. -/
def Carries (f : Nat → Nat) (P Q : List Item → List Item → Prop) (g : α → α) (x y : Parser α) :
    Prop :=
  Action.Simulates (fun s s' => P s.items s'.items)
    (fun a s a' s' => Q s.items s'.items ∧ a' = g a) (fun e _ e' _ => e' = e.relined f) x y

/-! ## Single steps -/

section Steps

variable {g : α → α} {h : β → β} {x y : Parser α} {p q : α → Parser β}

/-- The items may be tied more closely before, and less closely after. -/
theorem Carries.mono {P' Q' : List Item → List Item → Prop} (hx : Carries f P Q g x y)
    (hP : ∀ items items', P' items items' → P items items')
    (hQ : ∀ items items', Q items items' → Q' items items') : Carries f P' Q' g x y :=
  Action.Simulates.mono hx (fun _ _ hp => hP _ _ hp) (fun _ _ _ _ hq => ⟨hQ _ _ hq.1, hq.2⟩)
    fun _ _ _ _ he => he

theorem carries_pure {a a' : α} (hPQ : ∀ items items', P items items' → Q items items')
    (ha : a' = g a) : Carries f P Q g (pure a) (pure a') :=
  Action.simulates_pure fun _ _ hp => ⟨hPQ _ _ hp, ha⟩

/-- The error of the second parser names its line where the first one names its own. -/
theorem carries_fail {e e' : ParseError} (he : e' = e.relined f) :
    Carries f P Q g (Action.fail e) (Action.fail e') := Action.simulates_fail fun _ _ _ => he

theorem carries_unfinished : Carries f P Q g Action.unfinished y := Action.simulates_unfinished

theorem carries_tell (event : Event) : Carries f P P id (Action.tell event) (Action.tell event) :=
  Action.simulates_tell event event fun _ _ hp => ⟨hp, rfl⟩

/-- What follows takes the items as the first part leaves them. -/
theorem Carries.bind (hx : Carries f P Q g x y) (hp : ∀ a, Carries f Q R h (p a) (q (g a))) :
    Carries f P R h (x >>= p) (y >>= q) := by
  refine Action.Simulates.bind hx fun a a' s s' hq => ?_
  obtain ⟨hs, rfl⟩ := hq
  exact hp a s s' hs

/-- A loop carries over if each turn leaves the items tied as it found them. -/
theorem carries_iterate {body body' : α → Parser (α ⊕ α)}
    (hb : ∀ a, Carries f P P (Sum.map g g) (body a) (body' (g a))) {n m : Nat} (hle : n ≤ m)
    (a : α) : Carries f P P g (Action.iterate body n a) (Action.iterate body' m (g a)) := by
  refine (Action.simulates_iterate (fun a s a' s' => P s.items s'.items ∧ a' = g a) ?_ hle a
    (g a)).mono (fun _ _ hp => ⟨hp, rfl⟩) (fun _ _ _ _ hq => hq) fun _ _ _ _ he => he
  rintro a a' s s' ⟨hs, rfl⟩
  refine Action.Simulates.mono (hb a) (fun _ _ hp => hp) ?_ (fun _ _ _ _ he => he) s s' hs
  rintro r t r' t' ⟨ht, rfl⟩
  cases r with
  | inl c => exact .inl ⟨c, g c, rfl, rfl, ht, rfl⟩
  | inr c => exact .inr ⟨c, g c, rfl, rfl, ht, rfl⟩

end Steps

/-! ## Tokens -/

/-- The parser gets the next token, the fault that comes instead of it, or the end, and leaves
`after` of the items. -/
def Looks (x : Parser Token) (after : List Item → List Item) : Prop :=
  ∀ s : TokenStream,
    (∃ token rest t, s.items = .ok token :: rest ∧ x.Gives s token t ∧ t.items = after s.items) ∨
    (∃ cause rest t, s.items = .error cause :: rest ∧ x.Stops s (.read cause) t ∧
      t.items = rest) ∨
    ∃ line t, s.items = [] ∧ x.Gives s ⟨.endOfFile, line⟩ t ∧ t.items = []

/-- A peek leaves the items as they are. -/
theorem looks_peek : Looks (peek 0) id := by
  intro s
  rcases fill_zero s with ⟨hended, hf⟩ | ⟨cause, rest, hi, hf⟩ | ⟨filled, journal, hf, hi, hq⟩
  · have hview : s.queue[0]?.getD s.endOfFile = s.endOfFile := by rw [hended.1]; rfl
    refine .inr (.inr ⟨s.line, s, hended.items_eq, ?_, hended.items_eq⟩)
    exact Action.Gives.mapError (Action.Gives.bind ⟨_, hf⟩ ⟨[], by rw [Action.view, hview]; rfl⟩) _
  · refine .inr (.inl ⟨cause, _, rest, hi, ?_, rfl⟩)
    exact Action.Stops.mapError (Action.Stops.bind ⟨_, hf⟩ _) _
  · obtain ⟨token, queue, hqueue⟩ := List.exists_cons_of_ne_nil hq
    have hview : filled.queue[0]?.getD filled.endOfFile = token := by rw [hqueue]; rfl
    refine .inl ⟨token, queue.map .ok ++ sourceItems filled.line filled.pending, filled, ?_, ?_, hi⟩
    · rw [← hi, items, hqueue]
      rfl
    · exact Action.Gives.mapError (Action.Gives.bind ⟨_, hf⟩ ⟨[], by rw [Action.view, hview]⟩) _

/-- The next token is taken from the items. -/
theorem looks_next : Looks next List.tail := by
  intro s
  rcases fill_zero s with ⟨hended, hf⟩ | ⟨cause, rest, hi, hf⟩ | ⟨filled, journal, hf, hi, hq⟩
  · have hpop : s.pop = (s.endOfFile, s) := by rw [pop, hended.1]
    refine .inr (.inr ⟨s.line, s, hended.items_eq, ?_, hended.items_eq⟩)
    exact Action.Gives.mapError
      (Action.Gives.bind ⟨_, hf⟩ ⟨[], by rw [Action.transition, hpop]; rfl⟩) _
  · refine .inr (.inl ⟨cause, _, rest, hi, ?_, rfl⟩)
    exact Action.Stops.mapError (Action.Stops.bind ⟨_, hf⟩ _) _
  · obtain ⟨token, queue, hqueue⟩ := List.exists_cons_of_ne_nil hq
    have hpop : filled.pop = (token, { filled with queue }) := by rw [pop, hqueue]
    have hitems : s.items = .ok token :: items { filled with queue } := by
      rw [← hi, items, hqueue]
      rfl
    refine .inl ⟨token, _, { filled with queue }, hitems, ?_, by rw [hitems, List.tail_cons]⟩
    exact Action.Gives.mapError
      (Action.Gives.bind ⟨_, hf⟩ ⟨[], by rw [Action.transition, hpop]⟩) _

section Looks

variable {h : β → β} {p q : Token → Parser β} {x : Parser Token} {after : List Item → List Item}

/-- A stream that begins with a token hands it out. -/
theorem Looks.exists_gives (hx : Looks x after) {s : TokenStream} {token : Token}
    {rest : List Item} (hi : s.items = .ok token :: rest) :
    ∃ t, x.Gives s token t ∧ t.items = after s.items := by
  rcases hx s with ⟨_, _, t, hi', hg, ht⟩ | ⟨_, _, _, hi', -⟩ | ⟨_, _, hi', -⟩
  · rw [hi] at hi'
    cases hi'
    exact ⟨t, hg, ht⟩
  · rw [hi] at hi'
    cases hi'
  · rw [hi] at hi'
    cases hi'

/-- A stream that begins with a fault reports it and goes on behind it. -/
theorem Looks.exists_stops (hx : Looks x after) {s : TokenStream} {cause : ReadError}
    {rest : List Item} (hi : s.items = .error cause :: rest) :
    ∃ t, x.Stops s (.read cause) t ∧ t.items = rest := by
  rcases hx s with ⟨_, _, _, hi', -⟩ | ⟨_, _, t, hi', hstops, ht⟩ | ⟨_, _, hi', -⟩
  · rw [hi] at hi'
    cases hi'
  · rw [hi] at hi'
    cases hi'
    exact ⟨t, hstops, ht⟩
  · rw [hi] at hi'
    cases hi'

/-- A stream that has ended hands out the end. -/
theorem Looks.exists_gives_end (hx : Looks x after) {s : TokenStream} (hi : s.items = []) :
    ∃ line t, x.Gives s ⟨.endOfFile, line⟩ t ∧ t.items = [] := by
  rcases hx s with ⟨_, _, _, hi', -⟩ | ⟨_, _, _, hi', -⟩ | ⟨line, t, -, hg, ht⟩
  · rw [hi] at hi'
    cases hi'
  · rw [hi] at hi'
    cases hi'
  · exact ⟨line, t, hg, ht⟩

/-- The items begin alike, and `T` ties what follows a token. -/
inductive Begins (f : Nat → Nat) (T : Token → List Item → List Item → Prop) :
    List Item → List Item → Prop where
  /-- Both have ended. -/
  | ended : Begins f T [] []
  /-- Both begin with a fault. -/
  | fault (cause : ReadError) (rest rest' : List Item) :
      Begins f T (.error cause :: rest) (.error (cause.relined f) :: rest')
  /-- Both begin with a token. -/
  | token {token : Token} {rest rest' : List Item} :
      T token rest rest' → Begins f T (.ok token :: rest) (.ok (token.relined f) :: rest')

/-- Where both streams begin alike, the same token comes next, or the same fault, or the end. -/
theorem Looks.simulates {T : Token → List Item → List Item → Prop} (hx : Looks x after)
    (hP : ∀ items items', P items items' → Begins f (fun token rest rest' =>
      T token (after (.ok token :: rest)) (after (.ok (token.relined f) :: rest'))) items items') :
    Action.Simulates (fun s s' => P s.items s'.items)
      (fun token s token' s' => token' = token.relined f ∧ T token s.items s'.items ∨
        P s.items s'.items ∧ s.items = [] ∧
          ∃ line line', token = ⟨.endOfFile, line⟩ ∧ token' = ⟨.endOfFile, line'⟩)
      (fun e _ e' _ => e' = e.relined f) x x := by
  intro s s' hs
  have hbegins := hP _ _ hs
  generalize hi : s.items = items, hi' : s'.items = items' at hbegins hs
  cases hbegins with
  | ended =>
      obtain ⟨line, t, hg, ht⟩ := hx.exists_gives_end hi
      obtain ⟨line', t', hg', ht'⟩ := hx.exists_gives_end hi'
      exact hg.ensures ⟨_, t', hg', .inr ⟨by rwa [ht, ht'], ht, line, line', rfl, rfl⟩⟩
  | fault cause rest rest' =>
      obtain ⟨t, hstops, -⟩ := hx.exists_stops hi
      obtain ⟨t', hstops', -⟩ := hx.exists_stops hi'
      exact hstops.ensures ⟨_, t', hstops', rfl⟩
  | token hrest =>
      obtain ⟨t, hg, ht⟩ := hx.exists_gives hi
      obtain ⟨t', hg', ht'⟩ := hx.exists_gives hi'
      rw [hi] at ht
      rw [hi'] at ht'
      exact hg.ensures ⟨_, t', hg', .inl ⟨rfl, by rwa [ht, ht']⟩⟩

/-- After a look both parsers go on with a token, a fault or the end of the source. A fault stops
both with the same error. -/
theorem Looks.carries_bind {T : Token → List Item → List Item → Prop} (hx : Looks x after)
    (hP : ∀ items items', P items items' → Begins f (fun token rest rest' =>
      T token (after (.ok token :: rest)) (after (.ok (token.relined f) :: rest'))) items items')
    (hok : ∀ token, Carries f (T token) R h (p token) (q (token.relined f)))
    (hend : ∀ line line', Carries f (fun items items' => P items items' ∧ items = []) R h
      (p ⟨.endOfFile, line⟩) (q ⟨.endOfFile, line'⟩)) :
    Carries f P R h (x >>= p) (x >>= q) := by
  refine (hx.simulates hP).bind fun token token' t t' hq => ?_
  rcases hq with ⟨rfl, ht⟩ | ⟨ht, hn, line, line', rfl, rfl⟩
  · exact hok token t t' ht
  · exact hend line line' t t' ⟨ht, hn⟩

end Looks

/-! ## Aligned streams -/

/-- Tied items begin alike. Without a token that does not end a line they stay tied, and without one
that does `Q` still ties them. -/
structure Aligned (f : Nat → Nat) (P Q : List Item → List Item → Prop) : Prop where
  begins : ∀ items items', P items items' → Begins f (fun token rest rest' =>
    Q rest rest' ∧ (token.isEndOfLine = false → P rest rest')) items items'

/-- The items are tied, and a token comes next that does not end a line. -/
def WithinLine (P : List Item → List Item → Prop) (items items' : List Item) : Prop :=
  P items items' ∧ ∃ token rest, token.isEndOfLine = false ∧ items = .ok token :: rest

section Aligned

variable (hP : Aligned f P Q) {h : β → β} {p q : Token → Parser β}
include hP

/-- After a peek tied items are still tied. -/
theorem Aligned.begins_peek {items items' : List Item} (hi : P items items') :
    Begins f (fun token rest rest' => P (.ok token :: rest) (.ok (token.relined f) :: rest'))
      items items' := by
  have hbegins := hP.begins _ _ hi
  cases hbegins with
  | ended => exact .ended
  | fault => exact .fault _ _ _
  | token => exact .token hi

/-- A look ahead sees the end of the second source just as that of the first one. -/
theorem Aligned.simulates_peek : Action.Simulates (fun s s' => P s.items s'.items)
    (fun token s token' s' => P s.items s'.items ∧ token'.isEndOfFile = token.isEndOfFile)
    (fun e _ e' _ => e' = e.relined f) (peek 0) (peek 0) := by
  refine (looks_peek.simulates (fun _ _ hi => hP.begins_peek hi)).mono (fun _ _ hp => hp) ?_
    fun _ _ _ _ he => he
  rintro token t token' t' (⟨rfl, ht⟩ | ⟨ht, -, line, line', rfl, rfl⟩)
  · exact ⟨ht, rfl⟩
  · exact ⟨ht, rfl⟩

/-- Both parsers see the same token, up to its line, or both see the end. -/
theorem Aligned.carries_peek_bind
    (hok : ∀ token, Carries f
      (fun items items' => P items items' ∧ ∃ rest, items = .ok token :: rest) R h (p token)
      (q (token.relined f)))
    (hend : ∀ line line', Carries f P R h (p ⟨.endOfFile, line⟩) (q ⟨.endOfFile, line'⟩)) :
    Carries f P R h (peek 0 >>= p) (peek 0 >>= q) := by
  refine looks_peek.carries_bind (T := fun token items items' =>
    P items items' ∧ ∃ rest, items = .ok token :: rest) (fun items items' hi => ?_) hok
    fun line line' => (hend line line').mono (fun _ _ hp => hp.1) fun _ _ hr => hr
  have hbegins := hP.begins_peek hi
  cases hbegins with
  | ended => exact .ended
  | fault => exact .fault _ _ _
  | token => exact .token ⟨hi, _, rfl⟩

/-- Both parsers take the same token. Unless it ends a line, the items stay tied. -/
theorem Aligned.carries_next_bind
    (hok : ∀ token, Carries f (fun items items' => Q items items' ∧
      (token.isEndOfLine = false → P items items')) R h (p token) (q (token.relined f)))
    (hend : ∀ line line', Carries f P R h (p ⟨.endOfFile, line⟩) (q ⟨.endOfFile, line'⟩)) :
    Carries f P R h (next >>= p) (next >>= q) :=
  looks_next.carries_bind hP.begins hok fun line line' =>
    (hend line line').mono (fun _ _ hp => hp.1) fun _ _ hr => hr

/-- A token that was seen is taken. -/
theorem Aligned.carries_next : Carries f (WithinLine P) P (Token.relined f) next next := by
  have hbegins : ∀ items items', WithinLine P items items' →
      Begins f (fun _ rest rest' => P rest rest') items items' := by
    rintro items items' ⟨hi, token, rest, hline, rfl⟩
    have hbegins := hP.begins _ _ hi
    cases hbegins with
    | token hrest => exact .token (hrest.2 hline)
  have hnext := looks_next.carries_bind (R := P) (h := Token.relined f) (p := pure) (q := pure)
    hbegins (fun token => carries_pure (fun _ _ hp => hp) rfl) fun line line' => ?_
  · rwa [bind_pure] at hnext
  · rintro s s' ⟨⟨-, token, rest, -, hi⟩, hn⟩
    rw [hi] at hn
    cases hn

end Aligned

/-! ## Whether a rule could start -/

/-- The error about a token names its line. -/
theorem ofToken_relined (token : Token) (message : String) :
    ParseError.ofToken (token.relined f) message =
      (ParseError.ofToken token message).relined f := by
  have hsame : (token.relined f).isEndOfFile = token.isEndOfFile := rfl
  rw [ParseError.ofToken, ParseError.ofToken, hsame]
  split <;> rfl

section Parsers

variable {grammar : Grammar}

/-- What follows a choice depends on the rule that is found. -/
theorem carries_firstOf_bind {question question' : RuleId → Parser Bool}
    (h : ∀ rule, Carries f P P id (question rule) (question' rule)) {g : β → β}
    {p q : Option RuleId → Parser β} {rules : List RuleId}
    (hsome : ∀ rule ∈ rules, Carries f P R g (p (some rule)) (q (some rule)))
    (hnone : Carries f P R g (p none) (q none)) :
    Carries f P R g (firstOf question rules >>= p) (firstOf question' rules >>= q) := by
  induction rules with
  | nil => exact hnone
  | cons rule rules ih =>
      rw [firstOf, firstOf, bind_assoc, bind_assoc]
      refine (h rule).bind fun yes => ?_
      cases yes with
      | true => exact hsome rule List.mem_cons_self
      | false => exact ih fun other hmem => hsome other (List.mem_cons_of_mem _ hmem)

section Starts

variable (hP : Aligned f P Q)
include hP

/-- A question about the next token alone has the same answer. -/
theorem Aligned.carries_question {question : Token → Bool}
    (h : ∀ token, question (token.relined f) = question token)
    (hend : ∀ line line', question ⟨.endOfFile, line'⟩ = question ⟨.endOfFile, line⟩) :
    Carries f P P id (return question (← peek 0)) (return question (← peek 0)) :=
  hP.carries_peek_bind (fun token => carries_pure (fun _ _ hp => hp.1) (h token))
    fun line line' => carries_pure (fun _ _ hp => hp) (hend line line')

theorem Aligned.carries_elementStarts {starts starts' : RuleId → Parser Bool}
    (h : ∀ rule, Carries f P P id (starts rule) (starts' rule)) (element : Element) :
    Carries f P P id (grammar.elementStarts starts element)
      (grammar.elementStarts starts' element) := by
  cases element with
  | tree rule => exact h rule
  | repeated rule times => exact h rule
  | expression factor operators kind => exact h factor
  | choice rules =>
      exact carries_firstOf_bind h (fun _ _ => carries_pure (fun _ _ hp => hp) rfl)
        (carries_pure (fun _ _ hp => hp) rfl)
  | orEmpty rule => exact carries_pure (fun _ _ hp => hp) rfl
  | token wanted kind =>
      exact hP.carries_question (fun _ => by cases wanted <;> rfl) fun _ _ => by
        cases wanted <;> rfl
  | literal texts keep => exact hP.carries_question (fun _ => rfl) fun _ _ => rfl
  | ahead texts => exact hP.carries_question (fun _ => rfl) fun _ _ => rfl

/-- Whether a rule could start does not depend on lines. -/
theorem Aligned.carries_startsWithin (n : Nat) (rule : RuleId) :
    Carries f P P id (grammar.startsWithin n rule) (grammar.startsWithin n rule) := by
  induction n generalizing rule with
  | zero => exact carries_unfinished
  | succ n ih =>
      rw [startsWithin]
      split
      · exact carries_pure (fun _ _ hp => hp) rfl
      · exact hP.carries_elementStarts ih _

theorem Aligned.carries_starts (rule : RuleId) :
    Carries f P P id (grammar.starts rule) (grammar.starts rule) := hP.carries_startsWithin _ rule

end Starts

/-! ## Trees -/

theorem carries_leaf (hPQ : ∀ items items', P items items' → Q items items') (kind : Tree.Kind)
    (token : Token) : Carries f P Q (Tree.relined f) (leaf kind token)
      (leaf kind (token.relined f)) := by
  cases kind with
  | leaf kind => exact carries_pure hPQ rfl
  | branch kind => exact carries_fail rfl

/-- A branch is built of any children, so a change of lines makes no difference. -/
theorem carries_branch (kind : Tree.Kind) (children : List Tree) :
    Carries f P P (Tree.relined f) (branch kind children)
      (branch kind (children.map (Tree.relined f))) := by
  cases kind with
  | leaf kind => exact carries_fail rfl
  | branch kind => exact carries_pure (fun _ _ hp => hp) (Tree.relined_group kind children).symm

/-- Whether a tree is dropped does not depend on lines. -/
theorem unlessEmpty_relined (tree : Tree) :
    unlessEmpty (tree.relined f) = (unlessEmpty tree).map (Tree.relined f) := by
  unfold unlessEmpty
  rw [Tree.isEmptyList_relined]
  split <;> rfl

/-! ## Expressions -/

section Expressions

variable (hP : Aligned f P Q) {operators : Operators} {kind : Tree.Kind}
  {operand operand' : Parser Tree}
include hP

/-- An operator is taken only where one was seen. -/
theorem Aligned.carries_foldOperator {takes : Precedence → Bool}
    {shift shift' : Tree → Nat → Parser Tree}
    (h : ∀ left value, Carries f (WithinLine P) P (Tree.relined f) (shift left value)
      (shift' (left.relined f) value)) (operand : Tree) :
    Carries f P P (Sum.map (Tree.relined f) (Tree.relined f))
      (foldOperator operators takes shift operand)
      (foldOperator operators takes shift' (operand.relined f)) := by
  unfold foldOperator nextOperator
  rw [bind_assoc, bind_assoc]
  refine hP.carries_peek_bind (fun token => ?_) fun line line' =>
    carries_pure (fun _ _ hp => hp) rfl
  have hsame : operators.ofToken? (token.relined f) = operators.ofToken? token := rfl
  simp only [pure_bind, hsame]
  cases hoperator : operators.ofToken? token with
  | none => exact carries_pure (fun _ _ hp => hp.1) rfl
  | some precedence =>
      have hline : token.isEndOfLine = false := isEndOfLine_of_ofToken? hoperator
      dsimp only
      split
      · refine ((h operand precedence.value).mono ?_ fun _ _ hp => hp).bind
          fun _ => carries_pure (fun _ _ hp => hp) rfl
        exact fun _ _ hp => ⟨hp.1, token, hp.2.imp fun _ hi => ⟨hline, hi⟩⟩
      · exact carries_pure (fun _ _ hp => hp.1) rfl

/-- Before the operator, which ends no line, the items are tied, and so they are after each operand.
The induction is on the first budget. -/
theorem Aligned.carries_shift (h : Carries f P P (Tree.relined f) operand operand') :
    ∀ {n m : Nat}, n ≤ m → ∀ (left : Tree) (value : Nat),
      Carries f (WithinLine P) P (Tree.relined f) (shift operand operators kind n left value)
        (shift operand' operators kind m (left.relined f) value)
  | 0, _, _, _, _ => carries_unfinished
  | n + 1, m + 1, hle, left, value => by
      have hle : n ≤ m := Nat.le_of_succ_le_succ hle
      rw [shift, shift]
      refine hP.carries_next.bind fun token =>
        (carries_leaf (fun _ _ hp => hp) _ token).bind fun operator => h.bind fun right => ?_
      refine (carries_iterate (fun tree => ?_) hle right).bind fun right =>
        carries_branch kind [left, operator, right]
      exact hP.carries_foldOperator (Aligned.carries_shift h hle) tree

/-- An operand and the operators after it carry over. -/
theorem Aligned.carries_expression (h : Carries f P P (Tree.relined f) operand operand')
    {n m : Nat} (hle : n ≤ m) : Carries f P P (Tree.relined f) (expression operand operators kind n)
      (expression operand' operators kind m) := by
  unfold expression
  refine h.bind fun left => ?_
  exact carries_iterate (fun tree => hP.carries_foldOperator (hP.carries_shift h hle) tree) hle left

end Expressions

/-! ## Elements and rules -/

section Rules

variable (hP : Aligned f P Q) {parse parse' : RuleId → Parser Tree}

/-- A rule whose tree is left out if it is an empty list. -/
theorem carries_unlessEmpty {rule : RuleId}
    (h : Carries f P R (Tree.relined f) (parse rule) (parse' rule)) :
    Carries f P R (List.map (Tree.relined f)) (return unlessEmpty (← parse rule))
      (return unlessEmpty (← parse' rule)) :=
  h.bind fun tree => carries_pure (fun _ _ hr => hr) (unlessEmpty_relined tree)

include hP in
/-- One turn of a repetition. -/
theorem Aligned.carries_repeatOnce (hPR : ∀ items items', P items items' → R items items')
    {rule : RuleId} (h : Carries f P R (Tree.relined f) (parse rule) (parse' rule))
    (found : List Tree) :
    Carries f P R (Sum.map (List.map (Tree.relined f)) (List.map (Tree.relined f)))
      (grammar.repeatOnce parse rule found)
      (grammar.repeatOnce parse' rule (found.map (Tree.relined f))) := by
  unfold repeatOnce
  refine (hP.carries_starts rule).bind fun yes => ?_
  cases yes with
  | true =>
      refine h.bind fun tree => carries_pure (fun _ _ hr => hr) ?_
      rw [unlessEmpty_relined, ← List.map_append]
      rfl
  | false => exact carries_pure hPR (by simp [List.map_reverse])

/-- Whether the element takes a rule more than once. -/
def Element.loops : Element → Bool
  | .repeated _ .any => true
  | .expression _ _ _ => true
  | _ => false

variable {element : Element}

include hP in
/-- An element keeps what its rules keep. Only where a rule comes more than once it has to come back
to the tie that it begins with. -/
theorem Aligned.carries_parseElement (hPR : ∀ items items', P items items' → R items items')
    {n m : Nat} (hle : n ≤ m)
    (h : ∀ rule ∈ element.rules, Carries f P R (Tree.relined f) (parse rule) (parse' rule))
    (hloops : element.loops = true → R = P)
    (hliteral : ∀ texts keep token, element = .literal texts keep → isLiteral texts token = true →
      ∀ items items', Q items items' → (token.isEndOfLine = false → P items items') →
        R items items') :
    Carries f P R (List.map (Tree.relined f)) (grammar.parseElement parse n element)
      (grammar.parseElement parse' m element) := by
  cases element with
  | tree rule =>
      exact (h rule List.mem_cons_self).bind fun tree => carries_pure (fun _ _ hr => hr) rfl
  | choice rules =>
      refine carries_firstOf_bind hP.carries_starts
        (fun rule hmem => carries_unlessEmpty (h rule hmem)) ?_
      exact hP.carries_peek_bind (fun token => carries_fail (ofToken_relined token _))
        fun line line' => carries_fail rfl
  | repeated rule times =>
      have hrule := h rule List.mem_cons_self
      cases times with
      | any =>
          obtain rfl := hloops rfl
          exact carries_iterate (hP.carries_repeatOnce hPR hrule) hle []
      | atMostOnce =>
          refine (hP.carries_starts rule).bind fun yes => ?_
          cases yes with
          | true => exact carries_unlessEmpty hrule
          | false => exact carries_pure hPR rfl
  | orEmpty rule =>
      refine (hP.carries_starts rule).bind fun yes => ?_
      cases yes with
      | true =>
          exact (h rule List.mem_cons_self).bind fun tree => carries_pure (fun _ _ hr => hr) rfl
      | false => exact (carries_branch _ []).bind fun tree => carries_pure hPR rfl
  | token wanted kind =>
      refine hP.carries_next_bind (fun token => ?_) fun line line' => ?_
      · have hsame : grammar.accepts wanted (token.relined f) = grammar.accepts wanted token := by
          cases wanted <;> rfl
        rw [hsame]
        split
        · next haccepts =>
            have hline : token.isEndOfLine = false := isEndOfLine_of_accepts haccepts
            exact (carries_leaf (fun _ _ hp => hPR _ _ (hp.2 hline)) kind token).bind
              fun tree => carries_pure (fun _ _ hr => hr) rfl
        · exact carries_fail (ofToken_relined token _)
      · rw [accepts_endOfFile, accepts_endOfFile]
        exact carries_fail rfl
  | literal texts keep =>
      refine hP.carries_next_bind (fun token => ?_) fun line line' => carries_fail rfl
      have hsame : isLiteral texts (token.relined f) = isLiteral texts token := rfl
      rw [hsame]
      split
      · next his =>
          have htaken := hliteral texts keep token rfl his
          split
          · exact (carries_leaf (fun _ _ hp => htaken _ _ hp.1 hp.2) _ token).bind
              fun tree => carries_pure (fun _ _ hr => hr) rfl
          · exact carries_pure (fun _ _ hp => htaken _ _ hp.1 hp.2) rfl
      · exact carries_fail (ofToken_relined token _)
  | ahead texts =>
      refine hP.carries_peek_bind (fun token => ?_) fun line line' => carries_fail rfl
      have hsame : isLiteral texts (token.relined f) = isLiteral texts token := rfl
      rw [hsame]
      split
      · exact carries_pure (fun _ _ hp => hPR _ _ hp.1) rfl
      · exact carries_fail (ofToken_relined token _)
  | expression factor operators kind =>
      obtain rfl := hloops rfl
      exact (hP.carries_expression (h factor List.mem_cons_self) hle).bind
        fun tree => carries_pure (fun _ _ hr => hr) rfl

/-- The first element leaves the items tied as the others need them. -/
theorem carries_parseElements_cons {n m : Nat} {elements : List Element}
    (h : Carries f P Q (List.map (Tree.relined f)) (grammar.parseElement parse n element)
      (grammar.parseElement parse' m element))
    (hrest : Carries f Q R (List.map (Tree.relined f)) (grammar.parseElements parse n elements)
      (grammar.parseElements parse' m elements)) :
    Carries f P R (List.map (Tree.relined f))
      (grammar.parseElements parse n (element :: elements))
      (grammar.parseElements parse' m (element :: elements)) := by
  rw [parseElements, parseElements]
  refine h.bind fun trees => hrest.bind fun trees' => ?_
  exact carries_pure (fun _ _ hr => hr) (List.map_append ..).symm

theorem carries_parseRule {n m : Nat} {rule : Rule}
    (h : Carries f P R (List.map (Tree.relined f)) (grammar.parseElements parse n rule.elements)
      (grammar.parseElements parse' m rule.elements)) :
    Carries f P R (Tree.relined f) (grammar.parseRule parse n rule)
      (grammar.parseRule parse' m rule) := by
  rw [parseRule, parseRule]
  exact (carries_tell _).bind fun _ => h.bind fun trees => carries_branch _ trees

end Rules

end Parsers

end Grammar

end TreeScript
