import TreeScript.Proofs.Grammar.Starts
import TreeScript.Proofs.TokenStream

/-!
# Parsing does not look ahead

What a parser does depends on the tokens that it has taken and on the next one. So it does the
same on two streams as long as these show the same tokens.

To say when a parser has looked past the tokens that two streams share, one of them has a fault
right after these. A parser that meets the fault has looked too far, and nothing is said of it.
Any other outcome is the outcome on the other stream too (`Joint`). The budgets need not be the
same on both.

A parser that looks too far goes on with what the other stream has after the shared tokens. From
there on it leaves some of that and gives a value, or the error is about that (`Settles`). An error
about a token is the parser's last act: it has just looked at the token or taken it.
-/

namespace TreeScript

namespace Grammar

open TokenStream

variable {α β : Type}

/-! ## Errors about what is shown -/

/-- The error is about the tokens that a stream shows, or about what comes after them. A token that
does not fit is the next one of the stream where the parser stops, or was the last one taken. -/
inductive Grounded (tokens : List Token) (tail : List Item) : ParseError → TokenStream → Prop where
  /-- One of the tokens does not fit. -/
  | token {before rest : List Token} {token : Token} {message : String} {t : TokenStream} :
      tokens = before ++ token :: rest → t.Shows (token :: rest) tail ∨ t.Shows rest tail →
      Grounded tokens tail (.ofToken token message) t
  /-- The end of the source does not fit. -/
  | ended {line : Nat} {message : String} {t : TokenStream} :
      tail = [] → Grounded tokens tail (.ofToken ⟨.endOfFile, line⟩ message) t
  /-- The tokens are not enough, and what comes after them cannot be read. -/
  | unread {cause : ReadError} {others : List Item} {t : TokenStream} :
      tail = .error cause :: others → Grounded tokens tail (.read cause) t
  /-- A tree cannot be built. -/
  | shape {cause : Tree.ShapeError} {t : TokenStream} : Grounded tokens tail (.shape cause) t

/-- An error about what is left is one about all tokens. -/
theorem Grounded.suffix {tokens rest : List Token} {tail : List Item} {e : ParseError}
    {t : TokenStream} (h : Grounded rest tail e t) (hrest : rest <:+ tokens) :
    Grounded tokens tail e t := by
  cases h with
  | token htokens ht =>
      obtain ⟨first, rfl⟩ := hrest
      exact .token (by rw [htokens, ← List.append_assoc]) ht
  | ended htail => exact .ended htail
  | unread htail => exact .unread htail
  | shape => exact .shape

/-- At the end of a source an error says that the input is incomplete, or that a tree cannot be
built. -/
theorem Grounded.of_nil {e : ParseError} {t : TokenStream} (h : Grounded [] [] e t) :
    e.isIncomplete = true ∨ ∃ cause, e = .shape cause := by
  cases h with
  | token htokens => simp at htokens
  | ended => exact .inl rfl
  | unread htail => cases htail
  | shape => exact .inr ⟨_, rfl⟩

/-- The parser takes tokens from the front, and its errors are about those that were left. -/
def Settles (y : Parser α) : Prop :=
  ∀ tokens tail s, s.Shows tokens tail →
    y.Ensures s (fun _ t => ∃ rest, t.Shows rest tail ∧ rest <:+ tokens) (Grounded tokens tail)

theorem settles_pure (a : α) : Settles (pure a : Parser α) :=
  fun tokens _ _ hs => ⟨tokens, hs, List.suffix_rfl⟩

theorem settles_unfinished : Settles (Action.unfinished : Parser α) := fun _ _ _ _ => trivial

theorem settles_fail_shape (cause : Tree.ShapeError) :
    Settles (Action.fail (.shape cause) : Parser α) := fun _ _ _ _ => .shape

theorem Settles.ensures_of_suffix {y : Parser α} (h : Settles y) {tokens rest : List Token}
    {tail : List Item} {t : TokenStream} (ht : t.Shows rest tail) (hrest : rest <:+ tokens) :
    y.Ensures t (fun _ u => ∃ rest, u.Shows rest tail ∧ rest <:+ tokens)
      (Grounded tokens tail) := by
  refine (h rest tail t ht).mono ?_ (fun e u he => he.suffix hrest)
  rintro a u ⟨rest', hu, hrest'⟩
  exact ⟨rest', hu, hrest'.trans hrest⟩

/-- What follows starts with the tokens that the first part leaves. -/
theorem Settles.bind {y : Parser α} {g : α → Parser β} (hy : Settles y)
    (hg : ∀ a, Settles (g a)) : Settles (y >>= g) := by
  intro tokens tail s hs
  rw [Action.ensures_bind]
  refine (hy tokens tail s hs).mono ?_ (fun _ _ he => he)
  rintro a t ⟨rest, ht, hrest⟩
  exact (hg a).ensures_of_suffix ht hrest

/-- What comes after a look at a token, or after taking it: the token does not fit, or the parser
goes on. -/
def Checks (g : Token → Parser β) : Prop :=
  ∀ token, Settles (g token) ∨ ∃ message, g token = Action.fail (.ofToken token message)

/-- A token that does not fit is the one that was seen. -/
theorem Checks.ensures {g : Token → Parser β} (hg : Checks g) {tokens rest : List Token}
    {token : Token} {tail : List Item} {t : TokenStream} (hsees : Sees tokens token)
    (htail : tokens = [] → tail = []) (ht : t.Shows rest tail)
    (hrest : rest = tokens ∨ rest = tokens.tail) :
    (g token).Ensures t (fun _ u => ∃ rest, u.Shows rest tail ∧ rest <:+ tokens)
      (Grounded tokens tail) := by
  rcases hg token with h | ⟨message, h⟩
  · refine h.ensures_of_suffix ht ?_
    rcases hrest with rfl | rfl
    · exact List.suffix_rfl
    · exact List.tail_suffix tokens
  · rw [h, Action.ensures_fail]
    rcases hsees with ⟨others, rfl⟩ | ⟨rfl, line, rfl⟩
    · refine .token (List.nil_append (token :: others)).symm ?_
      rcases hrest with rfl | rfl
      · exact .inl ht
      · exact .inr ht
    · exact .ended (htail rfl)

/-- After a peek the token may be refused, or the parser settles. -/
theorem settles_peek_bind {g : Token → Parser β} (hg : Checks g) : Settles (peek 0 >>= g) := by
  intro tokens tail s hs
  rw [Action.ensures_bind]
  refine ensures_peek hs ?_ ?_
  · intro token t hsees htail ht
    exact hg.ensures hsees htail ht (.inl rfl)
  · intro cause others t _ htail
    exact .unread htail

/-- After a token is taken it may be refused, or the parser settles. -/
theorem settles_next_bind {g : Token → Parser β} (hg : Checks g) : Settles (next >>= g) := by
  intro tokens tail s hs
  rw [Action.ensures_bind]
  refine ensures_next hs ?_ ?_
  · intro token t hsees htail ht
    exact hg.ensures hsees htail ht (.inr rfl)
  · intro cause others t _ htail
    exact .unread htail

/-! ## Two streams -/

/-- How `x` on a stream with a fault after the shared tokens compares with `y` on another one,
which has `extra` tokens more and then `tail`. -/
inductive Compares (before : List Item) (extra : List Token) (tail : List Item) (x : Parser α)
    (s₀ : TokenStream) (y : Parser α) (s : TokenStream) : Prop where
  /-- The first one does not finish. -/
  | unfinished : ¬ x.Ends s₀ → Compares before extra tail x s₀ y s
  /-- The second one does not finish. -/
  | unfinished' : ¬ y.Ends s → Compares before extra tail x s₀ y s
  /-- Both give the same value and leave the same tokens. -/
  | value {a : α} {t₀ t : TokenStream} {rest : List Token} :
      x.Gives s₀ a t₀ → y.Gives s a t → t₀.Shows rest before → t.Shows (rest ++ extra) tail →
      Compares before extra tail x s₀ y s
  /-- Both stop with the same error, which is not a fault of the stream, and leave the same
  tokens. -/
  | error {e : ParseError} {t₀ t : TokenStream} {rest : List Token} : (∀ cause, e ≠ .read cause) →
      x.Stops s₀ e t₀ → y.Stops s e t → t₀.Shows rest before → t.Shows (rest ++ extra) tail →
      Compares before extra tail x s₀ y s
  /-- The first one meets the fault. The second one goes on with what comes after the shared
  tokens. -/
  | beyond {cause : ReadError} {others : List Item} {t₀ : TokenStream} :
      before = .error cause :: others → x.Stops s₀ (.read cause) t₀ →
      y.Ensures s (fun _ t => ∃ rest, t.Shows rest tail ∧ rest <:+ extra) (Grounded extra tail) →
      Compares before extra tail x s₀ y s

/-- The parsers do the same on two streams, up to the end of the tokens that these share. -/
def Joint (x y : Parser α) : Prop :=
  ∀ (tokens : List Token) (cause : ReadError) (others : List Item) (extra : List Token)
    (tail : List Item) (s₀ s : TokenStream),
    s₀.Shows tokens (.error cause :: others) → s.Shows (tokens ++ extra) tail →
    Compares (.error cause :: others) extra tail x s₀ y s

/-- The parsers do the same on two streams, and the second one settles. -/
structure Steady (x y : Parser α) : Prop where
  /-- What they do. -/
  joint : Joint x y
  /-- The second one settles. -/
  settles : Settles y

/-- Only what the parsers do on the two streams counts. -/
theorem Compares.of_eq {before : List Item} {extra : List Token} {tail : List Item}
    {x x' y y' : Parser α} {s₀ s : TokenStream} (h : Compares before extra tail x s₀ y s)
    (hx : x s₀ = x' s₀) (hy : y s = y' s) : Compares before extra tail x' s₀ y' s := by
  cases h with
  | unfinished hn => exact .unfinished fun he => hn (by rwa [Action.Ends, hx])
  | unfinished' hn => exact .unfinished' fun he => hn (by rwa [Action.Ends, hy])
  | value hgx hgy h₀ hs =>
      exact .value (by rwa [Action.Gives, ← hx]) (by rwa [Action.Gives, ← hy]) h₀ hs
  | error he hsx hsy h₀ hs =>
      exact .error he (by rwa [Action.Stops, ← hx]) (by rwa [Action.Stops, ← hy]) h₀ hs
  | beyond hbefore hsx hsettles =>
      refine .beyond hbefore (by rwa [Action.Stops, ← hx]) ?_
      rwa [Action.Ensures, hy] at hsettles

theorem joint_pure (a : α) : Joint (pure a) (pure a) := by
  intro tokens cause others extra tail s₀ s h₀ h
  exact .value (Action.gives_pure a) (Action.gives_pure a) h₀ h

theorem steady_pure (a : α) : Steady (pure a) (pure a) := ⟨joint_pure a, settles_pure a⟩

/-- An error that is not about reading is met in both streams. -/
theorem joint_fail {e : ParseError} (he : ∀ cause, e ≠ .read cause) :
    Joint (Action.fail e : Parser α) (Action.fail e) := by
  intro tokens cause others extra tail s₀ s h₀ h
  exact .error he ⟨[], rfl⟩ ⟨[], rfl⟩ h₀ h

theorem joint_fail_ofToken (token : Token) (message : String) :
    Joint (Action.fail (.ofToken token message) : Parser α)
      (Action.fail (.ofToken token message)) := by
  refine joint_fail fun cause h => ?_
  unfold ParseError.ofToken at h
  split at h <;> cases h

/-- What does not end on the first stream need not end alike on the second one. -/
theorem steady_unfinished_left {y : Parser α} (hy : Settles y) :
    Steady (Action.unfinished : Parser α) y :=
  ⟨fun _ _ _ _ _ _ _ _ _ => .unfinished fun h => h rfl, hy⟩

theorem steady_unfinished_right {x : Parser α} : Steady x (Action.unfinished : Parser α) :=
  ⟨fun _ _ _ _ _ _ _ _ _ => .unfinished' fun h => h rfl, settles_unfinished⟩

/-! ## Sequences -/

section Bind

variable {before : List Item} {extra : List Token} {tail : List Item} {s₀ s t₀ t : TokenStream}
variable {x y : Parser α} {f g : α → Parser β}

/-- After a step that gives the same on both streams, what comes next decides. -/
theorem Compares.of_gives {a : α} (hx : x.Gives s₀ a t₀) (hy : y.Gives s a t)
    (h : Compares before extra tail (f a) t₀ (g a) t) :
    Compares before extra tail (x >>= f) s₀ (y >>= g) s := by
  cases h with
  | unfinished hn => exact .unfinished fun he => hn ((Action.ends_bind.1 he).2.of_gives hx)
  | unfinished' hn => exact .unfinished' fun he => hn ((Action.ends_bind.1 he).2.of_gives hy)
  | value hf hg h₀ h => exact .value (hx.bind hf) (hy.bind hg) h₀ h
  | error he hf hg h₀ h => exact .error he (hx.bind_stops hf) (hy.bind_stops hg) h₀ h
  | beyond hbefore hf hsettles =>
      refine .beyond hbefore (hx.bind_stops hf) ?_
      rw [Action.ensures_bind]
      exact hy.ensures hsettles

/-- What follows starts with the same tokens in both streams. -/
theorem Steady.bind (h : Steady x y) (hf : ∀ a, Steady (f a) (g a)) :
    Steady (x >>= f) (y >>= g) := by
  refine ⟨?_, h.settles.bind fun a => (hf a).settles⟩
  intro tokens cause others extra tail s₀ s h₀ hs
  cases h.joint tokens cause others extra tail s₀ s h₀ hs with
  | unfinished hn => exact .unfinished fun he => hn (Action.ends_bind.1 he).1
  | unfinished' hn => exact .unfinished' fun he => hn (Action.ends_bind.1 he).1
  | value hx hy h₀' hs' =>
      exact .of_gives hx hy ((hf _).joint _ cause others extra tail _ _ h₀' hs')
  | error he hx hy h₀' hs' => exact .error he (hx.bind f) (hy.bind g) h₀' hs'
  | beyond hbefore hx hsettles =>
      refine .beyond hbefore (hx.bind f) ?_
      rw [Action.ensures_bind]
      refine hsettles.mono ?_ (fun _ _ he => he)
      rintro a t ⟨rest, ht, hrest⟩
      exact (hf a).settles.ensures_of_suffix ht hrest

end Bind

/-- A look at the next token sees the same, or looks too far. -/
theorem steady_peek_bind {f g : Token → Parser β} (hf : ∀ token, Joint (f token) (g token))
    (hg : Checks g) : Steady (peek 0 >>= f) (peek 0 >>= g) := by
  refine ⟨?_, settles_peek_bind hg⟩
  intro tokens cause others extra tail s₀ s h₀ hs
  cases tokens with
  | nil =>
      obtain ⟨t₀, hx⟩ := exists_stops_peek h₀
      exact .beyond rfl (hx.bind f) (settles_peek_bind hg extra tail s hs)
  | cons token rest =>
      obtain ⟨t₀, hx, h₀'⟩ := exists_gives_peek h₀
      obtain ⟨t, hy, hs'⟩ := exists_gives_peek hs
      exact .of_gives hx hy (hf token _ cause others extra tail t₀ t h₀' hs')

/-- Taking the next token takes the same, or looks too far. -/
theorem steady_next_bind {f g : Token → Parser β} (hf : ∀ token, Joint (f token) (g token))
    (hg : Checks g) : Steady (next >>= f) (next >>= g) := by
  refine ⟨?_, settles_next_bind hg⟩
  intro tokens cause others extra tail s₀ s h₀ hs
  cases tokens with
  | nil =>
      obtain ⟨t₀, hx⟩ := exists_stops_next h₀
      exact .beyond rfl (hx.bind f) (settles_next_bind hg extra tail s hs)
  | cons token rest =>
      obtain ⟨t₀, hx, h₀'⟩ := exists_gives_next h₀
      obtain ⟨t, hy, hs'⟩ := exists_gives_next hs
      exact .of_gives hx hy (hf token _ cause others extra tail t₀ t h₀' hs')

theorem settles_iterate {body : β → Parser (β ⊕ α)} (h : ∀ b, Settles (body b)) (n : Nat) (b : β) :
    Settles (Action.iterate body n b) := by
  induction n generalizing b with
  | zero => exact settles_unfinished
  | succ n ih =>
      rw [Action.iterate_succ]
      refine (h b).bind fun result => ?_
      cases result with
      | inl b' => exact ih b'
      | inr a => exact settles_pure a

/-- A loop is steady if each turn is. The induction is on both budgets. -/
theorem steady_iterate {body body' : β → Parser (β ⊕ α)} (h : ∀ b, Steady (body b) (body' b)) :
    ∀ (n m : Nat) (b : β), Steady (Action.iterate body n b) (Action.iterate body' m b)
  | 0, m, b => steady_unfinished_left (settles_iterate (fun b => (h b).settles) m b)
  | n + 1, 0, b => steady_unfinished_right
  | n + 1, m + 1, b => by
      rw [Action.iterate_succ, Action.iterate_succ]
      refine (h b).bind fun result => ?_
      cases result with
      | inl b' => exact steady_iterate h n m b'
      | inr a => exact steady_pure a

theorem steady_tell (event : Event) :
    Steady (Action.tell event : Parser Unit) (Action.tell event) where
  joint _ _ _ _ _ _ _ h₀ hs := .value ⟨[event], rfl⟩ ⟨[event], rfl⟩ h₀ hs
  settles tokens _ _ hs := ⟨tokens, hs, List.suffix_rfl⟩

theorem steady_leaf (kind : Tree.Kind) (token : Token) :
    Steady (leaf kind token) (leaf kind token) := by
  cases kind with
  | leaf kind => exact steady_pure _
  | branch kind => exact ⟨joint_fail (by simp), settles_fail_shape _⟩

theorem steady_branch (kind : Tree.Kind) (children : List Tree) :
    Steady (branch kind children) (branch kind children) := by
  cases kind with
  | leaf kind => exact ⟨joint_fail (by simp), settles_fail_shape _⟩
  | branch kind => exact steady_pure _

/-! ## Whether a rule could start -/

section Parsers

variable {grammar : Grammar}

/-- Questions that are steady choose steadily. -/
theorem steady_firstOf {question : RuleId → Parser Bool}
    (h : ∀ id, Steady (question id) (question id)) (rules : List RuleId) :
    Steady (firstOf question rules) (firstOf question rules) := by
  induction rules with
  | nil => exact steady_pure none
  | cons id rules ih =>
      rw [firstOf]
      refine (h id).bind fun yes => ?_
      cases yes with
      | true => exact steady_pure _
      | false => exact ih

theorem steady_elementStarts {starts : RuleId → Parser Bool}
    (h : ∀ id, Steady (starts id) (starts id))
    (element : Element) :
    Steady (grammar.elementStarts starts element) (grammar.elementStarts starts element) := by
  cases element with
  | tree rule => exact h rule
  | repeated rule times => exact h rule
  | expression factor operators kind => exact h factor
  | choice rules => exact (steady_firstOf h rules).bind fun _ => steady_pure _
  | orEmpty rule => exact steady_pure true
  | token wanted kind =>
      exact steady_peek_bind (fun _ => joint_pure _) (fun _ => .inl (settles_pure _))
  | literal texts keep =>
      exact steady_peek_bind (fun _ => joint_pure _) (fun _ => .inl (settles_pure _))
  | ahead texts => exact steady_peek_bind (fun _ => joint_pure _) (fun _ => .inl (settles_pure _))

/-- Whether a rule could start is found out steadily. The induction is on the steps. -/
theorem steady_startsWithin (n : Nat) (id : RuleId) :
    Steady (grammar.startsWithin n id) (grammar.startsWithin n id) := by
  induction n generalizing id with
  | zero => exact steady_unfinished_right
  | succ n ih =>
      rw [startsWithin]
      split
      · exact steady_pure true
      · exact steady_elementStarts ih _

theorem steady_starts (id : RuleId) : Steady (grammar.starts id) (grammar.starts id) :=
  steady_startsWithin _ id

/-! ## Expressions -/

theorem steady_foldOperator {operators : Operators} {takes : Precedence → Bool}
    {shift shift' : Tree → Nat → Parser Tree}
    (h : ∀ left value, Steady (shift left value) (shift' left value)) (operand : Tree) :
    Steady (foldOperator operators takes shift operand)
      (foldOperator operators takes shift' operand) := by
  have hnext : Steady (nextOperator operators) (nextOperator operators) :=
    steady_peek_bind (fun _ => joint_pure _) (fun _ => .inl (settles_pure _))
  refine hnext.bind fun found => ?_
  cases found with
  | none => exact steady_pure _
  | some precedence =>
      dsimp only
      split
      · exact (h operand precedence.value).bind fun _ => steady_pure _
      · exact steady_pure _

variable {operand operand' : Parser Tree}

theorem steady_next : Steady next next := by
  rw [← bind_pure next]
  exact steady_next_bind (fun _ => joint_pure _) (fun _ => .inl (settles_pure _))

/-- The operator is taken and its operand parsed, and then the operators after it that bind tighter.
-/
theorem steady_shift_succ {operators : Operators} {kind : Tree.Kind} {n m : Nat}
    (h : Steady operand operand')
    (hshift : ∀ left value, Steady (shift operand operators kind n left value)
      (shift operand' operators kind m left value)) (left : Tree) (value : Nat) :
    Steady (shift operand operators kind (n + 1) left value)
      (shift operand' operators kind (m + 1) left value) := by
  rw [shift, shift]
  refine steady_next.bind fun token => (steady_leaf _ token).bind fun operator => ?_
  refine h.bind fun right => ?_
  refine (steady_iterate (fun tree => steady_foldOperator hshift tree) n m right).bind ?_
  intro right
  exact steady_branch kind _

/-- Where the first budget is spent, that the second parser settles follows from a larger one. -/
theorem steady_shift {operators : Operators} {kind : Tree.Kind} (h : Steady operand operand') :
    ∀ (n m : Nat) (left : Tree) (value : Nat),
      Steady (shift operand operators kind n left value)
        (shift operand' operators kind m left value)
  | _, 0, _, _ => steady_unfinished_right
  | 0, m + 1, left, value =>
      steady_unfinished_left (steady_shift_succ h (steady_shift h 0 m) left value).settles
  | n + 1, m + 1, left, value => steady_shift_succ h (steady_shift h n m) left value

/-- An expression is steady if its operand is. -/
theorem steady_expression {operators : Operators} {kind : Tree.Kind} (h : Steady operand operand')
    (n m : Nat) :
    Steady (expression operand operators kind n) (expression operand' operators kind m) :=
  h.bind fun left => steady_iterate (steady_foldOperator (steady_shift h n m)) n m left

/-! ## Elements and rules -/

variable {parse parse' : RuleId → Parser Tree} (h : ∀ id, Steady (parse id) (parse' id))
include h

theorem steady_repetition (rule : RuleId) (n m : Nat) :
    Steady (grammar.repetition parse rule n) (grammar.repetition parse' rule m) := by
  refine steady_iterate (fun found => ?_) n m []
  refine (steady_starts rule).bind fun yes => ?_
  cases yes with
  | true => exact (h rule).bind fun _ => steady_pure _
  | false => exact steady_pure _

/-- By cases on the element. -/
theorem steady_parseElement (n m : Nat) (element : Element) :
    Steady (grammar.parseElement parse n element) (grammar.parseElement parse' m element) := by
  cases element with
  | tree rule => exact (h rule).bind fun _ => steady_pure _
  | choice rules =>
      refine (steady_firstOf steady_starts rules).bind fun chosen => ?_
      cases chosen with
      | some rule => exact (h rule).bind fun _ => steady_pure _
      | none =>
          exact steady_peek_bind (fun _ => joint_fail_ofToken _ _) fun token => .inr ⟨_, rfl⟩
  | repeated rule times =>
      cases times with
      | any => exact steady_repetition h rule n m
      | atMostOnce =>
          refine (steady_starts rule).bind fun yes => ?_
          cases yes with
          | true => exact (h rule).bind fun _ => steady_pure _
          | false => exact steady_pure _
  | orEmpty rule =>
      refine (steady_starts rule).bind fun yes => ?_
      cases yes with
      | true => exact (h rule).bind fun _ => steady_pure _
      | false => exact (steady_branch _ []).bind fun _ => steady_pure _
  | token wanted kind =>
      refine steady_next_bind (fun token => ?_) (fun token => ?_)
      · split
        · exact ((steady_leaf kind token).bind fun _ => steady_pure _).joint
        · exact joint_fail_ofToken _ _
      · split
        · exact .inl ((steady_leaf kind token).bind fun _ => steady_pure _).settles
        · exact .inr ⟨_, rfl⟩
  | literal texts keep =>
      refine steady_next_bind (fun token => ?_) (fun token => ?_)
      · split
        · split
          · exact ((steady_leaf _ token).bind fun _ => steady_pure _).joint
          · exact joint_pure _
        · exact joint_fail_ofToken _ _
      · split
        · split
          · exact .inl ((steady_leaf _ token).bind fun _ => steady_pure _).settles
          · exact .inl (settles_pure _)
        · exact .inr ⟨_, rfl⟩
  | ahead texts =>
      refine steady_peek_bind (fun token => ?_) (fun token => ?_)
      · split
        · exact joint_pure _
        · exact joint_fail_ofToken _ _
      · split
        · exact .inl (settles_pure _)
        · exact .inr ⟨_, rfl⟩
  | expression factor operators kind =>
      exact (steady_expression (h factor) n m).bind fun _ => steady_pure _

theorem steady_parseElements (n m : Nat) (elements : List Element) :
    Steady (grammar.parseElements parse n elements) (grammar.parseElements parse' m elements) := by
  induction elements with
  | nil => exact steady_pure []
  | cons element elements ih =>
      rw [parseElements, parseElements]
      refine (steady_parseElement h n m element).bind fun trees => ?_
      exact ih.bind fun _ => steady_pure _

theorem steady_parseRule (n m : Nat) (rule : Rule) :
    Steady (grammar.parseRule parse n rule) (grammar.parseRule parse' m rule) := by
  refine (steady_tell _).bind fun _ => ?_
  exact (steady_parseElements h n m rule.elements).bind fun trees => steady_branch rule.kind trees

omit h in
/-- Rules are steady whatever both budgets are. The induction is on both. -/
theorem steady_parseWithin : ∀ (n m : Nat) (id : RuleId),
    Steady (grammar.parseWithin n id) (grammar.parseWithin m id)
  | _, 0, _ => steady_unfinished_right
  | 0, m + 1, id =>
      steady_unfinished_left
        (steady_parseRule (steady_parseWithin 0 m) 0 m (grammar.rule id)).settles
  | n + 1, m + 1, id => steady_parseRule (steady_parseWithin n m) n m (grammar.rule id)

omit h in
/-- The budgets of two streams may differ. -/
theorem steady_parse (id : RuleId) : Steady (grammar.parse id) (grammar.parse id) where
  joint tokens cause others extra tail s₀ s h₀ hs :=
    ((steady_parseWithin (grammar.budget s₀) (grammar.budget s) id).joint tokens cause others extra
      tail s₀ s h₀ hs).of_eq rfl rfl
  settles tokens tail s hs :=
    (steady_parseWithin 0 (grammar.budget s) id).settles tokens tail s hs

end Parsers

end Grammar

end TreeScript
