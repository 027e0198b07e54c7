import TreeScript.Proofs.Grammar.Parse

/-!
# Parsing ends

A rule may begin with another rule, and that with another one, as long as no token is taken
on the way. If the rules can be ranked so that this goes down in rank, and if what is
repeated takes a token each time, parsing ends within its budget, whatever the source
(`ends_parse`). Each token lets the rules nest once more as deep as the table is long.

`takes` says of which rules it is known that they take a token.
-/

namespace TreeScript

namespace Grammar

open TokenStream

/-! ## Ranks -/

/-- The rules that an element parses. -/
def Element.rules : Element → List RuleId
  | .tree rule => [rule]
  | .choice rules => rules
  | .repeated rule _ => [rule]
  | .orEmpty rule => [rule]
  | .token _ _ => []
  | .literal _ _ => []
  | .ahead _ => []
  | .expression factor _ _ => [factor]

/-- The rules that an element asks are among those that it parses. -/
theorem Element.mem_rules_of_asked {element : Element} {rule : RuleId} (h : rule ∈ element.asked) :
    rule ∈ element.rules := by
  cases element with
  | tree | repeated | expression | choice => exact h
  | orEmpty | token | literal | ahead => cases h

/-- Whether an element takes a token, given this for rules. -/
def Element.takes (takes : RuleId → Bool) : Element → Bool
  | .tree rule => takes rule
  | .choice rules => rules.all takes
  | .repeated _ _ => false
  | .orEmpty _ => false
  | .token _ _ => true
  | .literal _ _ => true
  | .ahead _ => false
  | .expression factor _ _ => takes factor

/-- Whether what an element repeats takes a token. -/
def Element.advances (takes : RuleId → Bool) : Element → Bool
  | .repeated rule .any => takes rule
  | _ => true

/-- Whether the rules of elements are below a rank, up to the first element that takes a
token. -/
def descends (rank : RuleId → Nat) (takes : RuleId → Bool) (bound : Nat) : List Element → Bool
  | [] => true
  | element :: elements =>
      element.rules.all (fun rule => rank rule < bound) &&
        (element.takes takes || descends rank takes bound elements)
termination_by structural elements => elements

/-- Whether a rule is in order. -/
def Rule.ranked (rank : RuleId → Nat) (takes : RuleId → Bool) (id : RuleId) (rule : Rule) : Bool :=
  descends rank takes (rank id) rule.elements && rule.elements.all (Element.advances takes) &&
    (!takes id || rule.elements.any (Element.takes takes))

/-- Nested rules go down in rank until a token is taken. -/
structure Ranked (grammar : Grammar) (rank : RuleId → Nat) (takes : RuleId → Bool) : Prop where
  /-- Ranks are no larger than the table. -/
  rank_le : ∀ id, rank id ≤ grammar.rules.size
  /-- Every rule is in order. -/
  ranked : ∀ id, (grammar.rule id).ranked rank takes id = true

section

variable {grammar : Grammar} {rank : RuleId → Nat} {takes : RuleId → Bool}

theorem Ranked.descends (h : Ranked grammar rank takes) (id : RuleId) :
    descends rank takes (rank id) (grammar.rule id).elements = true := by
  have := h.ranked id
  simp only [Rule.ranked, Bool.and_eq_true] at this
  exact this.1.1

theorem Ranked.advances (h : Ranked grammar rank takes) (id : RuleId) :
    ∀ element ∈ (grammar.rule id).elements, element.advances takes = true := by
  have := h.ranked id
  simp only [Rule.ranked, Bool.and_eq_true, List.all_eq_true] at this
  exact this.1.2

/-- A rule that takes a token has an element that does. -/
theorem Ranked.exists_takes (h : Ranked grammar rank takes) {id : RuleId} (ht : takes id = true) :
    ∃ element ∈ (grammar.rule id).elements, element.takes takes = true := by
  have := h.ranked id
  simp only [Rule.ranked, Bool.and_eq_true, Bool.or_eq_true, Bool.not_eq_true', ht,
    List.any_eq_true] at this
  rcases this.2 with hn | he
  · cases hn
  · exact he

/-! ## Rules take tokens -/

/-- What is left is a suffix, and a shorter one if the rule takes a token. -/
def Shrinks (takes : RuleId → Bool) : Success := fun id tokens _ rest =>
  rest <:+ tokens ∧ (takes id = true → rest.length < tokens.length)

/-- What a rule leaves is a suffix. -/
theorem trims_shrinks : Trims (Shrinks takes) := fun _ _ _ _ h => h.1

/-- An element that takes a token leaves fewer. -/
theorem Reads.length_lt {element : Element} {tokens rest : List Token} {trees : List Tree}
    (h : Reads grammar (Shrinks takes) element tokens trees rest)
    (ht : element.takes takes = true) : rest.length < tokens.length := by
  cases h with
  | tree hr => exact hr.2 ht
  | choice hc hr =>
      exact hr.2 (List.all_eq_true.1 ht _ (mem_of_firstAt hc))
  | many hr => cases ht
  | never => cases ht
  | once _ hr => cases ht
  | empty => cases ht
  | filled _ hr => cases ht
  | token => simp
  | dropped => simp
  | kept => simp
  | ahead => cases ht
  | expression _ hr hc =>
      have := (hc.suffix trims_shrinks).length_le
      have := hr.2 ht
      omega

/-- One element that takes a token is enough. -/
theorem ReadsAll.length_lt {elements : List Element} {tokens rest : List Token}
    {trees : List Tree} (h : ReadsAll grammar (Shrinks takes) elements tokens trees rest)
    (ht : ∃ element ∈ elements, element.takes takes = true) : rest.length < tokens.length := by
  induction h with
  | nil => simp at ht
  | cons hr hs ih =>
      have h₁ := (hr.suffix trims_shrinks).length_le
      have h₂ := (hs.suffix trims_shrinks).length_le
      obtain ⟨element, he, ht⟩ := ht
      rcases List.mem_cons.1 he with rfl | he
      · have := hr.length_lt ht
        omega
      · have := ih ⟨element, he, ht⟩
        omega

/-- In a ranked grammar a rule that is said to take a token does so. -/
theorem Ranked.closed_shrinks (h : Ranked grammar rank takes) :
    Closed grammar (Shrinks takes) := by
  intro id kind tokens trees rest _ hr
  exact ⟨hr.suffix trims_shrinks, fun ht => hr.length_lt (h.exists_takes ht)⟩

/-- A rule that is parsed shrinks what is left. -/
theorem Ranked.follows_shrinks (h : Ranked grammar rank takes) (tail : List Item) (n : Nat) :
    Follows (Shrinks takes) (fun _ _ _ _ => True) tail (grammar.parseWithin n) :=
  ensures_parseWithin h.closed_shrinks ⟨fun _ _ _ _ _ => trivial, fun _ _ _ _ _ => trivial⟩ n

/-! ## Asking ends -/

theorem firstAt_ne_none {answer : RuleId → Option Bool} {ids : List RuleId}
    (h : ∀ id ∈ ids, answer id ≠ none) : firstAt answer ids ≠ none := by
  induction ids with
  | nil => simp [firstAt]
  | cons id ids ih =>
      cases hanswer : answer id with
      | none => exact absurd hanswer (h id List.mem_cons_self)
      | some yes =>
          cases yes with
          | true => simp [firstAt, hanswer]
          | false =>
              simp only [firstAt, hanswer]
              exact ih fun id hi => h id (List.mem_cons_of_mem _ hi)

/-- The first elements go down in rank, so as many steps as the rank are enough for an answer. -/
theorem Ranked.startsAtWithin_ne_none (h : Ranked grammar rank takes) (token : Token) :
    ∀ (n : Nat) (id : RuleId), rank id < n → grammar.startsAtWithin token n id ≠ none
  | 0, _, hn => absurd hn (Nat.not_lt_zero _)
  | n + 1, id, hn => by
      rw [startsAtWithin]
      have hd := h.descends id
      cases he : (grammar.rule id).elements with
      | nil => simp
      | cons element elements =>
          rw [he] at hd
          simp only [Grammar.descends, Bool.and_eq_true, List.all_eq_true] at hd
          have hrules : ∀ rule ∈ element.rules, grammar.startsAtWithin token n rule ≠ none := by
            intro rule hr
            have := of_decide_eq_true (hd.1 rule hr)
            exact h.startsAtWithin_ne_none token n rule (by omega)
          cases element with
          | tree rule => exact hrules rule (by simp [Element.rules])
          | repeated rule times => exact hrules rule (by simp [Element.rules])
          | expression factor operators kind => exact hrules factor (by simp [Element.rules])
          | choice rules => simpa [elementStartsAt, Element.rules] using firstAt_ne_none hrules
          | orEmpty rule => simp [elementStartsAt]
          | token wanted kind => simp [elementStartsAt]
          | literal texts keep => simp [elementStartsAt]
          | ahead texts => simp [elementStartsAt]

/-- Whether a rule could start is always known. -/
theorem Ranked.startsAt_ne_none (h : Ranked grammar rank takes) (id : RuleId) (token : Token) :
    grammar.startsAt id token ≠ none :=
  h.startsAtWithin_ne_none token _ id (Nat.lt_succ_of_le (h.rank_le id))

/-- With the budget of the grammar each rule of a choice has an answer. -/
theorem Ranked.chooseAt_ne_none (h : Ranked grammar rank takes) (rules : List RuleId)
    (token : Token) : grammar.chooseAt rules token ≠ none :=
  firstAt_ne_none fun id _ => h.startsAt_ne_none id token

/-! ## Expressions end -/

section Expression

variable {R : Success} {F : Failure} {tail : List Item} {factor : RuleId} {operators : Operators}
variable {kind : Tree.Kind} {operand : Parser Tree} {P : List Token → Prop}

/-- Reading the operand of an operator keeps a property of what is left and takes no token
back. -/
def Keeps (R : Success) (factor : RuleId) (operators : Operators) (P : List Token → Prop) : Prop :=
  ∀ operator precedence tokens tree rest, operators.ofToken? operator = some precedence →
    P (operator :: tokens) → R factor tokens tree rest → P rest ∧ rest.length ≤ tokens.length

/-- What an operand keeps is kept along the chain. -/
theorem Chains.keeps (hk : Keeps R factor operators P) {accepts : Precedence → Bool}
    {tokens rest : List Token} {links : List Link}
    (h : Chains R factor operators accepts tokens links rest) (hp : P tokens) :
    P rest ∧ rest.length ≤ tokens.length := by
  induction h with
  | done => exact ⟨hp, Nat.le_refl _⟩
  | @more operator _ _ tokens _ _ _ ho _ hr _ ih =>
      obtain ⟨hp', hl⟩ := hk _ _ _ _ _ ho hp hr
      obtain ⟨hp'', hl'⟩ := ih hp'
      refine ⟨hp'', ?_⟩
      simp only [List.length_cons]
      omega

/-- Each operator that is folded in takes a token, so folding ends. -/
theorem ends_iterate_foldOperator (hk : Keeps R factor operators P)
    {shift : Tree → Nat → Parser Tree}
    (hs : FollowsShift R F tail factor operators kind shift)
    {accepts : Precedence → Bool} {bound : Nat}
    (he : ∀ left value stream operator precedence tokens,
      stream.Shows (operator :: tokens) tail → operators.ofToken? operator = some precedence →
      P (operator :: tokens) → (operator :: tokens).length ≤ bound → (shift left value).Ends stream)
    {n : Nat} (left : Tree) {stream : TokenStream} {tokens : List Token}
    (h : stream.Shows tokens tail) (hp : P tokens) (hb : tokens.length ≤ bound) (hn : bound < n) :
    (Action.iterate (foldOperator operators accepts shift) n left).Ends stream := by
  refine Action.ends_iterate (fun k _ stream => ∃ tokens, stream.Shows tokens tail ∧ P tokens ∧
    tokens.length = k ∧ k ≤ bound) ?_ ?_ n tokens.length left stream ⟨tokens, h, hp, rfl, hb⟩
    (by omega)
  · rintro k left stream ⟨tokens, h, hp, rfl, hb⟩
    rw [foldOperator, Action.ends_bind]
    refine ⟨ends_peek.bind fun _ _ => Action.ends_pure _, ?_⟩
    refine (ensures_nextOperator h).mono ?_ (fun _ _ _ => trivial)
    rintro next stream' ⟨hshow, rfl⟩
    cases hnext : operators.ofToken? (front tokens) with
    | none => exact Action.ends_pure _
    | some precedence =>
        obtain ⟨operator, tokens, rfl, ho⟩ := eq_cons_of_ofToken? hnext
        simp only
        split
        · exact (he left precedence.value stream' operator precedence tokens hshow ho hp hb).bind
            fun _ _ => Action.ends_pure _
        · exact Action.ends_pure _
  · rintro k left stream ⟨tokens, h, hp, rfl, hb⟩
    rw [foldOperator, Action.ensures_bind]
    refine (ensures_nextOperator h).mono ?_ (fun _ _ _ => trivial)
    rintro next stream' ⟨hshow, rfl⟩
    cases hnext : operators.ofToken? (front tokens) with
    | none => trivial
    | some precedence =>
        obtain ⟨operator, tokens, rfl, ho⟩ := eq_cons_of_ofToken? hnext
        simp only
        split
        · rw [Action.ensures_bind]
          refine (hs left precedence.value stream' operator precedence tokens hshow ho).mono ?_
            (fun _ _ _ => trivial)
          rintro tree stream'' ⟨branchKind, right, tokens', links, rest, -, hr, hc, hshow', -⟩
          obtain ⟨hp', hl⟩ := hk _ _ _ _ _ ho hp hr
          obtain ⟨hp'', hl'⟩ := hc.keeps hk hp'
          simp only [List.length_cons] at hb ⊢
          exact ⟨rest.length, by omega, rest, hshow', hp'', rfl, by omega⟩
        · trivial

/-- Each operator takes a token, so a budget above the number of tokens is enough. The induction is
on that budget. -/
theorem ends_shift (hk : Keeps R factor operators P)
    (ho : FollowsOperand R F tail factor operand)
    (he : ∀ stream operator precedence tokens, stream.Shows tokens tail →
      operators.ofToken? operator = some precedence → P (operator :: tokens) →
      operand.Ends stream) :
    ∀ (n : Nat) (left : Tree) (value : Nat) (stream : TokenStream) (operator : Token)
      (precedence : Precedence) (tokens : List Token), stream.Shows (operator :: tokens) tail →
      operators.ofToken? operator = some precedence → P (operator :: tokens) →
      (operator :: tokens).length < n →
      (shift operand operators kind n left value).Ends stream
  | 0, _, _, _, _, _, _, _, _, _, hn => absurd hn (Nat.not_lt_zero _)
  | n + 1, left, value, stream, operator, precedence, tokens, h, hop, hp, hn => by
      simp only [List.length_cons] at hn
      rw [shift, Action.ends_bind]
      refine ⟨ends_next, ensures_next h ?_ (fun _ _ _ _ _ => trivial)⟩
      intro token stream' _ _ hshow
      rw [Action.ends_bind]
      refine ⟨Action.ends_ofExcept _, Action.ensures_iff.2 ⟨?_, by simp⟩⟩
      rintro leaf stream'' ⟨journal, hleaf⟩
      cases hleaf
      rw [Action.ends_bind]
      refine ⟨he stream' operator precedence tokens hshow hop hp, (ho stream' tokens hshow).mono ?_
        (fun _ _ _ => trivial)⟩
      rintro right stream₂ ⟨tokens', hshow', hr⟩
      obtain ⟨hp', hl⟩ := hk _ _ _ _ _ hop hp hr
      refine Action.Ends.bind ?_ fun _ _ => Action.ends_ofExcept _
      refine ends_iterate_foldOperator hk (followsShift_shift ho n) ?_ right hshow' hp'
        (Nat.le_refl _) (by omega)
      intro left' value' stream₃ operator' precedence' tokens'' hshow'' hop' hp'' hlen
      exact ends_shift hk ho he n left' value' stream₃ operator' precedence' tokens'' hshow''
        hop' hp'' (by omega)

/-- An expression ends if its operands end. -/
theorem ends_expression (hk : Keeps R factor operators P)
    (ho : FollowsOperand R F tail factor operand)
    (he : ∀ stream operator precedence tokens, stream.Shows tokens tail →
      operators.ofToken? operator = some precedence → P (operator :: tokens) →
      operand.Ends stream)
    {stream : TokenStream} {tokens : List Token} (h : stream.Shows tokens tail)
    (hfirst : operand.Ends stream)
    (hp : ∀ tree rest, R factor tokens tree rest → P rest ∧ rest.length ≤ tokens.length)
    {budget : Nat} (hn : tokens.length < budget) :
    (expression operand operators kind budget).Ends stream := by
  rw [expression, Action.ends_bind]
  refine ⟨hfirst, (ho stream tokens h).mono ?_ (fun _ _ _ => trivial)⟩
  rintro left stream' ⟨tokens', hshow, hr⟩
  obtain ⟨hp', hl⟩ := hp _ _ hr
  refine ends_iterate_foldOperator hk (followsShift_shift ho budget) ?_ left hshow hp' hl hn
  intro left' value stream'' operator precedence tokens'' hshow' hop hp'' hlen
  exact ends_shift hk ho he budget left' value stream'' operator precedence tokens'' hshow' hop
    hp'' (by omega)

end Expression

/-! ## Rules end -/

section Rules

variable {tail : List Item} {parse : RuleId → Parser Tree} {F : Failure}

/-- A repetition ends because each turn takes a token. -/
theorem Ranked.ends_repetition (hg : Ranked grammar rank takes)
    (hp : Follows (Shrinks takes) F tail parse) {rule : RuleId}
    (ht : takes rule = true) {stream : TokenStream} {tokens : List Token}
    (h : stream.Shows tokens tail)
    (he : ∀ stream' tokens', stream'.Shows tokens' tail → tokens'.length ≤ tokens.length →
      (parse rule).Ends stream')
    {budget : Nat} (hn : tokens.length < budget) :
    (grammar.repetition parse rule budget).Ends stream := by
  refine Action.ends_iterate (fun k _ stream => ∃ tokens', stream.Shows tokens' tail ∧
    tokens'.length = k ∧ k ≤ tokens.length) ?_ ?_ budget tokens.length [] stream
    ⟨tokens, h, rfl, Nat.le_refl _⟩ hn
  · rintro k found stream ⟨tokens', h, rfl, hb⟩
    rw [repeatOnce, Action.ends_bind]
    refine ⟨ends_starts h (hg.startsAt_ne_none rule _), (ensures_starts rule h).mono ?_
      (fun _ _ _ => trivial)⟩
    rintro yes stream' ⟨hshow, -⟩
    cases yes with
    | false => exact Action.ends_pure _
    | true =>
        exact (he stream' tokens' hshow hb).bind fun _ _ => Action.ends_pure _
  · rintro k found stream ⟨tokens', h, rfl, hb⟩
    rw [repeatOnce, Action.ensures_bind]
    refine (ensures_starts rule h).mono ?_ (fun _ _ _ => trivial)
    rintro yes stream' ⟨hshow, -⟩
    cases yes with
    | false => trivial
    | true =>
        simp only [if_true]
        rw [Action.ensures_bind]
        refine (hp rule stream' tokens' hshow).mono ?_ (fun _ _ _ => trivial)
        rintro tree stream'' ⟨rest, hshow', hr⟩
        have := hr.2 ht
        exact ⟨rest.length, this, rest, hshow', rfl, by omega⟩

/-- An element ends if the rules that it parses end on all that is left before them. -/
theorem Ranked.ends_parseElement (hg : Ranked grammar rank takes)
    (hp : Follows (Shrinks takes) F tail parse) {element : Element}
    (ha : element.advances takes = true)
    {stream : TokenStream} {tokens : List Token} (h : stream.Shows tokens tail)
    (he : ∀ rule ∈ element.rules, ∀ stream' tokens', stream'.Shows tokens' tail →
      tokens'.length ≤ tokens.length → (parse rule).Ends stream')
    {budget : Nat} (hn : element.rules ≠ [] → tokens.length < budget) :
    (grammar.parseElement parse budget element).Ends stream := by
  cases element with
  | tree rule =>
      exact (he rule (by simp [Element.rules]) stream tokens h (Nat.le_refl _)).bind
        fun _ _ => Action.ends_pure _
  | choice rules =>
      rw [parseElement, Action.ends_bind]
      refine ⟨ends_choose h (hg.chooseAt_ne_none rules _), (ensures_choose rules h).mono ?_
        (fun _ _ _ => trivial)⟩
      rintro first stream' ⟨hshow, hc⟩
      cases first with
      | none => exact ends_peek.bind fun _ _ => Action.ends_fail _
      | some rule =>
          exact (he rule (mem_of_firstAt hc) stream' tokens hshow (Nat.le_refl _)).bind
            fun _ _ => Action.ends_pure _
  | repeated rule times =>
      cases times with
      | any =>
          exact hg.ends_repetition hp ha h (he rule (by simp [Element.rules]))
            (hn (by simp [Element.rules]))
      | atMostOnce =>
          rw [parseElement, Action.ends_bind]
          refine ⟨ends_starts h (hg.startsAt_ne_none rule _), (ensures_starts rule h).mono ?_
            (fun _ _ _ => trivial)⟩
          rintro yes stream' ⟨hshow, -⟩
          cases yes with
          | false => exact Action.ends_pure _
          | true =>
              exact (he rule (by simp [Element.rules]) stream' tokens hshow (Nat.le_refl _)).bind
                fun _ _ => Action.ends_pure _
  | orEmpty rule =>
      rw [parseElement, Action.ends_bind]
      refine ⟨ends_starts h (hg.startsAt_ne_none rule _), (ensures_starts rule h).mono ?_
        (fun _ _ _ => trivial)⟩
      rintro yes stream' ⟨hshow, -⟩
      cases yes with
      | false => exact (Action.ends_ofExcept _).bind fun _ _ => Action.ends_pure _
      | true =>
          exact (he rule (by simp [Element.rules]) stream' tokens hshow (Nat.le_refl _)).bind
            fun _ _ => Action.ends_pure _
  | token wanted kind =>
      refine ends_next.bind fun token _ => ?_
      split
      · exact (Action.ends_ofExcept _).bind fun _ _ => Action.ends_pure _
      · exact Action.ends_fail _
  | literal texts keep =>
      refine ends_next.bind fun token _ => ?_
      split
      · cases keep with
        | true => exact (Action.ends_ofExcept _).bind fun _ _ => Action.ends_pure _
        | false => exact Action.ends_pure _
      · exact Action.ends_fail _
  | ahead texts =>
      refine ends_peek.bind fun token _ => ?_
      split
      · exact Action.ends_pure _
      · exact Action.ends_fail _
  | expression factor operators kind =>
      refine Action.Ends.bind ?_ fun _ _ => Action.ends_pure _
      have hmem : factor ∈ Element.rules (.expression factor operators kind) := by
        simp [Element.rules]
      refine ends_expression (P := fun tokens' => tokens'.length ≤ tokens.length) ?_
        (fun stream tokens hs => hp factor stream tokens hs) ?_ h
        (he factor hmem stream tokens h (Nat.le_refl _)) ?_ (hn (by simp [Element.rules]))
      · intro operator precedence tokens' tree rest _ hl hr
        have := hr.1.length_le
        simp only [List.length_cons] at hl
        omega
      · intro stream' operator precedence tokens' hshow _ hl
        simp only [List.length_cons] at hl
        exact he factor hmem stream' tokens' hshow (by omega)
      · intro tree rest hr
        exact ⟨hr.1.length_le, hr.1.length_le⟩

/-- Elements end if their rules are below a rank until a token is taken, or if a token has
been taken. -/
theorem Ranked.ends_parseElements (hg : Ranked grammar rank takes)
    (hp : Follows (Shrinks takes) F tail parse) {n : Nat} (bound : Nat)
    (he : ∀ id stream tokens, stream.Shows tokens tail →
      (grammar.rules.size + 1) * tokens.length + rank id < n → (parse id).Ends stream) :
    ∀ (elements : List Element) (stream : TokenStream) (tokens : List Token),
      (∀ element ∈ elements, element.advances takes = true) →
      stream.Shows tokens tail →
      (Grammar.descends rank takes bound elements = true ∧
        (grammar.rules.size + 1) * tokens.length + bound ≤ n ∨
        (grammar.rules.size + 1) * tokens.length + (grammar.rules.size + 1) ≤ n) →
      (grammar.parseElements parse n elements).Ends stream
  | [], _, _, _, _, _ => Action.ends_pure _
  | element :: elements, stream, tokens, ha, h, hn => by
      have hrank : ∀ rule ∈ element.rules,
          (grammar.rules.size + 1) * tokens.length + rank rule < n := by
        intro rule hr
        rcases hn with ⟨hd, hn⟩ | hn
        · simp only [Grammar.descends, Bool.and_eq_true, List.all_eq_true] at hd
          have := of_decide_eq_true (hd.1 rule hr)
          omega
        · have := hg.rank_le rule
          omega
      rw [parseElements, Action.ends_bind]
      refine ⟨?_, ?_⟩
      · refine hg.ends_parseElement hp (ha element List.mem_cons_self) h ?_ ?_
        · intro rule hr stream' tokens' h' hl
          have := Nat.mul_le_mul_left (grammar.rules.size + 1) hl
          have := hrank rule hr
          exact he rule stream' tokens' h' (by omega)
        · intro hne
          obtain ⟨rule, hr⟩ := List.exists_mem_of_ne_nil _ hne
          have := Nat.le_mul_of_pos_left tokens.length (show 0 < grammar.rules.size + 1 by omega)
          have := hrank rule hr
          omega
      · refine Action.Ensures.mono (meets_parseElement hp n element h) ?_ (fun _ _ _ => trivial)
        rintro trees stream' ⟨rest, hshow, hr⟩
        refine Action.Ends.bind ?_ fun _ _ => Action.ends_pure _
        refine hg.ends_parseElements hp bound he elements stream' rest
          (fun element he => ha element (List.mem_cons_of_mem _ he)) hshow ?_
        have hl := Nat.mul_le_mul_left (grammar.rules.size + 1) (hr.suffix trims_shrinks).length_le
        rcases hn with ⟨hd, hn⟩ | hn
        · simp only [Grammar.descends, Bool.and_eq_true, Bool.or_eq_true] at hd
          rcases hd.2 with ht | hd
          · have := Nat.mul_le_mul_left (grammar.rules.size + 1) (hr.length_lt ht)
            rw [Nat.mul_succ] at this
            exact .inr (by omega)
          · exact .inl ⟨hd, by omega⟩
        · exact .inr (by omega)

/-- The budget bounds a number that goes down on each way from a rule to another one: by the rank as
long as no token is taken, and by all ranks at once with each token. -/
theorem Ranked.ends_parseWithin (hg : Ranked grammar rank takes) :
    ∀ (n : Nat) (id : RuleId) (stream : TokenStream) (tokens : List Token),
      stream.Shows tokens tail →
      (grammar.rules.size + 1) * tokens.length + rank id < n →
      (grammar.parseWithin n id).Ends stream
  | 0, _, _, _, _, hn => absurd hn (Nat.not_lt_zero _)
  | n + 1, id, stream, tokens, h, hn => by
      rw [parseWithin, parseRule, Action.ends_bind]
      refine ⟨Action.ends_tell _, ?_⟩
      rw [Action.ensures_tell]
      refine Action.Ends.bind ?_ fun _ _ => Action.ends_ofExcept _
      exact hg.ends_parseElements (hg.follows_shrinks tail n) (rank id) (hg.ends_parseWithin n)
        (grammar.rule id).elements stream tokens (hg.advances id) h
        (.inl ⟨hg.descends id, by omega⟩)

/-- Parsing ends within its budget. -/
theorem Ranked.ends_parse (hg : Ranked grammar rank takes) (id : RuleId) (stream : TokenStream) :
    (grammar.parse id).Ends stream := by
  obtain ⟨tokens, tail, h⟩ := stream.exists_shows
  refine hg.ends_parseWithin (grammar.budget stream) id stream tokens h ?_
  have hl := Nat.mul_le_mul_left (grammar.rules.size + 1) h.length_le_bound
  have hr := hg.rank_le id
  rw [budget, Nat.mul_add]
  omega

end Rules

/-! ## Checking a table -/

/-- A grammar is ranked if each rule of its table is in order and nothing is said of other
rules. -/
theorem ranked_of_table (outside : ∀ id, grammar.rules.size ≤ id → rank id = 0 ∧ takes id = false)
    (inside : ∀ id < grammar.rules.size,
      rank id ≤ grammar.rules.size ∧ (grammar.rule id).ranked rank takes id = true) :
    Ranked grammar rank takes := by
  refine ⟨fun id => ?_, fun id => ?_⟩
  · rcases Nat.lt_or_ge id grammar.rules.size with h | h
    · exact (inside id h).1
    · rw [(outside id h).1]
      exact Nat.zero_le _
  · rcases Nat.lt_or_ge id grammar.rules.size with h | h
    · exact (inside id h).2
    · rw [rule_of_size_le h]
      simp [Rule.ranked, Rule.plain, Grammar.descends, (outside id h).2]

end

end Grammar

end TreeScript
