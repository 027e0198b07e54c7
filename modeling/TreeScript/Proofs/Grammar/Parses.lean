import TreeScript.Proofs.Grammar.Local

/-!
# What is read is parsed

The relations on lists of tokens say which trees the rules of a grammar give. Parsing gives no other
ones, within any budget. Conversely, what the rules read is parsed: from some budget on, and so
within the budget of the stream (`Parses.exists_gives`). A rule is parsed to the tree of what its
elements read if the rules in it are (`closed_parses`).

Whether a rule could start has an answer as soon as any budget gives one: the budget for this is as
large as the table, and each step of it answers for one more rule or for no more at all
(`startsAt_of_within`).
-/

namespace TreeScript

namespace Grammar

open TokenStream

variable {grammar : Grammar} {token : Token} {rule : RuleId} {n m : Nat} {yes : Bool}

/-! ## Answers within a budget -/

/-- An answer within some steps is the answer within more. -/
theorem startsAtWithin_mono (hle : n ≤ m)
    (h : grammar.startsAtWithin token n rule = some yes) :
    grammar.startsAtWithin token m rule = some yes := by
  induction n generalizing m rule yes with
  | zero => cases h
  | succ n ih =>
      obtain ⟨m, rfl⟩ := Nat.exists_eq_succ_of_ne_zero (Nat.ne_zero_of_lt hle)
      rw [startsAtWithin] at h ⊢
      cases helements : (grammar.rule rule).elements with
      | nil =>
          rw [helements] at h
          exact h
      | cons element elements =>
          rw [helements] at h
          exact elementStartsAt_of_forall (fun _ => rfl)
            (fun _ _ _ => ih (Nat.le_of_succ_le_succ hle)) h

/-- A rule beyond the table has no elements, so it could start anywhere. -/
theorem startsAtWithin_of_size_le (h : grammar.rules.size ≤ rule) :
    grammar.startsAtWithin token (n + 1) rule = some true := by
  rw [startsAtWithin, rule_of_size_le h]
  rfl

/-- The rules of the table that have an answer within a budget. -/
def answered (grammar : Grammar) (token : Token) (n : Nat) : Finset RuleId :=
  (Finset.range grammar.rules.size).filter fun rule =>
    (grammar.startsAtWithin token n rule).isSome

/-- With more steps at least as many rules have answers. -/
theorem answered_mono (hle : n ≤ m) : grammar.answered token n ⊆ grammar.answered token m := by
  intro rule hmem
  obtain ⟨hrule, hsome⟩ := Finset.mem_filter.1 hmem
  obtain ⟨yes, hyes⟩ := Option.isSome_iff_exists.1 hsome
  refine Finset.mem_filter.2 ⟨hrule, ?_⟩
  rw [startsAtWithin_mono hle hyes]
  rfl

/-- If no more rules have an answer within a larger budget, the answers are the same. -/
theorem startsAtWithin_eq_of_card_eq (hle : n ≤ m)
    (h : (grammar.answered token (n + 1)).card = (grammar.answered token (m + 1)).card) :
    grammar.startsAtWithin token (m + 1) = grammar.startsAtWithin token (n + 1) := by
  have hsame : grammar.answered token (n + 1) = grammar.answered token (m + 1) :=
    Finset.eq_of_subset_of_card_le (answered_mono (by omega)) (Nat.le_of_eq h.symm)
  funext rule
  rcases Nat.lt_or_ge rule grammar.rules.size with hrule | hrule
  · cases hm : grammar.startsAtWithin token (m + 1) rule with
    | none =>
        cases hn : grammar.startsAtWithin token (n + 1) rule with
        | none => rfl
        | some yes =>
            rw [startsAtWithin_mono (by omega) hn] at hm
            cases hm
    | some yes =>
        have hmem : rule ∈ grammar.answered token (m + 1) := by
          refine Finset.mem_filter.2 ⟨Finset.mem_range.2 hrule, ?_⟩
          rw [hm]
          rfl
        rw [← hsame] at hmem
        obtain ⟨yes', hyes'⟩ := Option.isSome_iff_exists.1 (Finset.mem_filter.1 hmem).2
        rw [hyes', ← hm]
        exact startsAtWithin_mono (Nat.succ_le_succ hle) hyes'
  · rw [startsAtWithin_of_size_le hrule, startsAtWithin_of_size_le hrule]

/-- The answer within any budget is the answer. Answers that stay for one step stay for good, since
the next ones are worked out from the same. -/
theorem startsAt_of_within (h : grammar.startsAtWithin token n rule = some yes) :
    grammar.startsAt rule token = some yes := by
  let count : Nat → Nat := fun i => (grammar.answered token (i + 1)).card
  have hmono : Monotone count := fun i j hij => Finset.card_le_card (answered_mono (by omega))
  have hbound : ∀ i, count i ≤ grammar.rules.size := by
    intro i
    have hcard := Finset.card_filter_le (Finset.range grammar.rules.size) fun rule =>
      (grammar.startsAtWithin token (i + 1) rule).isSome = true
    rwa [Finset.card_range] at hcard
  have hstable : ∀ i, count i = count (i + 1) → count (i + 1) = count (i + 2) := by
    intro i hi
    have hsame := startsAtWithin_eq_of_card_eq (Nat.le_succ i) hi
    have hnext : grammar.startsAtWithin token (i + 3) = grammar.startsAtWithin token (i + 2) := by
      funext rule
      rw [startsAtWithin, startsAtWithin, hsame]
    show (grammar.answered token (i + 2)).card = (grammar.answered token (i + 3)).card
    rw [answered, answered, hnext]
  have hcount : count (grammar.rules.size + n) = count grammar.rules.size :=
    Nat.stabilises_of_monotone hmono hbound hstable (Nat.le_add_right _ n)
  have hsame := startsAtWithin_eq_of_card_eq (Nat.le_add_right _ n) hcount.symm
  rw [startsAt, ← hsame]
  exact startsAtWithin_mono (by omega) h

/-! ## Parsers that give a value -/

section Runs

variable {α β : Type} {x : Parser α} {f : α → Parser β} {a : α} {b : β}
  {tokens middle rest : List Token}

/-- On streams that hold `tokens` and no fault, the parser gives `a` and leaves `rest`. -/
def Runs (x : Parser α) (tokens : List Token) (a : α) (rest : List Token) : Prop :=
  ∀ s, s.Shows tokens [] → ∃ t, x.Gives s a t ∧ t.Shows rest []

theorem runs_pure (a : α) (tokens : List Token) : Runs (pure a) tokens a tokens :=
  fun s hs => ⟨s, Action.gives_pure a, hs⟩

/-- What follows runs on what the first part leaves. -/
theorem Runs.bind (h : Runs x tokens a middle) (hf : Runs (f a) middle b rest) :
    Runs (x >>= f) tokens b rest := by
  intro s hs
  obtain ⟨t, hx, ht⟩ := h s hs
  obtain ⟨u, hu, hrest⟩ := hf t ht
  exact ⟨u, hx.bind hu, hrest⟩

/-- A value that is put in a list. -/
theorem Runs.map {g : α → β} (h : Runs x tokens a rest) :
    Runs (do return g (← x)) tokens (g a) rest := h.bind (runs_pure _ _)

theorem runs_tell (event : Event) (tokens : List Token) :
    Runs (Action.tell event) tokens () tokens :=
  fun s hs => ⟨s, ⟨_, rfl⟩, hs⟩

theorem runs_next (token : Token) (rest : List Token) : Runs next (token :: rest) token rest :=
  fun _ hs => exists_gives_next hs

theorem runs_peek (token : Token) (rest : List Token) :
    Runs (peek 0) (token :: rest) token (token :: rest) := fun _ hs => exists_gives_peek hs

/-- The answer at the next token is the one that the parser gives. -/
theorem runs_starts (h : grammar.startsAt rule (front tokens) = some yes) :
    Runs (grammar.starts rule) tokens yes tokens :=
  fun _ hs => exists_gives_starts_of_shows hs (fun _ => rfl) h

/-- The choice at the next token is the one that the parser makes. -/
theorem runs_choose {rules : List RuleId} {first : Option RuleId}
    (h : grammar.chooseAt rules (front tokens) = some first) :
    Runs (grammar.choose rules) tokens first tokens :=
  fun _ hs => exists_gives_choose_of_shows hs (fun _ => rfl) h

theorem runs_nextOperator (operators : Operators) (tokens : List Token) :
    Runs (nextOperator operators) tokens (operators.ofToken? (front tokens)) tokens :=
  fun _ hs => exists_gives_of_readable (ensures_nextOperator hs)
    (ends_peek.bind fun _ _ => Action.ends_pure _) fun _ => rfl

end Runs

/-! ## Expressions -/

/-- From some budget on the rule is parsed to the tree. -/
def Parses (grammar : Grammar) : Success := fun rule tokens tree rest =>
  ∃ n, ∀ m, n ≤ m → Runs (grammar.parseWithin m rule) tokens tree rest

section Chains

variable {R : Success} {factor : RuleId} {operators : Operators} {takes takes' : Precedence → Bool}
  {tokens rest : List Token} {links : List Link}

/-- A chain is cut where a link comes that some stricter test does not take. -/
theorem Chains.split (h : Chains R factor operators takes tokens links rest)
    (hs : ∀ precedence, takes' precedence = true → takes precedence = true) :
    ∃ middle, Chains R factor operators takes' tokens
        (links.takeWhile fun link => takes' link.precedence) middle ∧
      Chains R factor operators takes middle
        (links.dropWhile fun link => takes' link.precedence) rest := by
  induction h with
  | @done tokens hstop =>
      refine ⟨tokens, .done fun precedence hp => ?_, .done hstop⟩
      cases ht : takes' precedence with
      | false => rfl
      | true =>
          rw [← hstop precedence hp, hs precedence ht]
  | @more operator precedence operand tokens tokens' rest links hop ht hr hc ih =>
      cases ht' : takes' precedence with
      | true =>
          obtain ⟨middle, hfirst, hsecond⟩ := ih
          refine ⟨middle, ?_, ?_⟩
          · simp only [List.takeWhile_cons, ht', if_true]
            exact .more hop ht' hr hfirst
          · simp only [List.dropWhile_cons, ht', if_true]
            exact hsecond
      | false =>
          refine ⟨operator :: tokens, ?_, ?_⟩
          · simp only [List.takeWhile_cons, ht', Bool.false_eq_true, if_false]
            refine .done fun precedence' hp => ?_
            rw [front_cons, hop] at hp
            cases hp
            exact ht'
          · simp only [List.dropWhile_cons, ht', Bool.false_eq_true, if_false]
            exact .more hop ht hr hc

/-- A chain is climbed, within every budget that is large enough. The induction is on the length,
since the links that the first one lends to and those after them are shorter chains. -/
theorem exists_runs_fold {kind : Tree.Kind} {branchKind : Tree.BranchKind}
    (hk : kind = .branch branchKind ∨ links = [])
    (ht : ∀ p q, takes p = true → q.takesOperandOf p.value = true → takes q = true)
    (h : Chains (Parses grammar) factor operators takes tokens links rest) :
    ∃ n, ∀ m j k, n ≤ m → n ≤ j → n ≤ k → ∀ left,
      Runs (Action.iterate (foldOperator operators takes
        (shift (grammar.parseWithin m factor) operators kind j)) k left)
        tokens (climb branchKind left links) rest := by
  induction hlength : links.length using Nat.strongRecOn
    generalizing takes tokens links rest with
  | _ length ih =>
      subst hlength
      cases h with
      | done hstop =>
          refine ⟨1, fun m j k _ _ hk left => ?_⟩
          obtain ⟨k, rfl⟩ := Nat.exists_eq_succ_of_ne_zero (Nat.ne_zero_of_lt hk)
          rw [Action.iterate_succ, climb]
          refine Runs.bind (a := .inr left) ?_ (runs_pure _ _)
          refine (runs_nextOperator operators tokens).bind ?_
          cases hnext : operators.ofToken? (front tokens) with
          | none => exact runs_pure _ _
          | some precedence =>
              dsimp only
              rw [hstop precedence hnext]
              exact runs_pure _ _
      | @more operator precedence operand tokens tokens' _ links hop htakes hr hc =>
          obtain rfl : kind = .branch branchKind := hk.resolve_right (List.cons_ne_nil _ _)
          let link : Link := ⟨operator, precedence, operand⟩
          obtain ⟨middle, hdrawn, hlater⟩ := hc.split fun q hq => ht precedence q htakes hq
          have hshort : (links.takeWhile link.lends).length < (link :: links).length :=
            Nat.lt_succ_of_le (List.takeWhile_prefix _).length_le
          have hshort' : (links.dropWhile link.lends).length < (link :: links).length :=
            Nat.lt_succ_of_le (List.dropWhile_suffix _).length_le
          obtain ⟨n₁, hoperand⟩ := hr
          obtain ⟨n₂, hdrawn⟩ := ih _ hshort (.inl rfl)
            (fun p q hp hq => takesOperandOf_trans hq hp) hdrawn rfl
          obtain ⟨n₃, hlater⟩ := ih _ hshort' (.inl rfl) ht hlater rfl
          refine ⟨n₁ + n₂ + n₃ + 1, fun m j k hm hj hk left => ?_⟩
          obtain ⟨j, rfl⟩ := Nat.exists_eq_succ_of_ne_zero (Nat.ne_zero_of_lt hj)
          obtain ⟨k, rfl⟩ := Nat.exists_eq_succ_of_ne_zero (Nat.ne_zero_of_lt hk)
          have hshift : Runs (shift (grammar.parseWithin m factor) operators (.branch branchKind)
              (j + 1) left precedence.value) (operator :: tokens)
              (.branch branchKind [left, .leaf .plain operator,
                climb branchKind operand (links.takeWhile link.lends)]) middle := by
            rw [shift, ← group_three]
            refine (runs_next operator tokens).bind (Runs.bind (runs_pure _ _) ?_)
            refine (hoperand m (by omega)).bind ?_
            exact (hdrawn m j j (by omega) (by omega) (by omega) operand).bind (runs_pure _ _)
          rw [Action.iterate_succ, climb]
          refine Runs.bind (a := .inl _) ?_ (hlater m (j + 1) k (by omega) (by omega) (by omega) _)
          refine (runs_nextOperator operators (operator :: tokens)).bind ?_
          rw [front_cons, hop]
          dsimp only
          rw [if_pos htakes]
          exact hshift.map

end Chains

/-! ## Elements and rules -/

section Elements

variable {tokens rest : List Token} {trees : List Tree}

/-- A repetition runs with some budget and with each larger one. The induction is on what is
repeated. -/
theorem exists_runs_repetition (h : Repeats grammar (Parses grammar) rule tokens trees rest) :
    ∃ n, ∀ m k, n ≤ m → n ≤ k → ∀ found,
      Runs (Action.iterate (grammar.repeatOnce (grammar.parseWithin m) rule) k found)
        tokens (found.reverse ++ trees) rest := by
  induction h with
  | done hno =>
      refine ⟨1, fun m k _ hk found => ?_⟩
      obtain ⟨k, rfl⟩ := Nat.exists_eq_succ_of_ne_zero (Nat.ne_zero_of_lt hk)
      rw [Action.iterate_succ, List.append_nil]
      refine Runs.bind (a := .inr found.reverse) ?_ (runs_pure _ _)
      exact (runs_starts hno).bind (runs_pure _ _)
  | @more tokens tokens' rest tree trees hyes hr _ ih =>
      obtain ⟨n₁, hparse⟩ := hr
      obtain ⟨n₂, hmore⟩ := ih
      refine ⟨n₁ + n₂ + 1, fun m k hm hk found => ?_⟩
      obtain ⟨k, rfl⟩ := Nat.exists_eq_succ_of_ne_zero (Nat.ne_zero_of_lt hk)
      have hturn : Runs (grammar.repeatOnce (grammar.parseWithin m) rule found) tokens
          (.inl (unlessEmpty tree ++ found)) tokens' :=
        (runs_starts hyes).bind (hparse m (by omega)).map
      have hlist : (unlessEmpty tree ++ found).reverse ++ trees =
          found.reverse ++ (unlessEmpty tree ++ trees) := by
        unfold unlessEmpty
        cases tree.isEmptyList with
        | true => simp
        | false => simp
      rw [Action.iterate_succ, ← hlist]
      exact hturn.bind (hmore m k (by omega) (by omega) _)

/-- An element runs with some budget and with each larger one. -/
theorem exists_runs_element {element : Element}
    (h : Reads grammar (Parses grammar) element tokens trees rest) :
    ∃ n, ∀ m, n ≤ m →
      Runs (grammar.parseElement (grammar.parseWithin m) m element) tokens trees rest := by
  cases h with
  | tree hr =>
      obtain ⟨n, hparse⟩ := hr
      exact ⟨n, fun m hm => (hparse m hm).map⟩
  | choice hchoose hr =>
      obtain ⟨n, hparse⟩ := hr
      exact ⟨n, fun m hm => (runs_choose hchoose).bind (hparse m hm).map⟩
  | many hr =>
      obtain ⟨n, hrepeat⟩ := exists_runs_repetition hr
      exact ⟨n, fun m hm => hrepeat m m hm hm []⟩
  | never hno => exact ⟨0, fun m _ => (runs_starts hno).bind (runs_pure _ _)⟩
  | once hyes hr =>
      obtain ⟨n, hparse⟩ := hr
      exact ⟨n, fun m hm => (runs_starts hyes).bind (hparse m hm).map⟩
  | empty hno hkind =>
      refine ⟨0, fun m _ => (runs_starts hno).bind ?_⟩
      rw [if_neg Bool.false_ne_true, hkind]
      exact Runs.bind (runs_pure _ _) (runs_pure _ _)
  | filled hyes hr =>
      obtain ⟨n, hparse⟩ := hr
      exact ⟨n, fun m hm => (runs_starts hyes).bind (hparse m hm).map⟩
  | @token wanted kind token rest haccept =>
      refine ⟨0, fun m _ => (runs_next token rest).bind ?_⟩
      rw [if_pos haccept]
      exact Runs.bind (runs_pure _ _) (runs_pure _ _)
  | @dropped texts token rest hliteral =>
      refine ⟨0, fun m _ => (runs_next token rest).bind ?_⟩
      rw [if_pos hliteral]
      exact runs_pure _ _
  | @kept texts token rest hliteral =>
      refine ⟨0, fun m _ => (runs_next token rest).bind ?_⟩
      rw [if_pos hliteral]
      exact Runs.bind (runs_pure _ _) (runs_pure _ _)
  | @ahead texts tokens hliteral =>
      cases tokens with
      | nil => cases hliteral
      | cons token tokens =>
          rw [front_cons] at hliteral
          refine ⟨0, fun m _ => (runs_peek token tokens).bind ?_⟩
          rw [if_pos hliteral]
          exact runs_pure _ _
  | @expression factor operators kind branchKind tokens tokens' rest operand links hk hr hc =>
      obtain ⟨n₁, hoperand⟩ := hr
      obtain ⟨n₂, hfold⟩ := exists_runs_fold hk (fun _ _ _ _ => rfl) hc
      refine ⟨n₁ + n₂, fun m hm => Runs.map ?_⟩
      exact (hoperand m (by omega)).bind (hfold m m m (by omega) (by omega) (by omega) operand)

/-- Elements run with a budget that is enough for each of them. -/
theorem exists_runs_elements {elements : List Element}
    (h : ReadsAll grammar (Parses grammar) elements tokens trees rest) :
    ∃ n, ∀ m, n ≤ m →
      Runs (grammar.parseElements (grammar.parseWithin m) m elements) tokens trees rest := by
  induction h with
  | nil => exact ⟨0, fun m _ => runs_pure _ _⟩
  | cons hr _ ih =>
      obtain ⟨n₁, hfirst⟩ := exists_runs_element hr
      obtain ⟨n₂, hothers⟩ := ih
      exact ⟨n₁ + n₂, fun m hm => (hfirst m (by omega)).bind (hothers m (by omega)).map⟩

end Elements

/-- A rule is parsed to the tree of what its elements read, if the rules in it are. -/
theorem closed_parses (grammar : Grammar) : Closed grammar (Parses grammar) := by
  intro rule kind tokens trees rest hkind h
  obtain ⟨n, helements⟩ := exists_runs_elements h
  refine ⟨n + 1, fun m hm => ?_⟩
  obtain ⟨m, rfl⟩ := Nat.exists_eq_succ_of_ne_zero (Nat.ne_zero_of_lt hm)
  rw [parseWithin, parseRule, hkind]
  refine (runs_tell _ tokens).bind ?_
  exact (helements m (by omega)).bind (runs_pure _ _)

/-- What is parsed from some budget on is parsed within the budget of the stream. -/
theorem Parses.exists_gives {tokens rest : List Token} {tree : Tree} {s : TokenStream}
    (h : Parses grammar rule tokens tree rest) (hs : s.Shows tokens []) :
    ∃ t, (grammar.parse rule).Gives s tree t ∧ t.Shows rest [] := by
  obtain ⟨n, hruns⟩ := h
  obtain ⟨t, hg, ht⟩ := hruns n (Nat.le_refl n) s hs
  obtain ⟨t', hg', hitems⟩ := (local_gives_parse hg).of_items_eq rfl
  exact ⟨t', hg', hitems.trans ht.1, ht.2⟩

end Grammar

end TreeScript
