import TreeScript.Language
import TreeScript.Proofs.Grammar.Heeds
import TreeScript.Proofs.Grammar.InsertChoice

/-!
# Commitment

A choice takes the first rule that could start and does not come back. An option, a repetition and a
rule that may be empty go by the same question. So a rule that would have parsed has to be one that
could start. Otherwise valid input would be refused.

This holds of a rule unless it may be read where it could not start, as a rule may that begins with
a repetition (`ParsesFrom.exists_gives_starts`). Parsing and asking recurse separately. The proof is
by the budget of parsing: the first element is parsed where the rule begins, and what it is asked
there the rule is asked. The converse does not hold, since a rule that could start may fail later.

If no rule of a grammar begins with a repetition, nothing that would have parsed is passed over
(`committed_of_opensFirmly`). Questions look ahead, so a later alternative is asked of another
stream than the first one. It hands out the same.
-/

namespace TreeScript

namespace Grammar

open TokenStream

variable {grammar : Grammar} {rule : RuleId} {rules : List RuleId} {s t u : TokenStream} {n m : Nat}
  {yes : Bool} {tree : Tree}

/-! ## The budget of asking is enough -/

/-- If questions keep their answers, so does the question for the first rule. -/
theorem firstOf_eq_of_ends {question question' : RuleId → Parser Bool}
    (h : ∀ rule s, (question rule).Ends s → question' rule s = question rule s)
    (hends : (firstOf question rules).Ends s) :
    firstOf question' rules s = firstOf question rules s := by
  induction rules generalizing s with
  | nil => rfl
  | cons rule rules ih =>
      rw [firstOf, Action.ends_bind] at hends
      have hrule := h rule s hends.1
      rw [firstOf, firstOf]
      cases hq : question rule s with
      | value yes t journal =>
          rw [Action.bind_of_value _ hq, Action.bind_of_value _ (hrule.trans hq)]
          have hrest := hends.2.of_gives ⟨journal, hq⟩
          cases yes with
          | true => rfl
          | false => rw [if_neg Bool.false_ne_true, if_neg Bool.false_ne_true, ih hrest]
      | error e t journal =>
          rw [Action.bind_of_error _ hq, Action.bind_of_error _ (hrule.trans hq)]
      | unfinished => exact absurd hq hends.1

/-- Within a larger budget a question does the same. -/
theorem startsWithin_eq_of_ends (hle : n ≤ m) (h : (grammar.startsWithin n rule).Ends s) :
    grammar.startsWithin m rule s = grammar.startsWithin n rule s := by
  induction n generalizing m rule s with
  | zero => exact absurd rfl h
  | succ n ih =>
      obtain ⟨m, rfl⟩ := Nat.exists_eq_succ_of_ne_zero (Nat.ne_zero_of_lt hle)
      have hask : ∀ rule s, (grammar.startsWithin n rule).Ends s →
          grammar.startsWithin m rule s = grammar.startsWithin n rule s :=
        fun _ _ => ih (Nat.le_of_succ_le_succ hle)
      rw [startsWithin] at h
      rw [startsWithin, startsWithin]
      cases helements : (grammar.rule rule).elements with
      | nil => rfl
      | cons element elements =>
          rw [helements] at h
          cases element with
          | tree other | repeated other | expression other => exact hask other s h
          | choice others =>
              have hfirst := firstOf_eq_of_ends hask (Action.ends_bind.1 h).1
              have hnothing : firstOf (grammar.startsWithin m) others s =
                  (firstOf (grammar.startsWithin n) others s).after [] :=
                hfirst.trans (Outcome.after_nil _).symm
              have hsame := Action.bind_of_after hnothing
                (fun found : Option RuleId => (pure found.isSome : Parser Bool))
              rwa [Outcome.after_nil] at hsame
          | orEmpty | token | literal | ahead => rfl

/-- What a question answers within some budget it answers. -/
theorem gives_starts_of_within (h : (grammar.startsWithin n rule).Gives s yes t) :
    (grammar.starts rule).Gives s yes t := by
  obtain ⟨tokens, tail, hs⟩ := s.exists_shows
  have hyes := startsAt_of_within ((answers_startsWithin n rule s hs).of_gives h).2
  have hends : (grammar.starts rule).Ends s := by
    refine ends_starts hs ?_
    rw [hyes]
    exact Option.some_ne_none yes
  have hlarge := startsWithin_eq_of_ends (Nat.le_max_left n (grammar.rules.size + 1)) h.ends
  rw [startsWithin_eq_of_ends (Nat.le_max_right n (grammar.rules.size + 1)) hends] at hlarge
  obtain ⟨journal, h⟩ := h
  exact ⟨journal, hlarge.trans h⟩

/-! ## Rules that parse could start -/

/-- A token that is taken could have been looked at. -/
theorem exists_gives_peek_of_next {token : Token} (h : next.Gives s token t) :
    ∃ u, (peek 0).Gives s token u := by
  obtain ⟨_, u, hfill, htoken⟩ := h.of_mapError.of_bind
  obtain ⟨journal, htoken⟩ := htoken
  have hpeek : (TokenStream.peek 0).Gives s token u := by
    refine hfill.bind ⟨[], ?_⟩
    obtain ⟨queue, pending, line⟩ := u
    cases queue with
    | nil | cons =>
        cases htoken
        rfl
  exact ⟨u, hpeek.mapError ParseError.read⟩

/-- If the first token fits, the question whether it does is answered with yes. -/
theorem exists_gives_question {α : Type} {question : Token → Bool} {f : Token → Parser α}
    {fault : Token → ParseError} {a : α}
    (h : (do
      let token ← next
      if question token then f token else Action.fail (fault token)).Gives s a t) :
    ∃ u, (return question (← peek 0) : Parser Bool).Gives s true u := by
  obtain ⟨token, _, htoken, hchecked⟩ := h.of_bind
  obtain ⟨u, hpeek⟩ := exists_gives_peek_of_next htoken
  split at hchecked
  · next hyes =>
      rw [← hyes]
      exact ⟨u, hpeek.bind (Action.gives_pure _)⟩
  · obtain ⟨journal, hchecked⟩ := hchecked
    cases hchecked

/-- The rule that an element is parsed by from where it begins, whatever comes next. -/
def Element.opening? : Element → Option RuleId
  | .tree rule => some rule
  | .expression factor _ _ => some factor
  | _ => none

/-- If an element is parsed that is no repetition, it could start. -/
theorem exists_gives_elementStarts {parse : RuleId → Parser Tree} {element : Element}
    {trees : List Tree} (hrepeated : ∀ other times, element ≠ .repeated other times)
    (hopening : ∀ other tree t, element.opening? = some other → (parse other).Gives s tree t →
      ∃ m u, (grammar.startsWithin m other).Gives s true u)
    (h : (grammar.parseElement parse n element).Gives s trees t) :
    ∃ m u, (grammar.elementStarts (grammar.startsWithin m) element).Gives s true u := by
  cases element with
  | tree other =>
      obtain ⟨tree, w, hother, -⟩ := h.of_bind
      exact hopening other tree w rfl hother
  | expression factor operators kind =>
      obtain ⟨_, _, hwhole, -⟩ := h.of_bind
      obtain ⟨left, w, hfactor, -⟩ := hwhole.of_bind
      exact hopening factor left w rfl hfactor
  | repeated other times => exact absurd rfl (hrepeated other times)
  | choice others =>
      obtain ⟨chosen, u, hchoose, hafter⟩ := h.of_bind
      cases chosen with
      | some other => exact ⟨grammar.rules.size + 1, u, hchoose.bind (Action.gives_pure _)⟩
      | none =>
          obtain ⟨_, _, -, journal, hfail⟩ := hafter.of_bind
          cases hfail
  | orEmpty other => exact ⟨0, s, Action.gives_pure true⟩
  | token wanted kind => exact ⟨0, exists_gives_question h⟩
  | literal texts keep => exact ⟨0, exists_gives_question h⟩
  | ahead texts =>
      obtain ⟨token, u, hpeek, hchecked⟩ := h.of_bind
      split at hchecked
      · next hyes =>
          rw [← hyes]
          exact ⟨0, u, hpeek.bind (Action.gives_pure _)⟩
      · obtain ⟨journal, hchecked⟩ := hchecked
        cases hchecked

/-- If a rule is parsed, some budget is enough to find that it could start, unless it may be read
where it could not. What its first element is asked is asked of the rule. -/
theorem exists_gives_startsWithin (hskip : ¬ MaySkip grammar rule)
    (h : (grammar.parseWithin n rule).Gives s tree t) :
    ∃ m u, (grammar.startsWithin m rule).Gives s true u := by
  induction n generalizing rule tree t with
  | zero =>
      obtain ⟨journal, h⟩ := h
      cases h
  | succ n ih =>
      obtain ⟨_, _, ⟨_, htell⟩, h⟩ := h.of_bind
      cases htell
      obtain ⟨trees, _, htrees, -⟩ := h.of_bind
      cases helements : (grammar.rule rule).elements with
      | nil =>
          refine ⟨1, s, ?_⟩
          rw [startsWithin, helements]
          exact Action.gives_pure true
      | cons element elements =>
          rw [helements] at htrees
          obtain ⟨_, _, hfirst, -⟩ := htrees.of_bind
          obtain ⟨m, u, hasked⟩ :
              ∃ m u, (grammar.elementStarts (grammar.startsWithin m) element).Gives s true u := by
            refine exists_gives_elementStarts ?_ ?_ hfirst
            · rintro other times rfl
              exact hskip (.repeated helements)
            · intro other tree t hopening hother
              refine ih (fun hskip' => hskip ?_) hother
              cases element with
              | tree => cases hopening; exact .tree helements hskip'
              | expression => cases hopening; exact .expression helements hskip'
              | choice | repeated | orEmpty | token | literal | ahead => cases hopening
          refine ⟨m + 1, u, ?_⟩
          rw [startsWithin, helements]
          exact hasked

/-- The rule parses from here. -/
def ParsesFrom (grammar : Grammar) (rule : RuleId) (s : TokenStream) : Prop :=
  ∃ tree t, (grammar.parse rule).Gives s tree t

/-- A rule that parses could start, unless it may be read where it could not. -/
theorem ParsesFrom.exists_gives_starts (h : grammar.ParsesFrom rule s)
    (hskip : ¬ MaySkip grammar rule) : ∃ u, (grammar.starts rule).Gives s true u := by
  obtain ⟨tree, t, h⟩ := h
  obtain ⟨m, u, hwithin⟩ := exists_gives_startsWithin hskip h
  exact ⟨u, gives_starts_of_within hwithin⟩

/-- A question leaves what the stream hands out. -/
theorem items_of_gives_starts (h : (grammar.starts rule).Gives s yes t) : t.items = s.items :=
  Primed.items_eq ((ensures_primed_startsWithin _ rule s).of_gives h)

theorem ParsesFrom.of_items_eq (h : grammar.ParsesFrom rule s) (hi : t.items = s.items) :
    grammar.ParsesFrom rule t := by
  obtain ⟨tree, u, h⟩ := h
  obtain ⟨v, hv, -⟩ := (local_gives_parse h).of_items_eq hi
  exact ⟨tree, v, hv⟩

/-! ## Rules that are passed over -/

/-- No rule begins with a repetition or an option. -/
def OpensFirmly (grammar : Grammar) : Prop :=
  ∀ rule other times elements, (grammar.rule rule).elements ≠ .repeated other times :: elements

/-- The element is a repetition or an option. -/
def Element.isRepeated : Element → Bool
  | .repeated _ _ => true
  | _ => false

/-- Only the rules of the table need a look. -/
theorem opensFirmly_of_table (h : ∀ rule < grammar.rules.size,
    ((grammar.rule rule).elements.head?.any Element.isRepeated) = false) :
    grammar.OpensFirmly := by
  intro rule other times elements helements
  rcases Nat.lt_or_ge rule grammar.rules.size with hrule | hrule
  · have hfirst := h rule hrule
    rw [helements] at hfirst
    cases hfirst
  · rw [rule_of_size_le hrule] at helements
    cases helements

/-- A rule of such a grammar is read only where it could start. -/
theorem OpensFirmly.not_maySkip (h : grammar.OpensFirmly) : ¬ MaySkip grammar rule := by
  intro hskip
  induction hskip with
  | repeated helements => exact h _ _ _ _ helements
  | tree _ _ ih => exact ih
  | expression _ _ ih => exact ih

/-- A rule that is passed over would not have parsed. -/
theorem OpensFirmly.not_parsesFrom (h : grammar.OpensFirmly)
    (hno : (grammar.starts rule).Gives s false t) : ¬ grammar.ParsesFrom rule s := by
  intro hparses
  obtain ⟨u, hyes⟩ := hparses.exists_gives_starts h.not_maySkip
  cases (hno.unique hyes).1

/-- The rule is one of several, and none before it parses from here. -/
def Unpreceded (grammar : Grammar) (rules : List RuleId) (s : TokenStream) (rule : RuleId) : Prop :=
  ∃ earlier later, rules = earlier ++ rule :: later ∧
    ∀ other ∈ earlier, ¬ grammar.ParsesFrom other s

/-- The rule that is chosen is the first one that could be parsed, and no rule could be parsed if
none is chosen. -/
theorem OpensFirmly.of_gives_choose (h : grammar.OpensFirmly) {found : Option RuleId}
    (hchoose : (grammar.choose rules).Gives s found t) :
    t.items = s.items ∧ (∀ rule, found = some rule → grammar.Unpreceded rules s rule) ∧
      (found = none → ∀ rule ∈ rules, ¬ grammar.ParsesFrom rule s) := by
  induction rules generalizing s with
  | nil =>
      obtain ⟨rfl, rfl⟩ := Action.gives_pure_iff.1 hchoose
      exact ⟨rfl, nofun, fun _ => nofun⟩
  | cons first rules ih =>
      obtain ⟨yes, u, hstarts, hrest⟩ := hchoose.of_bind
      have hu := items_of_gives_starts hstarts
      cases yes with
      | true =>
          obtain ⟨rfl, rfl⟩ := Action.gives_pure_iff.1 hrest
          refine ⟨hu, fun rule heq => ?_, nofun⟩
          cases heq
          exact ⟨[], rules, rfl, nofun⟩
      | false =>
          have hfirst := h.not_parsesFrom hstarts
          obtain ⟨ht, hfound, hnone⟩ := ih hrest
          refine ⟨ht.trans hu, fun rule heq => ?_, fun heq => ?_⟩
          · obtain ⟨earlier, later, hsplit, hno⟩ := hfound rule heq
            refine ⟨first :: earlier, later, congrArg _ hsplit, List.forall_mem_cons.2 ⟨hfirst, ?_⟩⟩
            exact fun other hmem hparses => hno other hmem (hparses.of_items_eq hu)
          · refine List.forall_mem_cons.2 ⟨hfirst, ?_⟩
            exact fun other hmem hparses => hnone heq other hmem (hparses.of_items_eq hu)

/-- A rule that could start is chosen if none before it could. -/
theorem exists_gives_choose_append {earlier later : List RuleId}
    (hearlier : ∀ other ∈ earlier, ∃ u, (grammar.starts other).Gives s false u)
    (hrule : ∃ u, (grammar.starts rule).Gives s true u) :
    ∃ u, (grammar.choose (earlier ++ rule :: later)).Gives s (some rule) u := by
  induction earlier generalizing s with
  | nil =>
      obtain ⟨u, hyes⟩ := hrule
      exact ⟨u, hyes.bind (Action.gives_pure _)⟩
  | cons first earlier ih =>
      obtain ⟨⟨u, hno⟩, hothers⟩ := List.forall_mem_cons.1 hearlier
      have hnext : u.items[0]? = s.items[0]? := by rw [items_of_gives_starts hno]
      obtain ⟨v, hyes⟩ := hrule
      obtain ⟨w, hchoose⟩ := ih
        (fun other hmem =>
          have ⟨_, hother⟩ := hothers other hmem
          exists_gives_starts hother hnext)
        (exists_gives_starts hyes hnext)
      exact ⟨w, hno.bind hchoose⟩

/-! ## Elements that ask -/

/-- A choice gives what one of its rules gives, and those before it would not have parsed. -/
theorem OpensFirmly.of_gives_choice (h : grammar.OpensFirmly) {trees : List Tree}
    (hchoice : (grammar.parseElement (grammar.parseWithin n) n (.choice rules)).Gives s trees t) :
    ∃ rule u tree, grammar.Unpreceded rules s rule ∧ u.items = s.items ∧
      (grammar.parse rule).Gives u tree t ∧ trees = unlessEmpty tree := by
  obtain ⟨found, u, hchoose, hafter⟩ := hchoice.of_bind
  obtain ⟨hu, hfound, -⟩ := h.of_gives_choose hchoose
  cases found with
  | some rule =>
      obtain ⟨tree, v, hparse, hreturn⟩ := hafter.of_bind
      obtain ⟨rfl, rfl⟩ := Action.gives_pure_iff.1 hreturn
      exact ⟨rule, u, tree, hfound rule rfl, hu, gives_parse_of_within hparse, rfl⟩
  | none =>
      obtain ⟨_, _, -, journal, hfail⟩ := hafter.of_bind
      cases hfail

/-- To choose among rules fails for want of a readable token only. -/
theorem exists_read_of_stops_choose {e : ParseError} (h : (grammar.choose rules).Stops s e t) :
    ∃ cause, e = .read cause := by
  obtain ⟨tokens, tail, hs⟩ := s.exists_shows
  obtain ⟨-, cause, -, -, rfl⟩ := (ensures_choose rules hs).of_stops h
  exact ⟨cause, rfl⟩

/-- If a choice fails, the next token cannot be read, or the rule that it has taken fails, or none
of its rules would have parsed. -/
theorem OpensFirmly.of_stops_choice (h : grammar.OpensFirmly) {e : ParseError}
    (hchoice : (grammar.parseElement (grammar.parseWithin n) n (.choice rules)).Stops s e t) :
    (∃ cause, e = .read cause) ∨
    (∃ rule u, grammar.Unpreceded rules s rule ∧ u.items = s.items ∧
      (grammar.parse rule).Stops u e t) ∨
    (∃ token, e = .ofToken token "unexpected token.") ∧
      ∀ rule ∈ rules, ¬ grammar.ParsesFrom rule s := by
  rcases Action.stops_bind_iff.1 hchoice with hchoose | ⟨found, u, hchoose, hafter⟩
  · exact .inl (exists_read_of_stops_choose hchoose)
  · obtain ⟨hu, hfound, hnone⟩ := h.of_gives_choose hchoose
    cases found with
    | some rule =>
        rcases Action.stops_bind_iff.1 hafter with hparse | ⟨_, _, -, journal, hreturn⟩
        · exact .inr (.inl ⟨rule, u, hfound rule rfl, hu, stops_parse_of_within hparse⟩)
        · cases hreturn
    | none =>
        rcases Action.stops_bind_iff.1 hafter with hpeek | ⟨token, _, -, journal, hfail⟩
        · obtain ⟨cause, -, rfl⟩ := Action.stops_mapError_iff.1 hpeek
          exact .inl ⟨cause, rfl⟩
        · cases hfail
          exact .inr (.inr ⟨⟨token, rfl⟩, hnone rfl⟩)

/-- After questions a rule parses to the same tree and leaves the same, with enough budget. -/
theorem exists_gives_after (hparse : (grammar.parse rule).Gives s tree t) (hu : u.items = s.items) :
    ∃ t', t'.items = t.items ∧
      ∀ n, grammar.budget u ≤ n → (grammar.parseWithin n rule).Gives u tree t' := by
  obtain ⟨t', ht', hi⟩ := (local_gives_parse hparse).of_items_eq hu
  exact ⟨t', hi, fun n hle => gives_parseWithin_of_le hle ht'⟩

/-- Where a rule would have parsed, the question is answered with yes, and then the rule parses. -/
theorem OpensFirmly.exists_gives_asked (h : grammar.OpensFirmly)
    (hparse : (grammar.parse rule).Gives s tree t) :
    ∃ u t', (grammar.starts rule).Gives s true u ∧ t'.items = t.items ∧
      ∀ n, grammar.budget u ≤ n → (grammar.parseWithin n rule).Gives u tree t' := by
  have hparses : grammar.ParsesFrom rule s := ⟨tree, t, hparse⟩
  obtain ⟨u, hyes⟩ := hparses.exists_gives_starts h.not_maySkip
  obtain ⟨t', hi, hrest⟩ := exists_gives_after hparse (items_of_gives_starts hyes)
  exact ⟨u, t', hyes, hi, hrest⟩

/-- A choice takes a rule that would have parsed if none before it could start. -/
theorem OpensFirmly.exists_gives_choice (h : grammar.OpensFirmly) {earlier later : List RuleId}
    (hearlier : ∀ other ∈ earlier, ∃ u, (grammar.starts other).Gives s false u)
    (hparse : (grammar.parse rule).Gives s tree t) :
    ∃ enough t', t'.items = t.items ∧ ∀ n, enough ≤ n →
      (grammar.parseElement (grammar.parseWithin n) n (.choice (earlier ++ rule :: later))).Gives s
        (unlessEmpty tree) t' := by
  have hparses : grammar.ParsesFrom rule s := ⟨tree, t, hparse⟩
  obtain ⟨u, hchoose⟩ :=
    exists_gives_choose_append hearlier (hparses.exists_gives_starts h.not_maySkip)
  obtain ⟨t', hi, hrest⟩ := exists_gives_after hparse (h.of_gives_choose hchoose).1
  exact ⟨grammar.budget u, t', hi, fun n hle =>
    hchoose.bind ((hrest n hle).bind (Action.gives_pure _))⟩

/-- A repetition goes on as long as its rule would have parsed. -/
theorem OpensFirmly.not_parsesFrom_of_repetition (h : grammar.OpensFirmly) {trees : List Tree}
    (hrepetition : (grammar.repetition (grammar.parseWithin n) rule m).Gives s trees t) :
    ¬ grammar.ParsesFrom rule t := by
  have hturn : ∀ found s, True → (grammar.repeatOnce (grammar.parseWithin n) rule found).Ensures s
      (fun r t => r.elim (fun _ => True) fun _ => ¬ grammar.ParsesFrom rule t) fun _ _ => True := by
    intro found s _
    refine Action.ensures_iff.2 ⟨fun r t hr => ?_, fun _ _ _ => trivial⟩
    obtain ⟨yes, u, hstarts, hafter⟩ := hr.of_bind
    cases yes with
    | true =>
        obtain ⟨_, _, -, hreturn⟩ := hafter.of_bind
        obtain ⟨rfl, -⟩ := Action.gives_pure_iff.1 hreturn
        trivial
    | false =>
        obtain ⟨rfl, rfl⟩ := Action.gives_pure_iff.1 hafter
        have hu := items_of_gives_starts hstarts
        exact fun hparses => h.not_parsesFrom hstarts (hparses.of_items_eq hu.symm)
  have hall := Action.ensures_iterate (fun _ _ => True) hturn m [] s trivial
  exact hall.of_gives hrepetition

/-- Nothing that would have parsed is passed over. -/
structure Committed (grammar : Grammar) : Prop where
  /-- A rule that parses could start. -/
  starts : ∀ rule s, grammar.ParsesFrom rule s → ∃ t, (grammar.starts rule).Gives s true t
  /-- A choice takes a rule that would have parsed if none before it could start. -/
  alternative : ∀ earlier rule later s tree t,
    (∀ other ∈ earlier, ∃ u, (grammar.starts other).Gives s false u) →
    (grammar.parse rule).Gives s tree t →
      ∃ enough t', t'.items = t.items ∧ ∀ n, enough ≤ n →
        (grammar.parseElement (grammar.parseWithin n) n (.choice (earlier ++ rule :: later))).Gives
          s (unlessEmpty tree) t'
  /-- A choice gives what one of its rules gives, and none before that one would have parsed. -/
  choice : ∀ n rules s trees t,
    (grammar.parseElement (grammar.parseWithin n) n (.choice rules)).Gives s trees t →
      ∃ rule u tree, grammar.Unpreceded rules s rule ∧ u.items = s.items ∧
        (grammar.parse rule).Gives u tree t ∧ trees = unlessEmpty tree
  /-- A choice that fails because no rule could start has no rule that would have parsed. It also
  fails if the next token cannot be read or if the rule that it takes fails. -/
  refusal : ∀ n rules s e t,
    (grammar.parseElement (grammar.parseWithin n) n (.choice rules)).Stops s e t →
      (∃ cause, e = .read cause) ∨
      (∃ rule u, grammar.Unpreceded rules s rule ∧ u.items = s.items ∧
        (grammar.parse rule).Stops u e t) ∨
      (∃ token, e = .ofToken token "unexpected token.") ∧
        ∀ rule ∈ rules, ¬ grammar.ParsesFrom rule s
  /-- An option whose rule would have parsed gives what that rule gives. -/
  option : ∀ rule s tree t, (grammar.parse rule).Gives s tree t →
    ∃ enough t', t'.items = t.items ∧ ∀ n, enough ≤ n →
      (grammar.parseElement (grammar.parseWithin n) n (.repeated rule .atMostOnce)).Gives s
        (unlessEmpty tree) t'
  /-- No empty tree stands for a rule that would have parsed. -/
  orEmpty : ∀ rule s tree t, (grammar.parse rule).Gives s tree t →
    ∃ enough t', t'.items = t.items ∧ ∀ n, enough ≤ n →
      (grammar.parseElement (grammar.parseWithin n) n (.orEmpty rule)).Gives s [tree] t'
  /-- A repetition goes on where its rule would have parsed. -/
  turn : ∀ rule s tree t, (grammar.parse rule).Gives s tree t →
    ∃ enough t', t'.items = t.items ∧ ∀ n, enough ≤ n → ∀ found,
      (grammar.repeatOnce (grammar.parseWithin n) rule found).Gives s
        (.inl (unlessEmpty tree ++ found)) t'
  /-- A repetition ends where its rule would not parse once more. -/
  repetition : ∀ n rule s trees t,
    (grammar.parseElement (grammar.parseWithin n) n (.repeated rule .any)).Gives s trees t →
      ¬ grammar.ParsesFrom rule t

/-- If no rule begins with a repetition or an option, every rule that would have parsed could start.
So no choice, option or repetition passes it over, no empty tree stands for it, and a choice refuses
a token only if none of its rules would have parsed. -/
theorem committed_of_opensFirmly (h : grammar.OpensFirmly) : grammar.Committed where
  starts := fun _ _ hparses => hparses.exists_gives_starts h.not_maySkip
  alternative := fun _ _ _ _ _ _ => h.exists_gives_choice
  choice := fun _ _ _ _ _ => h.of_gives_choice
  refusal := fun _ _ _ _ _ => h.of_stops_choice
  option := fun _ _ _ _ hparse => by
    obtain ⟨u, t', hyes, hi, hrest⟩ := h.exists_gives_asked hparse
    exact ⟨grammar.budget u, t', hi, fun n hle =>
      hyes.bind ((hrest n hle).bind (Action.gives_pure _))⟩
  orEmpty := fun _ _ _ _ hparse => by
    obtain ⟨u, t', hyes, hi, hrest⟩ := h.exists_gives_asked hparse
    exact ⟨grammar.budget u, t', hi, fun n hle =>
      hyes.bind ((hrest n hle).bind (Action.gives_pure _))⟩
  turn := fun _ _ _ _ hparse => by
    obtain ⟨u, t', hyes, hi, hrest⟩ := h.exists_gives_asked hparse
    exact ⟨grammar.budget u, t', hi, fun n hle _ =>
      hyes.bind ((hrest n hle).bind (Action.gives_pure _))⟩
  repetition := fun _ _ _ _ _ => h.not_parsesFrom_of_repetition

/-- No rule of the two languages begins with a repetition, so a statement that parses could
start. -/
theorem committed_of_opensFirmly_loop :
    let s := ofSource (.ofText "while i < 3 { i = next(i) }\n")
    Language.basic.grammar.OpensFirmly ∧ Language.full.grammar.OpensFirmly ∧
      Language.full.grammar.ParsesFrom Language.full.program s ∧
      (∃ t, (Language.full.grammar.starts Language.full.program).Gives s true t) ∧
      Language.basic.grammar.Committed ∧ Language.full.grammar.Committed := by
  intro s
  have hbasic : Language.basic.grammar.OpensFirmly := opensFirmly_of_table (by decide +kernel)
  have hfull : Language.full.grammar.OpensFirmly := opensFirmly_of_table (by decide +kernel)
  have hvalue : (Language.full.grammar.parse Language.full.program s).value?.isSome = true := by
    decide +kernel
  obtain ⟨⟨tree, t⟩, hvalue⟩ := Option.isSome_iff_exists.1 hvalue
  have hparses : Language.full.grammar.ParsesFrom Language.full.program s :=
    ⟨tree, t, Action.gives_of_value? hvalue⟩
  have hcommitted := committed_of_opensFirmly hfull
  exact ⟨hbasic, hfull, hparses, hcommitted.starts _ s hparses, committed_of_opensFirmly hbasic,
    hcommitted⟩

/-- Letters that are repeated are read where there are none. -/
theorem not_committed_letters : ¬ letters.Committed := by
  intro hcommitted
  let s := ofSource (.ofText "b\n")
  have hvalue : (letters.parse 1 s).value?.isSome = true := by decide +kernel
  obtain ⟨⟨tree, t⟩, hvalue⟩ := Option.isSome_iff_exists.1 hvalue
  obtain ⟨u, hyes⟩ := hcommitted.starts 1 s ⟨tree, t, Action.gives_of_value? hvalue⟩
  have hanswer : (letters.starts 1 s).value?.map Prod.fst = some false := by decide +kernel
  obtain ⟨⟨no, v⟩, hno, rfl⟩ := Option.map_eq_some_iff.1 hanswer
  cases (hyes.unique (Action.gives_of_value? hno)).1

end Grammar

end TreeScript
