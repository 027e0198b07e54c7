import TreeScript.Proofs.Grammar.Ending
import TreeScript.Proofs.Grammar.Parses

/-!
# One more choice

A rule gets one more choice at its start. On a stream where that choice could start nowhere, what
parsed before still parses, to the same tree and with the same tokens (`insertChoice_conservative`).

A rule that begins with a choice has it in place. Any other rule moves behind a new choice, and then
there is more to it. The new rule has no kind of its own, so where it is absent an empty list stands
for it, and not an empty tree of its former kind. It has to choose, so it cannot be read where it
could not start, as a rule can that begins with a repetition. And it looks at the next token even if
the rule it stands for does not. These are the only ways to notice it
(`insertChoice_not_conservative`).
-/

namespace TreeScript

namespace Grammar

open TokenStream

/-! ## How rules refer to each other -/

/-- Whether the first rule could start may depend on whether the second one could. -/
inductive LooksThrough (grammar : Grammar) : RuleId → RuleId → Prop where
  /-- On itself. -/
  | self (rule : RuleId) : LooksThrough grammar rule rule
  /-- On a rule that the first element asks. -/
  | first {rule other id : RuleId} {element : Element} {elements : List Element} :
      (grammar.rule rule).elements = element :: elements → other ∈ element.asked →
      LooksThrough grammar other id → LooksThrough grammar rule id

/-- The rule may be read where it could not start. -/
inductive MaySkip (grammar : Grammar) : RuleId → Prop where
  /-- It begins with a repetition, of which there may be none. -/
  | repeated {rule other : RuleId} {times : Times} {elements : List Element} :
      (grammar.rule rule).elements = .repeated other times :: elements → MaySkip grammar rule
  /-- It begins with a rule that may be. -/
  | tree {rule other : RuleId} {elements : List Element} :
      (grammar.rule rule).elements = .tree other :: elements → MaySkip grammar other →
      MaySkip grammar rule
  /-- It begins with operands that may be. -/
  | expression {rule factor : RuleId} {operators : Operators} {kind : Tree.Kind}
      {elements : List Element} :
      (grammar.rule rule).elements = .expression factor operators kind :: elements →
      MaySkip grammar factor → MaySkip grammar rule

/-- The rules that parsing a rule may come to. -/
inductive Uses (grammar : Grammar) (root : RuleId) : RuleId → Prop where
  /-- The rule itself. -/
  | self : Uses grammar root root
  /-- A rule in one that it uses. -/
  | next {rule other : RuleId} {element : Element} :
      Uses grammar root rule → element ∈ (grammar.rule rule).elements → other ∈ element.rules →
      Uses grammar root other

/-- Rules refer to rules of the table. -/
def Scoped (grammar : Grammar) : Prop :=
  ∀ rule, ∀ element ∈ (grammar.rule rule).elements, ∀ other ∈ element.rules,
    other < grammar.rules.size

/-- Rules beyond the table have no elements. -/
theorem scoped_of_table {grammar : Grammar}
    (h : ∀ rule < grammar.rules.size, ∀ element ∈ (grammar.rule rule).elements,
      ∀ other ∈ element.rules, other < grammar.rules.size) : grammar.Scoped := by
  intro rule element hmem
  rcases Nat.lt_or_ge rule grammar.rules.size with hrule | hrule
  · exact h rule hrule element hmem
  · rw [rule_of_size_le hrule] at hmem
    cases hmem

/-- What a rule of the table uses is in the table. -/
theorem Uses.lt {grammar : Grammar} {root rule : RuleId} (h : Uses grammar root rule)
    (hscoped : grammar.Scoped) (hroot : root < grammar.rules.size) :
    rule < grammar.rules.size := by
  induction h with
  | self => exact hroot
  | next _ helement hother => exact hscoped _ _ helement _ hother

/-- The rule begins with a choice. -/
def BeginsWithChoice (grammar : Grammar) (id : RuleId) : Prop :=
  ∃ rules elements, (grammar.rule id).elements = .choice rules :: elements

/-! ## The table with one more choice -/

section Table

variable {grammar : Grammar} {id choice rule : RuleId} {new : Rule}

theorem rule_define (h : id < grammar.rules.size) : (grammar.define id new).rule id = new := by
  simp [define, Grammar.rule, h]

theorem rule_define_of_ne (h : rule ≠ id) :
    (grammar.define id new).rule rule = grammar.rule rule := by
  simp only [define, Grammar.rule, Array.getElem?_setIfInBounds_ne h.symm]

theorem rule_add (h : rule < grammar.rules.size) :
    (grammar.add new).2.rule rule = grammar.rule rule := by
  simp only [add, Grammar.rule, Array.getElem?_push, if_neg (Nat.ne_of_lt h)]

theorem rule_add_size : (grammar.add new).2.rule grammar.rules.size = new := by
  simp [add, Grammar.rule]

theorem size_add : (grammar.add new).2.rules.size = grammar.rules.size + 1 := by
  simp [add]

/-- The new rule becomes the first choice of the first element. -/
theorem insertChoice_of_choice {rules : List RuleId} {elements : List Element}
    (h : (grammar.rule id).elements = .choice rules :: elements) : grammar.insertChoice id choice =
      grammar.define id
        { grammar.rule id with elements := .choice (choice :: rules) :: elements } := by
  simp only [insertChoice, h]

/-- A rule that does not begin with a choice moves to the end of the table, and a choice between the
new rule and this one takes its place. -/
theorem insertChoice_of_moved (h : ¬ BeginsWithChoice grammar id) :
    grammar.insertChoice id choice = (grammar.add (grammar.rule id)).2.define id
      (.plain (grammar.rule id).name [.choice [choice, grammar.rules.size]]) := by
  simp only [insertChoice]
  split
  · rename_i rules elements helements
    exact absurd ⟨rules, elements, helements⟩ h
  · rfl

theorem accepts_insertChoice (wanted : TokenClass) (token : Token) :
    grammar.accepts wanted token = (grammar.insertChoice id choice).accepts wanted token := by
  have hreserved : (grammar.insertChoice id choice).reserved = grammar.reserved := by
    simp only [insertChoice]
    split
    · rfl
    · rfl
  simp only [accepts, isReserved, hreserved]

/-- The other rules are what they were. -/
theorem rule_insertChoice_of_ne (hne : rule ≠ id) (hrule : rule < grammar.rules.size) :
    (grammar.insertChoice id choice).rule rule = grammar.rule rule := by
  by_cases h : BeginsWithChoice grammar id
  · obtain ⟨rules, elements, h⟩ := h
    rw [insertChoice_of_choice h, rule_define_of_ne hne]
  · rw [insertChoice_of_moved h, rule_define_of_ne hne, rule_add hrule]

theorem rule_insertChoice_of_choice (hid : id < grammar.rules.size) {rules : List RuleId}
    {elements : List Element} (h : (grammar.rule id).elements = .choice rules :: elements) :
    (grammar.insertChoice id choice).rule id =
      { grammar.rule id with elements := .choice (choice :: rules) :: elements } := by
  rw [insertChoice_of_choice h, rule_define hid]

section Moved

variable (hid : id < grammar.rules.size) (hmoved : ¬ BeginsWithChoice grammar id)
include hid hmoved

/-- In place of the rule there is a choice between the new rule and the one at the end. -/
theorem rule_insertChoice_of_moved : (grammar.insertChoice id choice).rule id =
    .plain (grammar.rule id).name [.choice [choice, grammar.rules.size]] := by
  rw [insertChoice_of_moved hmoved, rule_define]
  rw [size_add]
  exact Nat.lt_succ_of_lt hid

/-- The rule that moves keeps its elements and its kind. -/
theorem rule_insertChoice_size :
    (grammar.insertChoice id choice).rule grammar.rules.size = grammar.rule id := by
  rw [insertChoice_of_moved hmoved, rule_define_of_ne (Nat.ne_of_gt hid), rule_add_size]

end Moved

/-- A rule without a kind of its own keeps its kind, and so does a rule that does not move. -/
theorem kind_insertChoice {kind : Tree.Kind} (hid : id < grammar.rules.size)
    (h : BeginsWithChoice grammar id ∨ (grammar.rule id).kind = .branch .list)
    (hkind : (grammar.rule id).kind = kind) :
    ((grammar.insertChoice id choice).rule id).kind = kind := by
  by_cases hbegins : BeginsWithChoice grammar id
  · obtain ⟨rules, elements, hfirst⟩ := hbegins
    rw [rule_insertChoice_of_choice hid hfirst]
    exact hkind
  · rw [rule_insertChoice_of_moved hid hbegins, ← hkind, h.resolve_left hbegins]
    rfl

end Table

/-! ## Where rules start -/

/-- Rules with the same elements start alike if the rules that they ask do. -/
theorem startsAtWithin_of_elements_eq {grammar other : Grammar} {token : Token} {n m : Nat}
    {rule rule' : RuleId} {yes : Bool}
    (hclass : ∀ wanted, grammar.accepts wanted token = other.accepts wanted token)
    (helements : (other.rule rule').elements = (grammar.rule rule).elements)
    (h : ∀ element elements, (grammar.rule rule).elements = element :: elements →
      ∀ id ∈ element.asked, ∀ yes, grammar.startsAtWithin token n id = some yes →
        other.startsAtWithin token m id = some yes)
    (hs : grammar.startsAtWithin token (n + 1) rule = some yes) :
    other.startsAtWithin token (m + 1) rule' = some yes := by
  rw [startsAtWithin] at hs ⊢
  rw [helements]
  cases hfirst : (grammar.rule rule).elements with
  | nil =>
      rw [hfirst] at hs
      exact hs
  | cons element elements =>
      rw [hfirst] at hs
      exact elementStartsAt_of_forall hclass (h element elements hfirst) hs

section Starts

variable {grammar : Grammar} {id choice rule : RuleId} {token : Token} {n m : Nat} {yes : Bool}
  (hscoped : grammar.Scoped)
include hscoped

theorem Scoped.asked_lt {element : Element} {elements : List Element}
    (h : (grammar.rule rule).elements = element :: elements) {other : RuleId}
    (hother : other ∈ element.asked) : other < grammar.rules.size := by
  refine hscoped rule element ?_ other (Element.mem_rules_of_asked hother)
  rw [h]
  exact List.mem_cons_self

/-- A rule whose answer does not depend on the changed one keeps it. -/
theorem startsAtWithin_of_not_looksThrough (hrule : rule < grammar.rules.size)
    (hlook : ¬ LooksThrough grammar rule id)
    (h : grammar.startsAtWithin token n rule = some yes) :
    (grammar.insertChoice id choice).startsAtWithin token n rule = some yes := by
  induction n generalizing rule yes with
  | zero => cases h
  | succ n ih =>
      have hne : rule ≠ id := by
        intro heq
        subst heq
        exact hlook (.self rule)
      refine startsAtWithin_of_elements_eq (fun wanted => accepts_insertChoice wanted token) ?_ ?_ h
      · rw [rule_insertChoice_of_ne hne hrule]
      · intro element elements hfirst other hother yes
        exact ih (hscoped.asked_lt hfirst hother) fun hthrough =>
          hlook (.first hfirst hother hthrough)

variable (hid : id < grammar.rules.size) (hchoice : choice < grammar.rules.size)
  (hlook : ¬ LooksThrough grammar choice id) (hno : grammar.startsAt choice token = some false)
include hid hchoice hlook hno

/-- Where the new choice could not start, all answers are kept, within a budget that allows for one
more rule at each step. -/
theorem startsAtWithin_insertChoice (hrule : rule < grammar.rules.size)
    (h : grammar.startsAtWithin token n rule = some yes) (hm : 2 * n + grammar.rules.size ≤ m) :
    (grammar.insertChoice id choice).startsAtWithin token (m + 1) rule = some yes := by
  induction n generalizing rule yes m with
  | zero => cases h
  | succ n ih =>
      obtain ⟨m, rfl⟩ : ∃ k, m = k + 2 := ⟨m - 2, by omega⟩
      have hasked : ∀ element elements, (grammar.rule rule).elements = element :: elements →
          ∀ other ∈ element.asked, ∀ yes, grammar.startsAtWithin token n other = some yes →
            ∀ k, m ≤ k →
              (grammar.insertChoice id choice).startsAtWithin token (k + 1) other = some yes :=
        fun element elements hfirst other hother yes hyes k hk =>
          ih (hscoped.asked_lt hfirst hother) hyes (by omega)
      have hnot : ∀ k, m ≤ k →
          (grammar.insertChoice id choice).startsAtWithin token (k + 1) choice = some false :=
        fun k hk => startsAtWithin_of_not_looksThrough hscoped hchoice hlook
          (startsAtWithin_mono (by omega) hno)
      by_cases hne : rule ≠ id
      · refine startsAtWithin_of_elements_eq (fun wanted => accepts_insertChoice wanted token)
          (by rw [rule_insertChoice_of_ne hne hrule]) ?_ h
        exact fun element elements hfirst other hother yes hyes =>
          hasked element elements hfirst other hother yes hyes (m + 1) (Nat.le_succ m)
      obtain rfl := not_ne_iff.1 hne
      by_cases hbegins : BeginsWithChoice grammar rule
      · obtain ⟨rules, elements, hfirst⟩ := hbegins
        rw [startsAtWithin, hfirst] at h
        obtain ⟨first, hf, rfl⟩ := Option.map_eq_some_iff.1 h
        rw [startsAtWithin, rule_insertChoice_of_choice hrule hfirst]
        refine Option.map_eq_some_iff.2
          ⟨first, (firstAt_cons (hnot _ (Nat.le_succ m)) _).trans ?_, rfl⟩
        exact firstAt_of_forall (fun other hother yes hyes =>
          hasked _ _ hfirst other hother yes hyes (m + 1) (Nat.le_succ m)) hf
      · have hsize : (grammar.insertChoice rule choice).startsAtWithin token (m + 2)
            grammar.rules.size = some yes := by
          refine startsAtWithin_of_elements_eq (fun wanted => accepts_insertChoice wanted token)
            (by rw [rule_insertChoice_size hrule hbegins]) ?_ h
          exact fun element elements hfirst other hother yes hyes =>
            hasked element elements hfirst other hother yes hyes m (Nat.le_refl m)
        rw [startsAtWithin, rule_insertChoice_of_moved hrule hbegins]
        show (firstAt _ [choice, grammar.rules.size]).map Option.isSome = some yes
        rw [firstAt_cons (hnot _ (Nat.le_succ m)), firstAt_cons hsize]
        cases yes with
        | true => rfl
        | false => rfl

/-- An answer that does not depend on the new rule stays. -/
theorem startsAt_insertChoice (hrule : rule < grammar.rules.size)
    (h : grammar.startsAt rule token = some yes) :
    (grammar.insertChoice id choice).startsAt rule token = some yes :=
  startsAt_of_within
    (startsAtWithin_insertChoice hscoped hid hchoice hlook hno hrule h (Nat.le_refl _))

/-- So does a choice between rules of the table. -/
theorem chooseAt_insertChoice {rules : List RuleId} {first : Option RuleId}
    (hrules : ∀ rule ∈ rules, rule < grammar.rules.size)
    (h : grammar.chooseAt rules token = some first) :
    (grammar.insertChoice id choice).chooseAt rules token = some first :=
  firstAt_of_forall (fun rule hrule _ =>
    startsAt_insertChoice hscoped hid hchoice hlook hno (hrules rule hrule)) h

/-- The rule that moves starts where it did. -/
theorem startsAt_insertChoice_size (hmoved : ¬ BeginsWithChoice grammar id)
    (h : grammar.startsAt id token = some yes) :
    (grammar.insertChoice id choice).startsAt grammar.rules.size token = some yes := by
  have hwithin : (grammar.insertChoice id choice).startsAtWithin token
      (2 * grammar.rules.size + grammar.rules.size + 1 + 1) grammar.rules.size = some yes := by
    refine startsAtWithin_of_elements_eq (fun wanted => accepts_insertChoice wanted token)
      (by rw [rule_insertChoice_size hid hmoved]) ?_ h
    exact fun element elements hfirst other hother yes hyes => startsAtWithin_insertChoice hscoped
      hid hchoice hlook hno (hscoped.asked_lt hfirst hother) hyes (Nat.le_refl _)
  exact startsAt_of_within hwithin

end Starts

/-! ## Rules that are read start -/

/-- A rule that is read could start, unless it may be read where it could not. Its answer is that of
its first element, within one more step. -/
theorem startsAt_of_readsAll {grammar : Grammar} {R : Success} {rule : RuleId}
    {tokens rest : List Token} {trees : List Tree}
    (hR : ∀ rule tokens tree rest, R rule tokens tree rest →
      grammar.startsAt rule (front tokens) = some true ∨ MaySkip grammar rule)
    (h : ReadsAll grammar R (grammar.rule rule).elements tokens trees rest) :
    grammar.startsAt rule (front tokens) = some true ∨ MaySkip grammar rule := by
  generalize helements : (grammar.rule rule).elements = elements at h
  have hfirst : ∀ element others, elements = element :: others →
      grammar.elementStartsAt (front tokens) (grammar.startsAt · (front tokens)) element =
        some true → grammar.startsAt rule (front tokens) = some true := by
    intro element others hcons hstarts
    have hwithin : grammar.startsAtWithin (front tokens) (grammar.rules.size + 2) rule =
        some true := by
      rw [startsAtWithin, helements, hcons]
      exact hstarts
    exact startsAt_of_within hwithin
  cases h with
  | nil =>
      left
      rw [startsAt, startsAtWithin, helements]
  | cons hr =>
      cases hr with
      | tree hr => exact (hR _ _ _ _ hr).imp (hfirst _ _ rfl) (.tree helements)
      | choice hchoose => exact .inl (hfirst _ _ rfl (congrArg (Option.map Option.isSome) hchoose))
      | many => exact .inr (.repeated helements)
      | never => exact .inr (.repeated helements)
      | once => exact .inr (.repeated helements)
      | empty => exact .inl (hfirst _ _ rfl rfl)
      | filled => exact .inl (hfirst _ _ rfl rfl)
      | token haccepts => exact .inl (hfirst _ _ rfl (congrArg some haccepts))
      | dropped hliteral => exact .inl (hfirst _ _ rfl (congrArg some hliteral))
      | kept hliteral => exact .inl (hfirst _ _ rfl (congrArg some hliteral))
      | ahead hliteral => exact .inl (hfirst _ _ rfl (congrArg some hliteral))
      | expression _ hr => exact (hR _ _ _ _ hr).imp (hfirst _ _ rfl) (.expression helements)

/-! ## What is kept -/

/-- A rule that moves behind a choice is not noticed by a rule that is parsed. -/
structure MovesFreely (grammar : Grammar) (id root : RuleId) : Prop where
  /-- It has no kind of its own, or no empty tree stands for it. -/
  untyped : (grammar.rule id).kind = .branch .list ∨
    ∀ rule, Uses grammar root rule → .orEmpty id ∉ (grammar.rule rule).elements
  /-- It is read only where it could start, or it is read only after it is asked. -/
  starting : ¬ MaySkip grammar id ∨ root ≠ id ∧ ∀ rule, Uses grammar root rule →
    .tree id ∉ (grammar.rule rule).elements ∧
    ∀ operators kind, .expression id operators kind ∉ (grammar.rule rule).elements

/-- The rule could start at none of the tokens and not at the end. -/
def Quiet (grammar : Grammar) (choice : RuleId) (tokens : List Token) : Prop :=
  ∀ rest, rest <:+ tokens → grammar.startsAt choice (front rest) = some false

/-- It cannot start later on either. -/
theorem Quiet.suffix {grammar : Grammar} {choice : RuleId} {tokens rest : List Token}
    (h : Quiet grammar choice tokens) (hs : rest <:+ tokens) : Quiet grammar choice rest :=
  fun _ hr => h _ (hr.trans hs)

/-- What a rule reads is parsed after the change too. Where the changed rule has moved, it has to be
known that it could start. -/
def Kept (grammar : Grammar) (id choice root : RuleId) : Success := fun rule tokens tree rest =>
  rest <:+ tokens ∧
  (grammar.startsAt rule (front tokens) = some true ∨ MaySkip grammar rule) ∧
  (Uses grammar root rule → Quiet grammar choice tokens →
    (rule = id → BeginsWithChoice grammar id ∨ grammar.startsAt id (front tokens) = some true) →
    Parses (grammar.insertChoice id choice) rule tokens tree rest)

section Kept

variable {grammar : Grammar} {id choice root rule : RuleId} {tokens rest : List Token}
  {trees : List Tree}

theorem trims_kept : Trims (Kept grammar id choice root) := fun _ _ _ _ h => h.1

/-- A rule that could start is parsed after the change. -/
theorem Kept.parses_of_starts {tree : Tree} (h : Kept grammar id choice root rule tokens tree rest)
    (huses : Uses grammar root rule) (hquiet : Quiet grammar choice tokens)
    (hstarts : grammar.startsAt rule (front tokens) = some true) :
    Parses (grammar.insertChoice id choice) rule tokens tree rest := by
  refine h.2.2 huses hquiet fun heq => .inr ?_
  rw [← heq]
  exact hstarts

/-- A rule that is read without being asked is parsed after the change. -/
theorem Kept.parses_of_free {tree : Tree} (h : Kept grammar id choice root rule tokens tree rest)
    (huses : Uses grammar root rule) (hquiet : Quiet grammar choice tokens)
    (hfree : rule = id → BeginsWithChoice grammar id ∨ ¬ MaySkip grammar id) :
    Parses (grammar.insertChoice id choice) rule tokens tree rest := by
  refine h.2.2 huses hquiet fun heq => (hfree heq).imp_right fun hsolid => ?_
  rw [← heq] at hsolid ⊢
  exact h.2.1.resolve_right hsolid

section Changed

variable (hscoped : grammar.Scoped) (hid : id < grammar.rules.size)
  (hchoice : choice < grammar.rules.size) (hlook : ¬ LooksThrough grammar choice id)
include hscoped hid hchoice hlook

/-- A repetition reads the same after the change. -/
theorem Repeats.of_kept (h : Repeats grammar (Kept grammar id choice root) rule tokens trees rest)
    (huses : Uses grammar root rule) (hrule : rule < grammar.rules.size)
    (hquiet : Quiet grammar choice tokens) :
    Repeats (grammar.insertChoice id choice) (Parses (grammar.insertChoice id choice)) rule tokens
      trees rest := by
  induction h with
  | done hno =>
      exact .done (startsAt_insertChoice hscoped hid hchoice hlook
        (hquiet _ List.suffix_rfl) hrule hno)
  | more hyes hr _ ih =>
      exact .more (startsAt_insertChoice hscoped hid hchoice hlook
        (hquiet _ List.suffix_rfl) hrule hyes) (hr.parses_of_starts huses hquiet hyes)
        (ih (hquiet.suffix hr.1))

omit hscoped hid hchoice hlook in
/-- A chain is the same after the change. An operand that has moved has to be known to start. -/
theorem Chains.of_kept {factor : RuleId} {operators : Operators} {takes : Precedence → Bool}
    {links : List Link}
    (h : Chains (Kept grammar id choice root) factor operators takes tokens links rest)
    (huses : Uses grammar root factor) (hquiet : Quiet grammar choice tokens)
    (hfree : factor = id → BeginsWithChoice grammar id ∨ ¬ MaySkip grammar id) :
    Chains (Parses (grammar.insertChoice id choice)) factor operators takes tokens links rest := by
  induction h with
  | done hstop => exact .done hstop
  | more hop ht hr _ ih =>
      have hquiet' := hquiet.suffix (List.suffix_cons _ _)
      exact .more hop ht (hr.parses_of_free huses hquiet' hfree) (ih (hquiet'.suffix hr.1))

variable (hmove : BeginsWithChoice grammar id ∨ MovesFreely grammar id root)
include hmove

/-- An element reads the same after the change. -/
theorem Reads.of_kept {element : Element}
    (h : Reads grammar (Kept grammar id choice root) element tokens trees rest)
    (huses : Uses grammar root rule) (hmem : element ∈ (grammar.rule rule).elements)
    (hquiet : Quiet grammar choice tokens) :
    Reads (grammar.insertChoice id choice) (Parses (grammar.insertChoice id choice)) element tokens
      trees rest := by
  have hno := hquiet _ List.suffix_rfl
  have hlt : ∀ other ∈ element.rules, other < grammar.rules.size := hscoped rule element hmem
  have hnext : ∀ other ∈ element.rules, Uses grammar root other := fun _ => huses.next hmem
  have hkeep : ∀ other ∈ element.rules, ∀ yes,
      grammar.startsAt other (front tokens) = some yes →
      (grammar.insertChoice id choice).startsAt other (front tokens) = some yes :=
    fun other hother _ => startsAt_insertChoice hscoped hid hchoice hlook hno (hlt other hother)
  cases h with
  | @tree other _ _ _ hr =>
      have hother := List.mem_singleton_self other
      refine .tree (hr.parses_of_free (hnext other hother) hquiet fun heq => ?_)
      subst heq
      refine hmove.imp_right fun hfree => hfree.starting.resolve_right fun hnone => ?_
      exact (hnone.2 rule huses).1 hmem
  | @choice rules other _ _ _ hchoose hr =>
      have hother : other ∈ (Element.choice rules).rules := mem_of_firstAt hchoose
      exact .choice (chooseAt_insertChoice hscoped hid hchoice hlook hno hlt hchoose)
        (hr.parses_of_starts (hnext other hother) hquiet (answer_of_firstAt hchoose))
  | @many other _ _ _ hr =>
      have hother := List.mem_singleton_self other
      exact .many (hr.of_kept hscoped hid hchoice hlook (hnext other hother) (hlt other hother)
        hquiet)
  | @never other _ hnever => exact .never (hkeep other (List.mem_singleton_self other) _ hnever)
  | @once other _ _ _ hyes hr =>
      have hother := List.mem_singleton_self other
      exact .once (hkeep other hother _ hyes)
        (hr.parses_of_starts (hnext other hother) hquiet hyes)
  | @empty other kind _ hnever hkind =>
      have hother := List.mem_singleton_self other
      refine .empty (hkeep other hother _ hnever) ?_
      by_cases heq : other = id
      · subst heq
        exact kind_insertChoice hid (hmove.imp_right fun hfree =>
          hfree.untyped.resolve_right fun hnone => hnone rule huses hmem) hkind
      · rw [rule_insertChoice_of_ne heq (hlt other hother)]
        exact hkind
  | @filled other _ _ _ hyes hr =>
      have hother := List.mem_singleton_self other
      exact .filled (hkeep other hother _ hyes)
        (hr.parses_of_starts (hnext other hother) hquiet hyes)
  | @token wanted kind token rest haccepts =>
      rw [accepts_insertChoice wanted token] at haccepts
      exact .token haccepts
  | dropped hliteral => exact .dropped hliteral
  | kept hliteral => exact .kept hliteral
  | ahead hliteral => exact .ahead hliteral
  | @expression factor operators kind branchKind _ tokens' _ _ _ hk hr hc =>
      have hother := List.mem_singleton_self factor
      have hfree : factor = id → BeginsWithChoice grammar id ∨ ¬ MaySkip grammar id := by
        intro heq
        subst heq
        refine hmove.imp_right fun hfree => hfree.starting.resolve_right fun hnone => ?_
        exact (hnone.2 rule huses).2 operators kind hmem
      exact .expression hk (hr.parses_of_free (hnext factor hother) hquiet hfree)
        (hc.of_kept (hnext factor hother) (hquiet.suffix hr.1) hfree)

/-- Elements read the same after the change. The induction is on the elements. -/
theorem ReadsAll.of_kept {elements : List Element}
    (h : ReadsAll grammar (Kept grammar id choice root) elements tokens trees rest)
    (huses : Uses grammar root rule) (hmem : elements ⊆ (grammar.rule rule).elements)
    (hquiet : Quiet grammar choice tokens) :
    ReadsAll (grammar.insertChoice id choice) (Parses (grammar.insertChoice id choice)) elements
      tokens trees rest := by
  induction h with
  | nil => exact .nil
  | cons hr _ ih =>
      obtain ⟨hfirst, hothers⟩ := List.cons_subset.1 hmem
      exact .cons (hr.of_kept hscoped hid hchoice hlook hmove huses hfirst hquiet)
        (ih hothers (hquiet.suffix (hr.suffix trims_kept)))

/-- What the rules of the grammar read is kept. -/
theorem closed_kept (hroot : root < grammar.rules.size) :
    Closed grammar (Kept grammar id choice root) := by
  intro rule kind tokens trees rest hkind h
  refine ⟨h.suffix trims_kept, startsAt_of_readsAll (fun _ _ _ _ hr => hr.2.1) h,
    fun huses hquiet hstarts => ?_⟩
  have hreads := h.of_kept hscoped hid hchoice hlook hmove huses (List.Subset.refl _) hquiet
  have hno := hquiet _ List.suffix_rfl
  by_cases hne : rule ≠ id
  · have hrule : (grammar.insertChoice id choice).rule rule = grammar.rule rule :=
      rule_insertChoice_of_ne hne (huses.lt hscoped hroot)
    rw [← hrule] at hkind hreads
    exact closed_parses _ rule kind tokens trees rest hkind hreads
  obtain rfl := not_ne_iff.1 hne
  have hnot := startsAt_insertChoice hscoped hid hchoice hlook hno hchoice hno
  by_cases hbegins : BeginsWithChoice grammar rule
  · obtain ⟨rules, elements, hfirst⟩ := hbegins
    have hrule : (grammar.insertChoice rule choice).rule rule =
        { grammar.rule rule with elements := .choice (choice :: rules) :: elements } :=
      rule_insertChoice_of_choice hid hfirst
    rw [hfirst] at hreads
    obtain ⟨other, tree, trees', tokens', rfl, hchoose, hr, hothers⟩ := readsAll_choice.1 hreads
    refine closed_parses _ rule kind tokens _ rest (by rw [hrule]; exact hkind) ?_
    rw [hrule]
    exact .cons (.choice ((firstAt_cons hnot _).trans hchoose) hr) hothers
  · have hmoved : (grammar.insertChoice rule choice).rule grammar.rules.size = grammar.rule rule :=
      rule_insertChoice_size hid hbegins
    have hrule : (grammar.insertChoice rule choice).rule rule =
        .plain (grammar.rule rule).name [.choice [choice, grammar.rules.size]] :=
      rule_insertChoice_of_moved hid hbegins
    have hyes := startsAt_insertChoice_size hscoped hid hchoice hlook hno hbegins
      ((hstarts rfl).resolve_left hbegins)
    rw [← hmoved] at hkind hreads
    have hparses := closed_parses _ _ kind tokens trees rest hkind hreads
    have hchoose : (grammar.insertChoice rule choice).chooseAt [choice, grammar.rules.size]
        (front tokens) = some (some grammar.rules.size) :=
      (firstAt_cons hnot _).trans (firstAt_cons hyes _)
    have hnew := closed_parses (grammar.insertChoice rule choice) rule .list tokens
      (unlessEmpty (.group kind trees) ++ []) rest (by rw [hrule]; rfl)
      (by rw [hrule]; exact .cons (.choice hchoose hparses) .nil)
    rw [List.append_nil, group_unlessEmpty] at hnew
    exact hnew

end Changed

end Kept

/-! ## Parsing -/

/-- The rule could start at none of the tokens of the stream and not at the end. -/
def Unmatched (grammar : Grammar) (choice : RuleId) (s : TokenStream) : Prop :=
  ∀ u : TokenStream, (u.items = [] ∨ ∃ token rest, u.items = .ok token :: rest ∧
    .ok token ∈ s.items) → ∃ u', (grammar.starts choice).Gives u false u'

/-- What the stream answers at each token is the answer of the grammar. -/
theorem Unmatched.quiet {grammar : Grammar} {choice : RuleId} {s : TokenStream}
    {tokens : List Token} {tail : List Item} (h : Unmatched grammar choice s)
    (hs : s.Shows tokens tail) : Quiet grammar choice tokens := by
  intro rest hrest
  let u : TokenStream := ⟨rest, [], 0⟩
  have hu : u.Shows rest [] := shows_of_items_eq (List.append_nil _)
  have hfront : u.items = [] ∨ ∃ token rest, u.items = .ok token :: rest ∧
      .ok token ∈ s.items := by
    cases rest with
    | nil => exact .inl rfl
    | cons token rest =>
        refine .inr ⟨token, rest.map .ok, List.append_nil _, ?_⟩
        rw [hs.1]
        exact List.mem_append_left _ (List.mem_map_of_mem (hrest.subset List.mem_cons_self))
  obtain ⟨u', hg⟩ := h u hfront
  exact ((ensures_starts choice hu).of_gives hg).2

/-- The answers of the grammar at each token and at the end are those of the stream. -/
theorem unmatched_of_startsAt {grammar : Grammar} {choice : RuleId} {s : TokenStream}
    (hend : grammar.startsAt choice ⟨.endOfFile, 0⟩ = some false)
    (h : ∀ token, .ok token ∈ s.items → grammar.startsAt choice token = some false) :
    Unmatched grammar choice s := by
  intro u hu
  cases hu with
  | inl hnil =>
      have hs : u.Shows [] [] := shows_of_items_eq hnil
      obtain ⟨u', hg, -⟩ := runs_starts hend u hs
      exact ⟨u', hg⟩
  | inr hnext =>
      obtain ⟨token, rest, hitems, hmem⟩ := hnext
      have hs : TokenStream.Shows ⟨[token], [], 0⟩ [token] [] := shows_of_items_eq rfl
      obtain ⟨_, hg, -⟩ := runs_starts (h token hmem) _ hs
      refine exists_gives_starts hg ?_
      rw [hitems]
      rfl

/-- A rule gets a choice that could start nowhere in a stream. Then every rule that gives a tree
gives the same tree and leaves the same, if the changed rule begins with a choice or moves behind
one unnoticed and if what is left does not begin with a fault. The tokens by themselves are parsed
to the tree, and the parse looks no further than they reach. -/
theorem insertChoice_conservative {grammar : Grammar} (hscoped : grammar.Scoped)
    {id choice root : RuleId} (hid : id < grammar.rules.size)
    (hchoice : choice < grammar.rules.size) (hroot : root < grammar.rules.size)
    (hlook : ¬ LooksThrough grammar choice id)
    (hmove : BeginsWithChoice grammar id ∨ MovesFreely grammar id root)
    {s t : TokenStream} {tree : Tree} (hno : Unmatched grammar choice s)
    (h : (grammar.parse root).Gives s tree t)
    (hleft : ∀ cause rest, t.items ≠ .error cause :: rest) :
    ∃ t', ((grammar.insertChoice id choice).parse root).Gives s tree t' ∧ t'.items = t.items := by
  obtain ⟨tokens, tail, hs⟩ := s.exists_shows
  have hclosed := closed_kept hscoped hid hchoice hlook hmove hroot
  have hfails : FailureClosed grammar (Kept grammar id choice root) fun _ _ _ _ => True :=
    ⟨fun _ _ _ _ _ => trivial, fun _ _ _ _ _ => trivial⟩
  have hensures := ensures_parse fun n => ensures_parseWithin hclosed hfails n root s tokens hs
  obtain ⟨rest, ht, hkept⟩ := hensures.of_gives h
  have hparses : Parses (grammar.insertChoice id choice) root tokens tree rest := by
    refine hkept.parses_of_free .self (hno.quiet hs) fun heq => ?_
    exact hmove.imp_right fun hfree => hfree.starting.resolve_right fun hnone => hnone.1 heq
  have hs₀ : TokenStream.Shows ⟨tokens, [], 0⟩ tokens [] := shows_of_items_eq (List.append_nil _)
  obtain ⟨t₀, hg₀, ht₀⟩ := hparses.exists_gives hs₀
  obtain ⟨used, hitems, hlocal⟩ := local_gives_parse hg₀
  have hused : tokens.map .ok = used ++ rest.map .ok := by
    rw [← hs₀.1.trans (List.append_nil _), hitems, ht₀.1, List.append_nil]
  refine hlocal s t.items ?_ ?_
  · rw [hs.1, ht.1, hused, List.append_assoc]
  · rw [ht.1, ht₀.1]
    cases rest with
    | cons token rest => rfl
    | nil =>
        cases ht.tail_cases with
        | inl htail => rw [htail]
        | inr htail =>
            obtain ⟨cause, others, rfl⟩ := htail
            exact absurd ht.1 (hleft cause others)

/-! ## Where the change is noticed -/

/-- Letters, which are parameters and may be none, in front of a `b`. They may be left out or are
always there. There is also a rule that takes nothing. -/
def letters : Grammar :=
  ⟨#[.plain "letter" [.literal ["a"] true],
    ⟨"letters", .branch .parameters, [.repeated 0 .any]⟩,
    .plain "absent" [.orEmpty 1, .literal ["b"] true],
    .plain "present" [.tree 1, .literal ["b"] true],
    .plain "extra" [.literal ["x"] true],
    .plain "nothing" [],
    .plain "around" [.tree 5]], []⟩

theorem scoped_letters : letters.Scoped := scoped_of_table (by decide)

/-- No other rule asks whether the new one could start. -/
theorem not_looksThrough_extra {id : RuleId} (h : id ≠ 4) : ¬ LooksThrough letters 4 id := by
  intro hlook
  cases hlook with
  | self => exact h rfl
  | first helements hmem =>
      cases helements
      cases hmem

theorem unmatched_extra {text : String}
    (h : ((ofSource (.ofText text)).items.all fun item => item.toOption.all fun token =>
      !isLiteral ["x"] token) = true) : Unmatched letters 4 (ofSource (.ofText text)) := by
  refine unmatched_of_startsAt rfl fun token hmem => ?_
  have hnot := List.all_eq_true.1 h _ hmem
  exact congrArg some (Bool.not_eq_true' _ ▸ hnot)

/-- A letter may be an extra one too. That letters are repeated does not matter. -/
theorem insertChoice_conservative_letters :
    let s := ofSource (.ofText "a a b\n")
    letters.Scoped ∧ ¬ LooksThrough letters 4 0 ∧ MovesFreely letters 0 3 ∧ Unmatched letters 4 s ∧
      ∃ tree t t', (letters.parse 3).Gives s tree t ∧
        ((letters.insertChoice 0 4).parse 3).Gives s tree t' ∧ t'.items = t.items := by
  intro s
  have hmove : MovesFreely letters 0 3 := by
    refine ⟨.inl rfl, .inl fun hskip => ?_⟩
    cases hskip with
    | repeated h => cases h
    | tree h => cases h
    | expression h => cases h
  have hno : Unmatched letters 4 s := unmatched_extra (by decide +kernel)
  have hlook : ¬ LooksThrough letters 4 0 := not_looksThrough_extra (by decide)
  have hgives : (letters.parse 3 s).value?.map (fun r => r.2.items.head?.map Except.isOk) =
      some (some true) := by decide +kernel
  obtain ⟨⟨tree, t⟩, hvalue, hhead⟩ := Option.map_eq_some_iff.1 hgives
  have hparse := Action.gives_of_value? hvalue
  obtain ⟨t', hparse', hitems⟩ := insertChoice_conservative scoped_letters (by decide) (by decide)
    (by decide) hlook (.inr hmove) hno hparse (by
      intro cause rest hfault
      dsimp only at hhead
      rw [hfault] at hhead
      cases hhead)
  exact ⟨scoped_letters, hlook, hmove, hno, tree, t, t', hparse, hparse', hitems⟩

/-- Letters that may be extra ones are noticed in three ways. Where they are absent an empty list
stands for them. Where they are always there and there are none, they are refused. And a rule that
takes nothing fails in front of a fault that it did not look at before. -/
theorem insertChoice_not_conservative :
    let s := ofSource (.ofText "b\n")
    let faulty := ofSource (.ofText "\"\n")
    letters.Scoped ∧ ¬ LooksThrough letters 4 1 ∧ Unmatched letters 4 s ∧
      (∃ tree t, (letters.parse 2).Gives s tree t ∧
        ¬ ∃ t', ((letters.insertChoice 1 4).parse 2).Gives s tree t') ∧
      (∃ tree t error t', (letters.parse 3).Gives s tree t ∧
        ((letters.insertChoice 1 4).parse 3).Stops s error t') ∧
      ¬ LooksThrough letters 4 5 ∧ Unmatched letters 4 faulty ∧
      ∃ tree t error t', (letters.parse 6).Gives faulty tree t ∧
        ((letters.insertChoice 5 4).parse 6).Stops faulty error t' := by
  intro s faulty
  refine ⟨scoped_letters, not_looksThrough_extra (by decide), unmatched_extra (by decide +kernel),
    ?_, ?_, not_looksThrough_extra (by decide), unmatched_extra (by decide +kernel), ?_⟩
  · have hbefore : (letters.parse 2 s).value?.map (·.1.children.map Tree.kind) =
        some [.branch .parameters, .leaf .plain] := by decide +kernel
    have hafter : ((letters.insertChoice 1 4).parse 2 s).value?.map (·.1.children.map Tree.kind) =
        some [.branch .list, .leaf .plain] := by decide +kernel
    obtain ⟨⟨tree, t⟩, hvalue, hkinds⟩ := Option.map_eq_some_iff.1 hbefore
    obtain ⟨⟨tree', t'⟩, hvalue', hkinds'⟩ := Option.map_eq_some_iff.1 hafter
    refine ⟨tree, t, Action.gives_of_value? hvalue, fun ⟨u, hg⟩ => ?_⟩
    obtain ⟨rfl, -⟩ := hg.unique (Action.gives_of_value? hvalue')
    dsimp only at hkinds hkinds'
    rw [hkinds] at hkinds'
    cases hkinds'
  · have hbefore : (letters.parse 3 s).value?.isSome = true := by decide +kernel
    have hafter : ((letters.insertChoice 1 4).parse 3 s).error?.isSome = true := by decide +kernel
    obtain ⟨⟨tree, t⟩, hvalue⟩ := Option.isSome_iff_exists.1 hbefore
    obtain ⟨⟨error, t'⟩, herror⟩ := Option.isSome_iff_exists.1 hafter
    exact ⟨tree, t, error, t', Action.gives_of_value? hvalue, Action.stops_of_error? herror⟩
  · have hbefore : (letters.parse 6 faulty).value?.isSome = true := by decide +kernel
    have hafter : ((letters.insertChoice 5 4).parse 6 faulty).error?.isSome = true := by
      decide +kernel
    obtain ⟨⟨tree, t⟩, hvalue⟩ := Option.isSome_iff_exists.1 hbefore
    obtain ⟨⟨error, t'⟩, herror⟩ := Option.isSome_iff_exists.1 hafter
    exact ⟨tree, t, error, t', Action.gives_of_value? hvalue, Action.stops_of_error? herror⟩

end Grammar

end TreeScript
