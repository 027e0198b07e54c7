import TreeScript.Proofs.Grammar.Relined

/-!
# One more end of line

Two streams differ by one end of a line that only the second one has, right behind another end of a
line. Before a parser gets there and after it has taken both, it does the same on both streams.
In between it may have taken the first end of a line and stand before the other one: the streams are
`Near` each other.

Most rules are *firm*: they never stop in between. This is because they take no end of a line at
all, or because they go on taking ends of lines as often as there are any. A rule that is not firm
may only come last in another rule. If a grammar is `Paced` in this way, all that one more end of a
line can do is to be left over behind a rule that is not firm (`Paced.carries_parse`).
-/

namespace TreeScript

namespace Grammar

open TokenStream

/-! ## The items with one more end of line -/

/-- The second items have one more end of a line, with the number `line`, behind another one or
behind a fault. -/
inductive Ahead (f : Nat → Nat) (line : Nat) : List Item → List Item → Prop where
  /-- Behind the first item. -/
  | here {item : Item} (rest : List Item) :
      (∀ token, item = .ok token → token.isEndOfLine = true) →
      Ahead f line (item :: rest)
        (item.relined f :: .ok ⟨.endOfLine, line⟩ :: rest.map (Item.relined f))
  /-- Behind a later one. -/
  | later (item : Item) {items items' : List Item} :
      Ahead f line items items' → Ahead f line (item :: items) (item.relined f :: items')

/-- The token that only the second items have is still to come, or it is gone. -/
def Apart (f : Nat → Nat) (line : Nat) (items items' : List Item) : Prop :=
  Ahead f line items items' ∨ AllRelined f items items'

/-- The token that only the second items have comes next. -/
def Beside (f : Nat → Nat) (line : Nat) (items items' : List Item) : Prop :=
  items' = .ok ⟨.endOfLine, line⟩ :: items.map (Item.relined f)

/-- The items differ by at most the one token, wherever it is. -/
def Near (f : Nat → Nat) (line : Nat) (items items' : List Item) : Prop :=
  Apart f line items items' ∨ Beside f line items items'

variable {f : Nat → Nat} {line : Nat}

theorem AllRelined.apart {items items' : List Item} (h : AllRelined f items items') :
    Apart f line items items' := .inr h

theorem Apart.near {items items' : List Item} (h : Apart f line items items') :
    Near f line items items' := .inl h

/-- As long as no end of a line is taken, the one more token is still to come. When one is taken, it
may be the next one. -/
theorem aligned_apart (f : Nat → Nat) (line : Nat) : Aligned f (Apart f line) (Near f line) where
  begins := by
    rintro items items' (h | h)
    · cases h with
      | @here item rest hline =>
          cases item with
          | ok token =>
              refine .token ⟨.inr rfl, fun hno => ?_⟩
              rw [hline token rfl] at hno
              cases hno
          | error cause => exact .fault _ _ _
      | @later item rest rest' hrest =>
          have hrest : Apart f line rest rest' := .inl hrest
          cases item with
          | ok token => exact .token ⟨hrest.near, fun _ => hrest⟩
          | error cause => exact .fault _ _ _
    · have hbegins := (aligned_allRelined f).begins _ _ h
      cases hbegins with
      | ended => exact .ended
      | fault => exact .fault _ _ _
      | token hrest => exact .token ⟨hrest.1.apart.near, fun _ => hrest.1.apart⟩

/-- The one more token is behind the items that end with the end of a line. -/
theorem ahead_append {before : List Item} (hn : before ≠ [])
    (h : ∀ token, before.getLast? = some (.ok token) → token.isEndOfLine = true)
    (after : List Item) :
    Ahead f line (before ++ after)
      (before.map (Item.relined f) ++ .ok ⟨.endOfLine, line⟩ :: after.map (Item.relined f)) := by
  induction before with
  | nil => exact absurd rfl hn
  | cons item before ih =>
      cases before with
      | nil => exact .here after fun token hitem => h token (by rw [hitem]; rfl)
      | cons second before =>
          refine .later item (ih (List.cons_ne_nil _ _) fun token hlast => h token ?_)
          rw [List.getLast?_cons_cons]
          exact hlast

/-- One more end of a line between some items and others leaves them near. -/
theorem near_append {before : List Item}
    (h : ∀ token, before.getLast? = some (.ok token) → token.isEndOfLine = true)
    (after : List Item) :
    Near f line (before ++ after)
      (before.map (Item.relined f) ++ .ok ⟨.endOfLine, line⟩ :: after.map (Item.relined f)) := by
  cases before with
  | nil => exact .inr rfl
  | cons item before => exact .inl (.inl (ahead_append (List.cons_ne_nil _ _) h after))

/-! ## Rules that are firm -/

/-- Whether an element is firm, given this for rules. `absorbing` says which rules take an end of a
line and nothing else where one comes next. Such a rule need not be firm to be repeated. -/
def Element.firm (firm absorbing : RuleId → Bool) : Element → Bool
  | .tree rule => firm rule
  | .choice rules => rules.all firm
  | .repeated rule .any => firm rule || absorbing rule
  | .repeated rule .atMostOnce => firm rule
  | .orEmpty rule => firm rule
  | .token _ _ => true
  | .literal texts _ => !texts.contains Token.endOfLineText
  | .ahead _ => true
  | .expression factor _ _ => firm factor

/-- Whether all elements but the last are firm. The last one has to be so if `last` says so. -/
def paced (firm absorbing : RuleId → Bool) (last : Bool) : List Element → Bool
  | [] => true
  | [element] => element.firm firm absorbing || (!last && !element.loops)
  | element :: second :: elements =>
      element.firm firm absorbing && paced firm absorbing last (second :: elements)
termination_by structural elements => elements

/-- Where the end of a line comes next, the rule starts, takes it and gives an empty list. -/
def Absorbs (grammar : Grammar) (rule : RuleId) : Prop :=
  ∀ (s : TokenStream) (line : Nat) (tokens : List Token) (tail : List Item),
    s.Shows (⟨.endOfLine, line⟩ :: tokens) tail →
    (∃ t, (grammar.starts rule).Gives s true t ∧ t.Shows (⟨.endOfLine, line⟩ :: tokens) tail) ∧
      ∀ n, 2 ≤ n → ∃ tree t, (grammar.parseWithin n rule).Gives s tree t ∧
        tree.isEmptyList = true ∧ t.Shows tokens tail

/-- What is not firm comes last in its rule. -/
structure Paced (grammar : Grammar) (firm absorbing : RuleId → Bool) : Prop where
  /-- Every rule is in order. -/
  paced : ∀ id, paced firm absorbing (firm id) (grammar.rule id).elements = true
  /-- What is said to take ends of lines does so. -/
  absorbs : ∀ id, absorbing id = true → Absorbs grammar id

/-- What ties the streams behind a rule, given whether it is firm. -/
def Left (f : Nat → Nat) (line : Nat) : Bool → List Item → List Item → Prop
  | true => Apart f line
  | false => Near f line

theorem Apart.left {items items' : List Item} (h : Apart f line items items') (firm : Bool) :
    Left f line firm items items' := by
  cases firm with
  | true => exact h
  | false => exact h.near

theorem Left.near {firm : Bool} {items items' : List Item} (h : Left f line firm items items') :
    Near f line items items' := by
  cases firm with
  | true => exact Apart.near h
  | false => exact h

variable {firm absorbing : RuleId → Bool} {grammar : Grammar}

/-- A firm element parses firm rules. -/
theorem firm_of_mem_rules {element : Element} (h : element.firm firm absorbing = true)
    (habsorbing : ∀ rule, element = .repeated rule .any → absorbing rule = false) {rule : RuleId}
    (hmem : rule ∈ element.rules) : firm rule = true := by
  cases element with
  | choice rules => exact List.all_eq_true.1 h rule hmem
  | tree other | orEmpty other | expression other operators kind =>
      obtain rfl := List.mem_singleton.1 hmem
      exact h
  | repeated other times =>
      obtain rfl := List.mem_singleton.1 hmem
      cases times with
      | any => simpa [Element.firm, habsorbing rule rfl] using h
      | atMostOnce => exact h
  | token | literal | ahead => cases hmem

/-! ## Elements and rules -/

section Rules

variable {parse parse' : RuleId → Parser Tree} {n m : Nat}
  (h : ∀ rule, Carries f (Apart f line) (Left f line (firm rule)) (Tree.relined f) (parse rule)
    (parse' rule))
  (hsame : ∀ rule, Carries f (AllRelined f) (AllRelined f) (Tree.relined f) (parse rule)
    (parse' rule))
  (habsorb : ∀ rule, absorbing rule = true → ∀ (found : List Tree) (s : TokenStream)
    (rest : List Item), s.items = .ok ⟨.endOfLine, line⟩ :: rest →
      ∃ t, (grammar.repeatOnce parse' rule found).Gives s (.inl found) t ∧ t.items = rest)

include hsame habsorb in
/-- A repetition that meets the token that only the second stream has takes it in a turn of its
own. -/
theorem carries_iterate_of_near {rule : RuleId} (hrule : absorbing rule = true) (hle : n + 1 ≤ m)
    (found : List Tree)
    (hapart : Carries f (Apart f line) (Apart f line) (List.map (Tree.relined f))
      (Action.iterate (grammar.repeatOnce parse rule) n found)
      (Action.iterate (grammar.repeatOnce parse' rule) m (found.map (Tree.relined f)))) :
    Carries f (Near f line) (Apart f line) (List.map (Tree.relined f))
      (Action.iterate (grammar.repeatOnce parse rule) n found)
      (Action.iterate (grammar.repeatOnce parse' rule) m (found.map (Tree.relined f))) := by
  rintro s s' (hs | hs)
  · exact hapart s s' hs
  · obtain ⟨t', hturn, ht'⟩ := habsorb rule hrule (found.map (Tree.relined f)) s' _ hs
    obtain ⟨m, rfl⟩ : ∃ m', m = m' + 1 := ⟨m - 1, by omega⟩
    have hbody : ∀ found, Carries f (AllRelined f) (AllRelined f)
        (Sum.map (List.map (Tree.relined f)) (List.map (Tree.relined f)))
        (grammar.repeatOnce parse rule found)
        (grammar.repeatOnce parse' rule (found.map (Tree.relined f))) :=
      (aligned_allRelined f).carries_repeatOnce (fun _ _ hp => hp) (hsame rule)
    have hrest := carries_iterate hbody (Nat.le_of_succ_le_succ hle) found s t' ht'
    rw [Action.iterate_succ]
    refine hrest.mono ?_ ?_
    · rintro trees u ⟨trees', u', hg, hu, htrees⟩
      exact ⟨trees', u', hturn.bind hg, hu.apart, htrees⟩
    · rintro error u ⟨error', u', hstops, herror⟩
      exact ⟨error', u', hturn.bind_stops hstops, herror⟩

include h hsame habsorb in
/-- A rule that takes all ends of lines leaves none, however often it comes. -/
theorem carries_iterate_absorbing {rule : RuleId} (hrule : absorbing rule = true) :
    ∀ {n m : Nat}, n + 1 ≤ m → ∀ found : List Tree,
      Carries f (Apart f line) (Apart f line) (List.map (Tree.relined f))
        (Action.iterate (grammar.repeatOnce parse rule) n found)
        (Action.iterate (grammar.repeatOnce parse' rule) m (found.map (Tree.relined f)))
  | 0, _, _, _ => carries_unfinished
  | n + 1, m + 1, hle, found => by
      have hle : n + 1 ≤ m := Nat.le_of_succ_le_succ hle
      rw [Action.iterate_succ, Action.iterate_succ, repeatOnce, repeatOnce, bind_assoc, bind_assoc]
      refine ((aligned_apart f line).carries_starts rule).bind fun yes => ?_
      cases yes with
      | false => exact carries_pure (fun _ _ hp => hp) (by simp [List.map_reverse])
      | true =>
          simp only [id, if_true, bind_assoc, pure_bind]
          refine ((h rule).mono (fun _ _ hp => hp) fun _ _ hl => hl.near).bind fun tree => ?_
          rw [unlessEmpty_relined, ← List.map_append]
          exact carries_iterate_of_near hsame habsorb hrule hle _
            (carries_iterate_absorbing hrule hle _)

include h hsame habsorb in
/-- A firm element leaves the one more token still to come or gone. A repetition of a rule that
absorbs takes it where it comes next. -/
theorem carries_parseElement_of_firm (hle : n + 1 ≤ m) {element : Element}
    (hfirm : element.firm firm absorbing = true) :
    Carries f (Apart f line) (Apart f line) (List.map (Tree.relined f))
      (grammar.parseElement parse n element) (grammar.parseElement parse' m element) := by
  by_cases habsorbing : ∃ rule, element = .repeated rule .any ∧ absorbing rule = true
  · obtain ⟨rule, rfl, hrule⟩ := habsorbing
    exact carries_iterate_absorbing h hsame habsorb hrule hle []
  · refine (aligned_apart f line).carries_parseElement (fun _ _ hp => hp) (Nat.le_of_succ_le hle)
      (fun rule hmem => ?_) (fun _ => rfl) fun texts keep token he his items items' _ hp => hp ?_
    · have hrule : firm rule = true := firm_of_mem_rules hfirm (fun other he =>
        Bool.eq_false_iff.2 fun ho => habsorbing ⟨other, he, ho⟩) hmem
      have hcarries := h rule
      rw [hrule] at hcarries
      exact hcarries
    · subst he
      exact isEndOfLine_of_isLiteral his (by simpa [Element.firm] using hfirm)

include h in
/-- An element that is not firm may leave the one more token as the next one. -/
theorem carries_parseElement_of_not_loops (hle : n ≤ m) {element : Element}
    (hloops : element.loops = false) :
    Carries f (Apart f line) (Near f line) (List.map (Tree.relined f))
      (grammar.parseElement parse n element) (grammar.parseElement parse' m element) := by
  refine (aligned_apart f line).carries_parseElement (fun _ _ hp => hp.near) hle
    (fun rule _ => (h rule).mono (fun _ _ hp => hp) fun _ _ hl => hl.near) (fun hyes => ?_)
    fun _ _ _ _ _ _ _ hq _ => hq
  rw [hloops] at hyes
  cases hyes

include h hsame habsorb in
/-- Only the last element may be one that is not firm. -/
theorem carries_parseElements_of_paced (hle : n + 1 ≤ m) {last : Bool} {elements : List Element}
    (hpaced : paced firm absorbing last elements = true) :
    Carries f (Apart f line) (Left f line last) (List.map (Tree.relined f))
      (grammar.parseElements parse n elements) (grammar.parseElements parse' m elements) := by
  induction elements with
  | nil => exact carries_pure (fun _ _ hp => hp.left last) rfl
  | cons element elements ih =>
      cases elements with
      | nil =>
          refine carries_parseElements_cons ?_ (carries_pure (fun _ _ hp => hp) rfl)
          rw [paced, Bool.or_eq_true] at hpaced
          rcases hpaced with hfirm | hlast
          · exact (carries_parseElement_of_firm h hsame habsorb hle hfirm).mono (fun _ _ hp => hp)
              fun _ _ hp => hp.left last
          · rw [Bool.and_eq_true, Bool.not_eq_true', Bool.not_eq_true'] at hlast
            rw [hlast.1]
            exact carries_parseElement_of_not_loops h (Nat.le_of_succ_le hle) hlast.2
      | cons second elements =>
          rw [paced, Bool.and_eq_true] at hpaced
          exact carries_parseElements_cons
            (carries_parseElement_of_firm h hsame habsorb hle hpaced.1) (ih hpaced.2)

end Rules

/-! ## Parsing -/

theorem exists_shows_of_items {s : TokenStream} {token : Token} {rest : List Item}
    (h : s.items = .ok token :: rest) :
    ∃ tokens tail, s.Shows (token :: tokens) tail ∧ rest = tokens.map .ok ++ tail := by
  obtain ⟨tokens, tail, hrest, htail⟩ := exists_tokens_append rest
  exact ⟨tokens, tail, ⟨by rw [h, hrest]; rfl, htail⟩, hrest⟩

/-- One more turn of the repetition takes the end of a line and finds nothing. -/
theorem Absorbs.exists_gives_repeatOnce {rule : RuleId} (h : Absorbs grammar rule) {n : Nat}
    (hn : 2 ≤ n) (found : List Tree) {s : TokenStream} {rest : List Item}
    (hs : s.items = .ok ⟨.endOfLine, line⟩ :: rest) :
    ∃ t, (grammar.repeatOnce (grammar.parseWithin n) rule found).Gives s (.inl found) t ∧
      t.items = rest := by
  obtain ⟨tokens, tail, hshows, rfl⟩ := exists_shows_of_items hs
  obtain ⟨⟨t, hstarts, ht⟩, -⟩ := h s line tokens tail hshows
  obtain ⟨-, hparse⟩ := h t line tokens tail ht
  obtain ⟨tree, u, hg, hempty, hu⟩ := hparse n hn
  refine ⟨u, hstarts.bind (Action.Gives.bind hg ?_), hu.1⟩
  rw [unlessEmpty, hempty, if_pos rfl, List.nil_append]
  exact Action.gives_pure _

section Parsing

variable (hg : Paced grammar firm absorbing)
include hg

/-- The budget on the right has two more units, for the rule that takes the token and the one it
chooses. The induction is on the budget on the left. -/
theorem Paced.carries_parseWithin : ∀ {n m : Nat}, n + 2 ≤ m → ∀ rule : RuleId,
    Carries f (Apart f line) (Left f line (firm rule)) (Tree.relined f) (grammar.parseWithin n rule)
      (grammar.parseWithin m rule)
  | 0, _, _, _ => carries_unfinished
  | n + 1, m + 1, hle, rule => by
      have hle : n + 2 ≤ m := Nat.le_of_succ_le_succ hle
      rw [parseWithin, parseWithin]
      refine carries_parseRule (carries_parseElements_of_paced (Paced.carries_parseWithin hle)
        (fun other => ?_) (fun other hother found s rest hs => ?_) (Nat.le_of_succ_le hle)
        (hg.paced rule))
      · exact relines_iff_carries.1 (relines_parseWithin (by omega) other)
      · exact (hg.absorbs other hother).exists_gives_repeatOnce (by omega) found hs

/-- One more end of a line does not change what a rule gives or how it fails. -/
theorem Paced.carries_parse {rule : RuleId} (hends : ∀ s, (grammar.parse rule).Ends s) :
    Carries f (Apart f line) (Left f line (firm rule)) (Tree.relined f) (grammar.parse rule)
      (grammar.parse rule) :=
  Grammar.carries_parse (k := 2) hends fun _ _ hle => hg.carries_parseWithin hle rule

end Parsing

/-! ## Checking a table -/

/-- A rule with a single element puts together what that gives. -/
theorem gives_parseWithin_of_element {id : RuleId} {kind : Tree.BranchKind} {element : Element}
    {trees : List Tree} {n : Nat} {s t : TokenStream}
    (hkind : (grammar.rule id).kind = .branch kind)
    (helements : (grammar.rule id).elements = [element])
    (h : (grammar.parseElement (grammar.parseWithin n) n element).Gives s trees t) :
    (grammar.parseWithin (n + 1) id).Gives s (.group kind trees) t := by
  have hall : (grammar.parseElements (grammar.parseWithin n) n [element]).Gives s trees t := by
    have hend := h.bind (f := fun trees => return trees ++ []) (Action.gives_pure _)
    rwa [List.append_nil] at hend
  rw [parseWithin, parseRule, hkind, helements]
  exact Action.Gives.bind ⟨[_], rfl⟩ (hall.bind (Action.gives_pure _))

/-- At the token the rule chooses one of kind `kind` that drops the token and does nothing else. -/
structure Drops (grammar : Grammar) (token : Token) (id : RuleId) (kind : Tree.BranchKind) :
    Prop where
  kind_eq : (grammar.rule id).kind = .branch .list
  exists_choice : ∃ rules other texts, (grammar.rule id).elements = [.choice rules] ∧
    grammar.chooseAt rules token = some (some other) ∧ (grammar.rule other).kind = .branch kind ∧
      (grammar.rule other).elements = [.literal texts false] ∧ isLiteral texts token = true

/-- Where a rule drops the next token, the tree of the chosen rule has no children. -/
theorem Drops.exists_gives {token : Token} {id : RuleId} {kind : Tree.BranchKind}
    (h : Drops grammar token id kind) {s : TokenStream} {tokens : List Token} {tail : List Item}
    (hs : s.Shows (token :: tokens) tail) {n : Nat} (hn : 2 ≤ n) :
    ∃ t, (grammar.parseWithin n id).Gives s (.group .list (unlessEmpty (.group kind []))) t ∧
      t.Shows tokens tail := by
  obtain ⟨rules, other, texts, helements, hchoose, hkind, hother, hliteral⟩ := h.exists_choice
  obtain ⟨n, rfl⟩ : ∃ k, n = k + 2 := ⟨n - 2, by omega⟩
  obtain ⟨t, hchosen, ht⟩ := exists_gives_choose_of_shows hs (by simp) hchoose
  obtain ⟨u, htaken, hu⟩ := exists_gives_next ht
  have hdropped : (grammar.parseWithin (n + 1) other).Gives t (.group kind []) u := by
    refine gives_parseWithin_of_element hkind hother (htaken.bind ?_)
    rw [hliteral, if_pos rfl]
    exact Action.gives_pure _
  refine ⟨u, gives_parseWithin_of_element h.kind_eq helements (hchosen.bind ?_), hu⟩
  exact hdropped.bind (Action.gives_pure _)

/-- A rule that drops the end of a line, and starts there, absorbs it. -/
theorem Drops.absorbs {id : RuleId} (h : ∀ line, Drops grammar ⟨.endOfLine, line⟩ id .list)
    (hstarts : ∀ line, grammar.startsAt id ⟨.endOfLine, line⟩ = some true) :
    Absorbs grammar id := by
  intro s line tokens tail hs
  refine ⟨exists_gives_starts_of_shows hs (by simp) (hstarts line), fun n hn => ?_⟩
  obtain ⟨t, hg, ht⟩ := (h line).exists_gives hs hn
  exact ⟨_, t, hg, rfl, ht⟩

/-- Only the rules of the table need a look. -/
theorem paced_of_table
    (h : ∀ id < grammar.rules.size,
      paced firm absorbing (firm id) (grammar.rule id).elements = true)
    (habsorbs : ∀ id, absorbing id = true → Absorbs grammar id) : Paced grammar firm absorbing := by
  refine ⟨fun id => ?_, habsorbs⟩
  rcases Nat.lt_or_ge id grammar.rules.size with hid | hid
  · exact h id hid
  · rw [rule_of_size_le hid]
    rfl

end Grammar

end TreeScript
