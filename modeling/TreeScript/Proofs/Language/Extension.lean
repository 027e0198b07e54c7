import TreeScript.Proofs.Language.Shape
import TreeScript.Proofs.Language.Statement

/-!
# The full language extends the basic one

The full language changes two rules of the basic one. An operand may be followed by calls, and a
compound statement may be a definition. So a rule of the basic language reads what the full
language means by it (`closedOn_heard`), but for two things. No token may be `def`, which is a name
in the basic language. And a rule that ends with an operand may stop before a parenthesis, where
the full language would go on with a call: such a rule is *open*.

In the rules themselves, every element that ends with an operand is the last one of an open rule or
is followed by an element that does not start at a parenthesis (`guarded_basic`). So no statement
that the basic language reads has a parenthesis after an operand, and the full language reads the
same (`exists_gives_of_basic`).
-/

namespace TreeScript

namespace Language

open Grammar TreeScript.Derivation TokenStream

/-! ## Tokens and first tokens -/

/-- The tokens are plain, and none of them begins a definition. -/
def DefFree (tokens : List Token) : Prop :=
  AllPlain tokens ∧ ∀ token ∈ tokens, ¬ IsWord "def" token

theorem DefFree.suffix {tokens rest : List Token} (hs : rest <:+ tokens) (h : DefFree tokens) :
    DefFree rest := ⟨h.1.suffix hs, fun token ht => h.2 token (hs.subset ht)⟩

theorem DefFree.front {tokens : List Token} (h : DefFree tokens) :
    ¬ IsWord "def" (front tokens) := by
  cases tokens with
  | nil => simp [IsWord]
  | cons token tokens => exact h.2 token List.mem_cons_self

variable {token : Token} {tokens rest : List Token} {tree : Tree} {trees : List Tree}

/-- Both languages take the same tokens for names, but for `def`. -/
theorem accepts_basic_eq (h : ¬ IsWord "def" token) (wanted : TokenClass) :
    basic.grammar.accepts wanted token = full.grammar.accepts wanted token := by
  cases wanted with
  | number => simp only [accepts]
  | string => simp only [accepts]
  | name =>
      have hreserved : full.grammar.reserved = basic.grammar.reserved ++ [")", "def"] := by decide
      obtain ⟨kind, line⟩ := token
      cases kind with
      | word text =>
          have hdef : text ≠ "def" := fun ht => h (congrArg Token.Kind.word ht)
          by_cases hparen : text = ")"
          · have hname : Token.isNameStart ')' = false := by decide
            simp [accepts, Token.isName, hparen, hname]
          · simp [accepts, Token.toText, Token.Kind.toText, isReserved, hreserved, hdef, hparen]
      | _ => simp [accepts, Token.isName]

/-- The rules of the basic language do not refer to those for functions. -/
theorem rules_lt_basic : ∀ id < basicSize, ∀ element ∈ (basic.grammar.rule id).elements,
    ∀ rule ∈ element.rules, rule < basicSize := by decide +kernel

/-- Where a rule starts is the same in both languages, but for definitions. -/
theorem head?_elements_basic : ∀ id < basicSize, id ≠ compoundId →
    (full.grammar.rule id).elements.head? = (basic.grammar.rule id).elements.head? := by
  decide +kernel

/-- Away from `def`, the rules of the basic language start alike in both. The induction is on the
steps. -/
theorem startsAtWithin_full_of_basic (h : ¬ IsWord "def" token) :
    ∀ (n m : Nat) (id : RuleId) (yes : Bool), n ≤ m → id < basicSize →
      basic.grammar.startsAtWithin token n id = some yes →
      full.grammar.startsAtWithin token m id = some yes
  | 0, _, _, _, _, _, hs => by cases hs
  | n + 1, 0, _, _, hnm, _, _ => by cases hnm
  | n + 1, m + 1, id, yes, hnm, hid, hs => by
      have ih := fun other yes =>
        startsAtWithin_full_of_basic h n m other yes (Nat.le_of_succ_le_succ hnm)
      by_cases hcompound : id = compoundId
      · subst hcompound
        have hno : isLiteral ["def"] token = false :=
          Bool.eq_false_iff.2 fun hl => h (isWord_of_isLiteral hl (by decide))
        obtain ⟨first, hf, rfl⟩ := Option.map_eq_some_iff.1 hs
        have hf' : firstAt (full.grammar.startsAtWithin token m) [ifId, whileId] = some first :=
          firstAt_of_forall (fun other hmem yes =>
            ih other yes (rules_lt_basic compoundId hid _ List.mem_cons_self other hmem)) hf
        cases m with
        | zero => cases hf'
        | succ m =>
            have hdef : full.grammar.startsAtWithin token (m + 1) defId = some false :=
              congrArg some hno
            exact Option.map_eq_some_iff.2 ⟨first, (firstAt_cons hdef _).trans hf', rfl⟩
      · have hhead := head?_elements_basic id hid hcompound
        have hrules := rules_lt_basic id hid
        unfold startsAtWithin at hs ⊢
        cases hb : (basic.grammar.rule id).elements with
        | nil =>
            rw [hb] at hs hhead
            rw [List.head?_eq_none_iff.1 hhead]
            exact hs
        | cons element elements =>
            rw [hb] at hs hhead hrules
            obtain ⟨others, hfull⟩ := List.head?_eq_some_iff.1 hhead
            rw [hfull]
            refine elementStartsAt_of_forall (accepts_basic_eq h)
              (fun other hmem yes => ih other yes ?_) hs
            exact hrules element List.mem_cons_self other (Element.mem_rules_of_asked hmem)

/-- A rule of the basic language starts where it does in the full one. -/
theorem startsAt_full_of_basic (h : ¬ IsWord "def" token) {id : RuleId}
    (hid : id < basicSize) {yes : Bool}
    (hs : basic.grammar.startsAt id token = some yes) : full.grammar.startsAt id token = some yes :=
  startsAtWithin_full_of_basic h 23 31 id yes (by decide) hid hs

/-- Away from `def`, the same rule is chosen in both languages. -/
theorem chooseAt_full_of_basic (h : ¬ IsWord "def" token) {ids : List RuleId}
    (hids : ∀ id ∈ ids, id < basicSize) {first : Option RuleId}
    (hc : basic.grammar.chooseAt ids token = some first) :
    full.grammar.chooseAt ids token = some first :=
  firstAt_of_forall (fun id hmem _ => startsAt_full_of_basic h (hids id hmem)) hc

/-! ## Open rules -/

/-- Whether a rule ends with an operand. -/
def isOpen (id : RuleId) : Bool := [exprId, primaryId, negativeId, factorId, simpleId].contains id

/-- What a rule of the basic language reads is what the full language means by it, if an open rule
does not stop before a parenthesis. -/
def Heard : Success := fun id tokens tree rest =>
  rest <:+ tokens ∧
    (id < basicSize → (isOpen id = true → NoCall rest) → Meaning id tokens tree rest)

theorem trims_heard : Trims Heard := fun _ _ _ _ h => h.1

/-- Whether an element ends with an operand. -/
def endsOpen (element : Element) : Bool := element.rules.any isOpen

/-- Whether a rule begins with something other than a parenthesis: a separator, the end of a block
or a block. -/
def isClosing (id : RuleId) : Bool := [separatorId, blockEndId, blockId].contains id

/-- Whether an element does not start at a parenthesis. -/
def endsOperand : Element → Bool
  | .literal texts _ => !texts.contains "("
  | .tree rule => isClosing rule
  | .choice rules => rules.all isClosing
  | _ => false

/-- Whether an element only refers to rules of the basic language, and repeats nothing that ends
with an operand. -/
def isKnown : Element → Bool
  | .repeated rule _ => rule < basicSize && !isOpen rule
  | .orEmpty _ => false
  | .expression factor table _ => factor == factorId && table == operators
  | element => element.rules.all (· < basicSize)

/-- Whether each element that ends with an operand is followed by one that does not start at a
parenthesis, or is the last one and may be so. -/
def guarded (mayLeave : Bool) : List Element → Bool
  | [] => true
  | element :: elements =>
      isKnown element && (!endsOpen element || elements.head?.elim mayLeave endsOperand) &&
        guarded mayLeave elements
termination_by structural elements => elements

theorem guarded_basic : ∀ id < basicSize, id ≠ compoundId →
    guarded (isOpen id) (basic.grammar.rule id).elements = true := by decide +kernel

/-- A separator, the end of a block and a block do not begin with a parenthesis. -/
theorem noCall_of_meaning {id : RuleId} (hid : isClosing id = true)
    (h : Meaning id tokens tree rest) : NoCall tokens := by
  simp only [isClosing, List.contains_eq_mem, List.mem_cons, List.not_mem_nil, or_false,
    decide_eq_true_eq] at hid
  rcases hid with rfl | rfl | rfl
  · obtain ⟨-, separator, hs, rfl⟩ := h
    exact hs.isLiteral_paren
  · obtain ⟨-, rfl, hbrace⟩ := h
    exact (isWord_of_isLiteral hbrace (by decide)).isLiteral_eq ["("]
  · obtain ⟨t, rfl, hb⟩ := h
    obtain ⟨first, t', rfl, hfirst⟩ := hb.opens
    exact hfirst.isLiteral_eq ["("]

theorem noCall_of_isLiteral {texts : List String} (htexts : texts.contains "(" = false)
    (h : isLiteral texts token = true) : isLiteral ["("] token = false := by
  rw [Bool.eq_false_iff]
  intro hparen
  rw [(isWord_of_isLiteral hparen (by decide)).isLiteral_eq, htexts] at h
  cases h

/-- What may come after an operand does not begin with a parenthesis. -/
theorem noCall_of_reads {element : Element} (he : endsOperand element = true)
    (h : Reads full.grammar Meaning element tokens trees rest) : NoCall tokens := by
  cases h with
  | tree hr => exact noCall_of_meaning he hr
  | choice hc hr => exact noCall_of_meaning (List.all_eq_true.1 he _ (mem_of_firstAt hc)) hr
  | dropped hl => exact noCall_of_isLiteral (by simpa [endsOperand] using he) hl
  | kept hl => exact noCall_of_isLiteral (by simpa [endsOperand] using he) hl
  | many => cases he
  | never => cases he
  | once => cases he
  | empty => cases he
  | filled => cases he
  | token => cases he
  | ahead => cases he
  | expression => cases he

/-! ## What basic rules read -/

/-- A rule that does not end with an operand has its meaning, whatever comes after it. -/
theorem meaning_of_heard {id : RuleId} (hid : id < basicSize) (ho : isOpen id = false)
    (h : Heard id tokens tree rest) : Meaning id tokens tree rest :=
  h.2 hid fun hopen => by simp [ho] at hopen

/-- After an operand and its operators no call was left out, as an operator is no parenthesis. -/
theorem chains_meaning {takes : Precedence → Bool} {links : List Link}
    (h : Chains Heard factorId operators takes tokens links rest) (hcall : NoCall rest) :
    NoCall tokens ∧ Chains Meaning factorId operators takes tokens links rest := by
  induction h with
  | done hstop => exact ⟨hcall, .done hstop⟩
  | more ho htakes hr _ ih =>
      obtain ⟨hcall', hchain⟩ := ih hcall
      exact ⟨isLiteral_paren_of_ofToken? ho,
        .more ho htakes (hr.2 (by decide) fun _ => hcall') hchain⟩

/-- What a repetition reads without `def` has its meaning in the full language. -/
theorem repeats_meaning {rule : RuleId} (hrule : rule < basicSize) (ho : isOpen rule = false)
    (h : Repeats basic.grammar Heard rule tokens trees rest) (hd : DefFree tokens) :
    Repeats full.grammar Meaning rule tokens trees rest := by
  induction h with
  | done hs => exact .done (startsAt_full_of_basic hd.front hrule hs)
  | more hs hr _ ih =>
      exact .more (startsAt_full_of_basic hd.front hrule hs) (meaning_of_heard hrule ho hr)
        (ih (hd.suffix hr.1))

/-- What an element reads without `def` has its meaning in the full language, if no call comes after
it. -/
theorem reads_meaning {element : Element} (hknown : isKnown element = true)
    (hcall : endsOpen element = true → NoCall rest)
    (h : Reads basic.grammar Heard element tokens trees rest) (hd : DefFree tokens) :
    Reads full.grammar Meaning element tokens trees rest := by
  cases h with
  | @tree rule _ _ _ hr =>
      have hrule : rule < basicSize := by simpa [isKnown, Element.rules] using hknown
      exact .tree (hr.2 hrule fun ho => hcall (by simp [endsOpen, Element.rules, ho]))
  | @choice rules rule _ _ _ hc hr =>
      have hrules : ∀ id ∈ rules, id < basicSize := by simpa [isKnown, Element.rules] using hknown
      have hmem := mem_of_firstAt hc
      have hchoice := chooseAt_full_of_basic hd.front hrules hc
      refine .choice hchoice (hr.2 (hrules rule hmem) fun ho => ?_)
      exact hcall (List.any_eq_true.2 ⟨rule, hmem, ho⟩)
  | many hr =>
      simp only [isKnown, Bool.and_eq_true, decide_eq_true_eq, Bool.not_eq_true'] at hknown
      exact .many (repeats_meaning hknown.1 hknown.2 hr hd)
  | never hs =>
      simp only [isKnown, Bool.and_eq_true, decide_eq_true_eq] at hknown
      exact .never (startsAt_full_of_basic hd.front hknown.1 hs)
  | once hs hr =>
      simp only [isKnown, Bool.and_eq_true, decide_eq_true_eq, Bool.not_eq_true'] at hknown
      exact .once (startsAt_full_of_basic hd.front hknown.1 hs)
        (meaning_of_heard hknown.1 hknown.2 hr)
  | empty => cases hknown
  | filled => cases hknown
  | token ha => exact .token ((accepts_basic_eq (hd.2 _ List.mem_cons_self) _).symm.trans ha)
  | dropped hl => exact .dropped hl
  | kept hl => exact .kept hl
  | ahead hl => exact .ahead hl
  | expression hk hr hc =>
      simp only [isKnown, Bool.and_eq_true, beq_iff_eq] at hknown
      obtain ⟨rfl, rfl⟩ := hknown
      obtain ⟨hcall', hchain⟩ := chains_meaning hc (hcall rfl)
      exact .expression hk (hr.2 (by decide) fun _ => hcall') hchain

/-- Guarded elements read what the full language means by them. The token after an operand is the
first of the next element, or comes after the rule. -/
theorem readsAll_meaning {elements : List Element} {mayLeave : Bool}
    (hguarded : guarded mayLeave elements = true) (hcall : mayLeave = true → NoCall rest)
    (h : ReadsAll basic.grammar Heard elements tokens trees rest) (hd : DefFree tokens) :
    ReadsAll full.grammar Meaning elements tokens trees rest := by
  induction h with
  | nil => exact .nil
  | @cons element elements tokens tokens' rest _ _ hr hrest ih =>
      simp only [guarded, Bool.and_eq_true, Bool.or_eq_true, Bool.not_eq_true'] at hguarded
      obtain ⟨⟨hknown, hleft⟩, helements⟩ := hguarded
      have hrest' := ih helements hcall (hd.suffix (hr.suffix trims_heard))
      refine .cons (reads_meaning hknown (fun ho => ?_) hr hd) hrest'
      rcases hleft with hn | hnext
      · rw [ho] at hn
        cases hn
      · cases hrest' with
        | nil => exact hcall hnext
        | cons hr' _ => exact noCall_of_reads hnext hr'

/-- Without `def` a compound statement is one of the basic language. -/
theorem heard_compound
    (h : ReadsAll basic.grammar Heard [.choice [ifId, whileId]] tokens trees rest) :
    Meaning compoundId tokens (.group .list trees) rest := by
  simp only [readsAll_choice, readsAll_nil] at h
  obtain ⟨rule, tree, _, _, rfl, hchoose, hr, rfl, rfl⟩ := h
  rw [List.append_nil, group_unlessEmpty]
  have hmem := mem_of_firstAt hchoose
  simp only [List.mem_cons, List.not_mem_nil, or_false] at hmem
  rcases hmem with rfl | rfl
  · exact (meaning_of_heard (by decide) (by decide) hr).1
  · exact (meaning_of_heard (by decide) (by decide) hr).1

/-- An operand that is not followed by a parenthesis has no calls. -/
theorem heard_primary
    (h : ReadsAll basic.grammar Heard [.choice [parenId, numberId, nameId, stringId]]
      tokens trees rest)
    (hcall : NoCall rest) : Meaning primaryId tokens (.group .primary trees) rest := by
  simp only [readsAll_choice, readsAll_nil] at h
  obtain ⟨rule, tree, _, tokens', rfl, hchoose, hr, rfl, rfl⟩ := h
  have hatom : Takes Atom tokens tree tokens' := by
    have hmem := mem_of_firstAt hchoose
    simp only [List.mem_cons, List.not_mem_nil, or_false] at hmem
    rcases hmem with rfl | rfl | rfl | rfl
    · exact (meaning_of_heard (by decide) (by decide) hr).1
    · exact (meaning_of_heard (by decide) (by decide) hr).1
    · exact (meaning_of_heard (by decide) (by decide) hr).1
    · exact (meaning_of_heard (by decide) (by decide) hr).1
  obtain ⟨t, rfl, ha⟩ := hatom
  rw [unlessEmpty_of_not_isEmptyList (solid_atom _ _ ha)]
  exact ⟨⟨t, rfl, .plain ha⟩, hcall⟩

/-- Whatever the rules of the basic language read means what the full language means by them. -/
theorem closedOn_heard : ClosedOn basic.grammar DefFree Heard := by
  intro id kind tokens trees rest hd hkind h
  refine ⟨h.suffix trims_heard, fun hid hcall => ?_⟩
  by_cases hcompound : id = compoundId
  · subst hcompound
    cases hkind
    exact heard_compound h
  · by_cases hprimary : id = primaryId
    · subst hprimary
      cases hkind
      exact heard_primary h (hcall rfl)
    · have hreads := readsAll_meaning (guarded_basic id hid hcompound) hcall h hd
      rw [rule_basic_eq id hid hcompound hprimary] at hkind hreads
      exact closedOn_meaning id kind tokens trees rest hd.1 hkind hreads

/-! ## Statements -/

/-- A statement that the basic language reads is read by the full one, with the same tree and up to
the same token. -/
theorem exists_gives_of_basic {stream stream' : TokenStream}
    (hs : stream.Shows tokens []) (hd : DefFree tokens)
    (hg : basic.statement.Gives stream tree stream') :
    ∃ rest stream'', stream'.Shows rest [] ∧ rest <:+ tokens ∧
      full.statement.Gives stream tree stream'' ∧ stream''.Shows rest [] := by
  have hensures : basic.statement.Ensures stream
      (fun tree stream' => ∃ rest, stream'.Shows rest [] ∧ rest <:+ tokens ∧
        Meaning programId tokens tree rest) fun _ _ => True := by
    have hprogram : basic.program = programId := by decide
    rw [Language.statement, hprogram]
    refine ensures_parse fun n => (ensures_parseWithin (closedOn_heard.closed DefFree.suffix)
      (failureClosed_any _ _) n programId stream tokens hs).mono ?_ (fun _ _ _ => trivial)
    rintro tree stream' ⟨rest, hrest, hsuffix, hheard⟩
    exact ⟨rest, hrest, hsuffix, meaning_of_heard (by decide) (by decide) (hheard hd)⟩
  obtain ⟨rest, hrest, hsuffix, hm⟩ := hensures.of_gives hg
  obtain ⟨stream'', hg', hrest'⟩ := exists_gives_of_meaning hs hm (.inr rfl)
  exact ⟨rest, stream'', hrest, hsuffix, hg', hrest'⟩

end Language

end TreeScript
