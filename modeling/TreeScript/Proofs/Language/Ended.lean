import TreeScript.Proofs.Grammar.Steady
import TreeScript.Proofs.Language.Open
import TreeScript.Proofs.Language.Shape
import TreeScript.Proofs.Language.Statement

/-!
# A statement ends with its line

The tokens of a source end with the end of a line. A compound statement ends with a brace and an
expression takes no end of a line, so a separator is left for the statement, which is over when it
has taken that. It does not look at what comes after the tokens.

So if a statement is read from the last tokens of a source, it is read in the same way whatever
lines follow, and if it is wrong for another reason than that the source ends, it stays wrong
(`exists_gives_statement`, `exists_stops_statement`). This holds for both languages.
-/

namespace TreeScript

namespace Grammar

open TokenStream

variable {α β : Type}

/-! ## Parsers that do not look beyond the tokens -/

/-- What the second parser gives on a stream that ends after the tokens, the first one gives on a
stream with a fault there, so it has not looked beyond them. The value and the tokens that are left
meet `post`. -/
def Sure (x y : Parser α) (tokens : List Token) (post : α → List Token → Prop) : Prop :=
  ∀ cause others s₀ s, s₀.Shows tokens (.error cause :: others) → s.Shows tokens [] → x.Ends s₀ →
    y.Ensures s (fun a t => ∃ rest t₀, t.Shows rest [] ∧ x.Gives s₀ a t₀ ∧
      t₀.Shows rest (.error cause :: others) ∧ post a rest) fun _ _ => True

section Sure

variable {x y : Parser α} {f g : α → Parser β} {tokens : List Token}
  {post post' : α → List Token → Prop} {post₂ : β → List Token → Prop}

/-- What follows starts with the tokens that are left before the fault. -/
theorem Sure.bind (h : Sure x y tokens post)
    (hf : ∀ a rest, post a rest → Sure (f a) (g a) rest post₂) :
    Sure (x >>= f) (y >>= g) tokens post₂ := by
  intro cause others s₀ s h₀ hs hends
  obtain ⟨hx, hfx⟩ := Action.ends_bind.1 hends
  rw [Action.ensures_bind]
  refine (h cause others s₀ s h₀ hs hx).mono ?_ (fun _ _ _ => trivial)
  rintro a t ⟨rest, t₀, ht, hg, ht₀, hpost⟩
  refine (hf a rest hpost cause others t₀ t ht₀ ht (hfx.of_gives hg)).mono ?_ (fun _ _ _ => trivial)
  rintro b u ⟨rest', u₀, hu, hg', hu₀, hpost'⟩
  exact ⟨rest', u₀, hu, hg.bind hg', hu₀, hpost'⟩

theorem sure_pure {a : α} (h : post a tokens) : Sure (pure a) (pure a) tokens post :=
  fun _ _ s₀ _ h₀ hs _ => ⟨tokens, s₀, hs, Action.gives_pure a, h₀, h⟩

theorem sure_tell (event : Event) :
    Sure (Action.tell event) (Action.tell event) tokens (fun _ rest => rest = tokens) :=
  fun _ _ s₀ _ h₀ hs _ => ⟨tokens, s₀, hs, ⟨[event], rfl⟩, h₀, rfl⟩

/-- Nothing has to be shown of a parser that gives no value. -/
theorem sure_of_fails (h : ∀ s, y.Ensures s (fun _ _ => False) fun _ _ => True) :
    Sure x y tokens post :=
  fun _ _ _ s _ _ _ => (h s).mono (fun _ _ hf => hf.elim) fun _ _ _ => trivial

/-- A parser that leaves a token has not looked beyond the last one. -/
theorem Steady.sure (h : Steady x y) (hpost : ∀ a rest, post a rest → rest ≠ [])
    (hleft : ∀ s, s.Shows tokens [] →
      y.Ensures s (fun a t => ∃ rest, t.Shows rest [] ∧ post a rest) fun _ _ => True) :
    Sure x y tokens post := by
  intro cause others s₀ s h₀ hs hends
  have hs' : s.Shows (tokens ++ []) [] := by rwa [List.append_nil]
  cases h.joint tokens cause others [] [] s₀ s h₀ hs' with
  | unfinished hn => exact absurd hends hn
  | unfinished' hn =>
      refine (Action.ensures_self y s).mono (fun a t hg => absurd hg.ends hn) fun _ _ _ => trivial
  | @value a t₀ t rest hx hy ht₀ ht =>
      rw [List.append_nil] at ht
      obtain ⟨rest', ht', ha⟩ := (hleft s hs).of_gives hy
      obtain rfl := ht.tokens_eq ht'
      exact hy.ensures ⟨rest, t₀, ht, hx, ht₀, ha⟩
  | error _ _ hy => exact hy.ensures trivial
  | beyond _ _ hsettles =>
      refine (hsettles.and (hleft s hs)).mono ?_ (fun _ _ _ => trivial)
      rintro a t ⟨⟨_, hended, hsuffix⟩, rest, ht, ha⟩
      obtain rfl := List.suffix_nil.1 hsuffix
      exact absurd (ht.tokens_eq hended) (hpost a rest ha)

theorem sure_next_bind {token : Token} {rest : List Token} {f g : Token → Parser β}
    (h : Sure (f token) (g token) rest post₂) :
    Sure (next >>= f) (next >>= g) (token :: rest) post₂ := by
  intro cause others s₀ s h₀ hs hends
  obtain ⟨t₀, hg₀, ht₀⟩ := exists_gives_next h₀
  obtain ⟨t, hg, ht⟩ := exists_gives_next hs
  rw [Action.ensures_bind]
  refine hg.ensures
    ((h cause others t₀ t ht₀ ht ((Action.ends_bind.1 hends).2.of_gives hg₀)).mono ?_
    fun _ _ _ => trivial)
  rintro b u ⟨rest', u₀, hu, hg', hu₀, hpost⟩
  exact ⟨rest', u₀, hu, hg₀.bind hg', hu₀, hpost⟩

end Sure

end Grammar

namespace Language

open Grammar TokenStream

/-! ## Rules that end before their line does -/

/-- The last token before `rest` ends no line. -/
def Braced (tokens rest : List Token) : Prop :=
  ∃ before last, tokens = before ++ last :: rest ∧ last.isEndOfLine = false

theorem Braced.of_suffix {tokens tokens' rest : List Token} (hs : tokens' <:+ tokens)
    (h : Braced tokens' rest) : Braced tokens rest := by
  obtain ⟨t, rfl⟩ := hs
  obtain ⟨before, last, rfl, hlast⟩ := h
  exact ⟨t ++ before, last, by simp, hlast⟩

/-- What ends with a brace still does with a token before it. -/
theorem Braced.cons {token : Token} {tokens rest : List Token} (h : Braced tokens rest) :
    Braced (token :: tokens) rest := h.of_suffix (List.suffix_cons _ _)

/-- Before the end of a line such a rule leaves something. -/
theorem Braced.ne_nil {tokens rest : List Token} (h : Braced tokens rest) (hl : LineEnded tokens) :
    rest ≠ [] := by
  rintro rfl
  obtain ⟨before, last, rfl, hlast⟩ := h
  rw [hl before last rfl] at hlast
  cases hlast

/-- The rules that end with a closing brace. -/
def braced (functions : Bool) (id : RuleId) : Bool :=
  [compoundId, blockId, elseId, ifId, whileId].contains id || functions && id == defId

/-- What is known of where a rule ends. -/
def Tight (functions : Bool) : Success := fun id tokens _ rest =>
  rest <:+ tokens ∧ (inline id = true → StaysOnLine tokens rest) ∧
    (braced functions id = true → Braced tokens rest)

theorem trims_tight (functions : Bool) : Trims (Tight functions) := fun _ _ _ _ h => h.1

theorem inlineSuccess_tight (functions : Bool) : InlineSuccess inline (Tight functions) :=
  fun _ _ _ _ h hi => h.2.1 hi

section Rules

variable {grammar : Grammar} {functions : Bool} {tokens rest : List Token} {trees : List Tree}

/-- A block ends with its closing brace. -/
theorem braced_block (h : ReadsAll grammar (Tight functions)
    [.literal ["\x7b"] false, .repeated blockStatementId .any, .literal ["\x7d"] false]
      tokens trees rest) :
    Braced tokens rest := by
  simp only [readsAll_dropped, readsAll_many, readsAll_nil] at h
  obtain ⟨first, tokens', rfl, -, found, _, _, rfl, hmany, last, _, rfl, hlast, rfl, rfl⟩ := h
  have hend : last.isEndOfLine = false := isEndOfLine_of_isLiteral hlast (by decide)
  exact .cons (.of_suffix (hmany.suffix (trims_tight functions)) ⟨[], last, rfl, hend⟩)

theorem braced_else (h : ReadsAll grammar (Tight functions)
    [.literal ["else"] false, .tree blockId] tokens trees rest) : Braced tokens rest := by
  simp only [readsAll_dropped, readsAll_tree, readsAll_nil] at h
  obtain ⟨_, _, rfl, -, _, _, _, rfl, hb, rfl, rfl⟩ := h
  exact .cons (hb.2.2 rfl)

/-- An `if` ends with its last block. -/
theorem braced_if (h : ReadsAll grammar (Tight functions)
    [.literal ["if"] false, .tree exprId, .tree blockId, .repeated elseId .atMostOnce]
      tokens trees rest) :
    Braced tokens rest := by
  simp only [readsAll_dropped, readsAll_tree, readsAll_once, readsAll_nil] at h
  obtain ⟨_, _, rfl, -, _, _, _, rfl, hc, _, _, _, rfl, hb, h⟩ := h
  refine .cons (.of_suffix hc.1 ?_)
  rcases h with ⟨-, rfl, rfl⟩ | ⟨_, _, _, rfl, -, he, rfl, rfl⟩
  · exact hb.2.2 rfl
  · exact .of_suffix hb.1 (he.2.2 rfl)

theorem braced_while (h : ReadsAll grammar (Tight functions)
    [.literal ["while"] false, .tree exprId, .tree blockId] tokens trees rest) :
    Braced tokens rest := by
  simp only [readsAll_dropped, readsAll_tree, readsAll_nil] at h
  obtain ⟨_, _, rfl, -, _, _, _, rfl, hc, _, _, _, rfl, hb, rfl, rfl⟩ := h
  exact .cons (.of_suffix hc.1 (hb.2.2 rfl))

theorem braced_def (h : ReadsAll grammar (Tight functions)
    [.literal ["def"] false, .token .name (.leaf .plain), .tree paramListId, .tree blockId]
      tokens trees rest) :
    Braced tokens rest := by
  simp only [readsAll_dropped, readsAll_token, readsAll_tree, readsAll_nil] at h
  obtain ⟨_, _, rfl, -, _, _, _, rfl, rfl, -, _, _, _, rfl, hp, _, _, _, rfl, hb, rfl, rfl⟩ := h
  exact .cons (.cons (.of_suffix hp.1 (hb.2.2 rfl)))

theorem braced_choice {rules : List RuleId}
    (h : ReadsAll grammar (Tight functions) [.choice rules] tokens trees rest)
    (hrules : ∀ rule ∈ rules, braced functions rule = true) : Braced tokens rest := by
  simp only [readsAll_choice, readsAll_nil] at h
  obtain ⟨rule, _, _, _, rfl, hchoose, hr, rfl, rfl⟩ := h
  exact hr.2.2 (hrules rule (mem_of_firstAt hchoose))

/-- A grammar whose inline rules are inline and whose braced rules end with a brace is tight. -/
theorem closed_tight (hi : InlineRules grammar inline)
    (hb : ∀ id tokens trees rest, braced functions id = true →
      ReadsAll grammar (Tight functions) (grammar.rule id).elements tokens trees rest →
      Braced tokens rest) : Closed grammar (Tight functions) := by
  intro id kind tokens trees rest _ h
  exact ⟨h.suffix (trims_tight functions),
    fun hid => h.staysOnLine (inlineSuccess_tight functions) (hi id hid),
    fun hid => hb id _ _ _ hid h⟩

end Rules

/-- In the full language a rule is read as its first and last tokens have to be. -/
theorem closed_tight_full : Closed full.grammar (Tight true) := by
  refine closed_tight inlineRules_full fun id tokens trees rest hid h => ?_
  have hid : id = compoundId ∨ id = blockId ∨ id = elseId ∨ id = ifId ∨ id = whileId ∨
      id = defId := by
    simpa [braced, or_assoc] using hid
  rcases hid with rfl | rfl | rfl | rfl | rfl | rfl
  · exact braced_choice h (by decide)
  · exact braced_block h
  · exact braced_else h
  · exact braced_if h
  · exact braced_while h
  · exact braced_def h

/-- So it is in the basic language. -/
theorem closed_tight_basic : Closed basic.grammar (Tight false) := by
  refine closed_tight inlineRules_basic fun id tokens trees rest hid h => ?_
  have hid : id = compoundId ∨ id = blockId ∨ id = elseId ∨ id = ifId ∨ id = whileId := by
    simpa [braced, or_assoc] using hid
  rcases hid with rfl | rfl | rfl | rfl | rfl
  · exact braced_choice h (by decide)
  · exact braced_block h
  · exact braced_else h
  · exact braced_if h
  · exact braced_while h

/-- A compound statement or an expression before the end of a line leaves a token. -/
theorem ensures_leaves {grammar : Grammar} {functions : Bool}
    (hc : Closed grammar (Tight functions)) {tokens : List Token} (hl : LineEnded tokens)
    (hn : tokens ≠ []) {id : RuleId}
    (hid : id = compoundId ∨ id = simpleId) (n : Nat) {s : TokenStream} (hs : s.Shows tokens []) :
    (grammar.parseWithin n id).Ensures s
      (fun _ t => ∃ rest, t.Shows rest [] ∧ rest ≠ [] ∧ LineEnded rest) fun _ _ => True := by
  refine (ensures_parseWithin hc (failureClosed_any _ _) n id s tokens hs).mono ?_
    (fun _ _ _ => trivial)
  rintro tree t ⟨rest, ht, hsuffix, hinline, hbraced⟩
  have hrest : rest ≠ [] := by
    rcases hid with rfl | rfl
    · exact (hbraced rfl).ne_nil hl
    · rintro rfl
      exact hn ((hinline rfl).eq_nil hl)
  exact ⟨rest, ht, hrest, hl.suffix hsuffix⟩

/-! ## Statements -/

section Statements

variable {grammar : Grammar} {tokens : List Token}

theorem sure_branch (kind : Tree.Kind) (trees : List Tree) :
    Sure (branch kind trees) (branch kind trees) tokens (fun _ _ => True) := by
  cases kind with
  | branch kind => exact sure_pure trivial
  | leaf kind => exact sure_of_fails fun _ => trivial

/-- A rule does not look too far if its elements do not. -/
theorem sure_rule {id : RuleId}
    (h : ∀ n m, Sure (grammar.parseElements (grammar.parseWithin n) n (grammar.rule id).elements)
      (grammar.parseElements (grammar.parseWithin m) m (grammar.rule id).elements) tokens
      (fun _ _ => True)) :
    ∀ n m, Sure (grammar.parseWithin n id) (grammar.parseWithin m id) tokens (fun _ _ => True)
  | _, 0 => fun _ _ _ _ _ _ _ => trivial
  | 0, _ + 1 => fun _ _ _ _ _ _ hends => absurd rfl hends
  | n + 1, m + 1 => by
      rw [parseWithin, parseWithin, parseRule, parseRule]
      refine (sure_tell _).bind fun _ rest hrest => ?_
      subst hrest
      exact (h n m).bind fun trees rest _ => sure_branch _ trees

section Elements

variable {parse parse' : RuleId → Parser Tree} {n m : Nat} {element : Element}

theorem sure_last (h : Sure (grammar.parseElement parse n element)
      (grammar.parseElement parse' m element) tokens (fun _ _ => True)) :
    Sure (grammar.parseElements parse n [element]) (grammar.parseElements parse' m [element]) tokens
      (fun _ _ => True) :=
  h.bind fun _ _ _ => (sure_pure trivial : Sure (pure []) (pure []) _ fun _ _ => True).bind
    fun _ _ _ => sure_pure trivial

/-- The elements after a rule start where that rule has stopped. -/
theorem sure_tree {rule : RuleId} {elements : List Element} {left : List Token → Prop}
    (h : Sure (parse rule) (parse' rule) tokens (fun _ rest => left rest))
    (hrest : ∀ rest, left rest → Sure (grammar.parseElements parse n elements)
      (grammar.parseElements parse' m elements) rest (fun _ _ => True)) :
    Sure (grammar.parseElements parse n (.tree rule :: elements))
      (grammar.parseElements parse' m (.tree rule :: elements)) tokens (fun _ _ => True) := by
  have htree : Sure (grammar.parseElement parse n (.tree rule))
      (grammar.parseElement parse' m (.tree rule)) tokens (fun _ rest => left rest) :=
    h.bind fun _ _ hleft => sure_pure hleft
  exact htree.bind fun _ rest hleft => (hrest rest hleft).bind fun _ _ _ => sure_pure trivial

theorem sure_dropped (hn : tokens ≠ []) (texts : List String) :
    Sure (grammar.parseElement parse n (.literal texts false))
      (grammar.parseElement parse' m (.literal texts false)) tokens (fun _ _ => True) := by
  obtain ⟨token, rest, rfl⟩ := List.exists_cons_of_ne_nil hn
  refine sure_next_bind ?_
  split
  · exact sure_pure trivial
  · exact sure_of_fails fun _ => trivial

/-- A look at the first token leaves all tokens. -/
theorem sure_starts (hn : tokens ≠ []) (rule : RuleId) :
    Sure (grammar.starts rule) (grammar.starts rule) tokens (fun _ rest => rest = tokens) := by
  refine (steady_starts rule).sure (fun _ _ hrest => hrest ▸ hn) fun s hs => ?_
  exact (ensures_starts rule hs).mono (fun _ _ h => ⟨tokens, h.1, rfl⟩) fun _ _ _ => trivial

/-- The chosen rule starts at a token that is there. -/
theorem sure_choice (hn : tokens ≠ []) {rules : List RuleId}
    (h : ∀ rule ∈ rules, Sure (parse rule) (parse' rule) tokens (fun _ _ => True)) :
    Sure (grammar.parseElement parse n (.choice rules))
      (grammar.parseElement parse' m (.choice rules))
      tokens (fun _ _ => True) := by
  have hchoose : Sure (grammar.choose rules) (grammar.choose rules) tokens
      (fun chosen rest => rest = tokens ∧ ∀ rule, chosen = some rule → rule ∈ rules) := by
    refine (steady_firstOf steady_starts rules).sure (fun _ _ hpost => hpost.1 ▸ hn) fun s hs => ?_
    refine (ensures_choose rules hs).mono ?_ (fun _ _ _ => trivial)
    rintro chosen t ⟨ht, hchosen⟩
    exact ⟨tokens, ht, rfl, fun rule hrule => mem_of_firstAt (hrule ▸ hchosen)⟩
  refine hchoose.bind fun chosen rest hpost => ?_
  obtain ⟨rfl, hmem⟩ := hpost
  cases chosen with
  | some rule => exact (h rule (hmem rule rfl)).bind fun _ _ _ => sure_pure trivial
  | none =>
      refine sure_of_fails fun s => ?_
      rw [Action.ensures_bind]
      exact (Action.ensures_self _ s).mono (fun _ _ _ => trivial) fun _ _ _ => trivial

end Elements

/-- The rules of statements at the top. -/
structure Top (grammar : Grammar) : Prop where
  separator : (grammar.rule separatorId).elements = [separatorSep]
  compoundStatement : (grammar.rule compoundStatementId).elements =
    [.tree compoundId, .repeated separatorId .atMostOnce]
  simpleStatement : (grammar.rule simpleStatementId).elements = [.tree simpleId, separatorSep]
  nullStatement : (grammar.rule nullStatementId).elements = [separatorSep]
  program : (grammar.rule programId).elements =
    [.choice [compoundStatementId, simpleStatementId, nullStatementId]]

theorem top_full : Top full.grammar := by constructor <;> decide +kernel

theorem top_basic : Top basic.grammar := by constructor <;> decide +kernel

/-- A separator takes a token that is there and looks no further. -/
theorem sure_separator (ht : Top grammar) (hn : tokens ≠ []) :
    ∀ n m, Sure (grammar.parseWithin n separatorId) (grammar.parseWithin m separatorId) tokens
      (fun _ _ => True) := by
  refine sure_rule fun n m => ?_
  rw [ht.separator]
  exact sure_last (sure_dropped hn _)

variable {functions : Bool} (hc : Closed grammar (Tight functions))
include hc

/-- What is left by a compound statement or an expression is looked at next. -/
theorem sure_leaves (hl : LineEnded tokens) (hn : tokens ≠ []) {id : RuleId}
    (hid : id = compoundId ∨ id = simpleId) (n m : Nat) :
    Sure (grammar.parseWithin n id) (grammar.parseWithin m id) tokens
      (fun _ rest => rest ≠ [] ∧ LineEnded rest) :=
  (steady_parseWithin n m id).sure (fun _ _ hpost => hpost.1) fun _ hs =>
    ensures_leaves hc hl hn hid m hs

/-- A statement does not look beyond the last tokens of a source. -/
theorem sure_statement (ht : Top grammar) (hl : LineEnded tokens) (hn : tokens ≠ []) :
    ∀ n m, Sure (grammar.parseWithin n programId) (grammar.parseWithin m programId) tokens
      (fun _ _ => True) := by
  refine sure_rule fun n m => ?_
  rw [ht.program]
  refine sure_last (sure_choice hn fun rule hmem => ?_)
  simp only [List.mem_cons, List.not_mem_nil, or_false] at hmem
  rcases hmem with rfl | rfl | rfl
  · refine sure_rule (fun n m => ?_) n m
    rw [ht.compoundStatement]
    refine sure_tree (sure_leaves hc hl hn (.inl rfl) n m) fun rest hleft => sure_last ?_
    refine (sure_starts hleft.1 separatorId).bind fun yes rest' hrest => ?_
    subst hrest
    cases yes with
    | true => exact (sure_separator ht hleft.1 n m).bind fun _ _ _ => sure_pure trivial
    | false => exact sure_pure trivial
  · refine sure_rule (fun n m => ?_) n m
    rw [ht.simpleStatement]
    exact sure_tree (sure_leaves hc hl hn (.inr rfl) n m) fun rest hleft =>
      sure_last (sure_dropped hleft.1 _)
  · refine sure_rule (fun n m => ?_) n m
    rw [ht.nullStatement]
    exact sure_last (sure_dropped hn _)

end Statements

/-! ## More lines -/

/-- What may come after tokens of a source: anything if the source ends with them, and if there is a
fault, this fault. -/
inductive Continues (tokens : List Token) : List Item → List Token → List Item → Prop where
  /-- The source ends with a line, and more lines follow. -/
  | ended {extra : List Token} {tail : List Item} :
    LineEnded tokens → Continues tokens [] extra tail
  /-- The fault is met. -/
  | fault {cause : ReadError} {others others' : List Item} :
      Continues tokens (.error cause :: others) [] (.error cause :: others')

/-- The source goes on alike after fewer tokens. -/
theorem Continues.suffix {tokens rest extra : List Token} {tail tail' : List Item}
    (h : Continues tokens tail extra tail') (hs : rest <:+ tokens) :
    Continues rest tail extra tail' := by
  cases h with
  | ended hl => exact .ended (hl.suffix hs)
  | fault => exact .fault

/-- A statement does not depend on what comes after the tokens, unless it gets there. -/
theorem joint_statement (language : Language) : Joint language.statement language.statement :=
  (steady_parse language.program).joint

section More

variable {language : Language} (hlanguage : language = full ∨ language = basic)
  {tokens extra : List Token} {tail tail' : List Item} {s s' t : TokenStream}
  (hs : s.Shows tokens tail) (hs' : s'.Shows (tokens ++ extra) tail')
  (hgo : Continues tokens tail extra tail')
include hlanguage

/-- Both languages are tight and have the same rules at the top. -/
theorem exists_closed_tight : ∃ functions, Closed language.grammar (Tight functions) ∧
    Top language.grammar ∧ language.program = programId := by
  rcases hlanguage with rfl | rfl
  · exact ⟨true, closed_tight_full, top_full, rfl⟩
  · exact ⟨false, closed_tight_basic, top_basic, rfl⟩

include hs

/-- A statement leaves a suffix of the tokens. -/
theorem exists_suffix_of_statement {tree : Tree} (hg : language.statement.Gives s tree t) :
    ∃ rest, t.Shows rest tail ∧ rest <:+ tokens := by
  obtain ⟨functions, hc, -, -⟩ := exists_closed_tight hlanguage
  obtain ⟨rest, ht, hsuffix, -⟩ := (ensures_parse fun n =>
    ensures_parseWithin hc (failureClosed_any _ _) n language.program s tokens hs).of_gives hg
  exact ⟨rest, ht, hsuffix⟩

/-- Before the end of a source a statement is read without a look beyond it. -/
theorem exists_gives_before_fault (htail : tail = []) (hl : LineEnded tokens) (hn : tokens ≠ [])
    {cause : ReadError} {s₀ : TokenStream} (h₀ : s₀.Shows tokens [.error cause]) {tree : Tree}
    (hg : language.statement.Gives s tree t) :
    ∃ rest t₀, t.Shows rest [] ∧ language.statement.Gives s₀ tree t₀ ∧
      t₀.Shows rest [.error cause] := by
  subst htail
  obtain ⟨functions, hc, htop, hprogram⟩ := exists_closed_tight hlanguage
  have hends := ends_statement hlanguage s₀
  rw [Language.statement, hprogram] at hg hends ⊢
  obtain ⟨rest, t₀, ht, hg₀, ht₀, -⟩ :=
    (sure_statement hc htop hl hn _ _ cause [] s₀ s h₀ hs hends).of_gives hg
  exact ⟨rest, t₀, ht, hg₀, ht₀⟩

include hs' hgo

/-- A statement is read in the same way whatever lines follow. On some stream with a fault after the
tokens it is read too. -/
theorem exists_gives_statement (hn : tokens ≠ []) {tree : Tree}
    (hg : language.statement.Gives s tree t) :
    ∃ rest t', t.Shows rest tail ∧ rest <:+ tokens ∧ language.statement.Gives s' tree t' ∧
      t'.Shows (rest ++ extra) tail' := by
  obtain ⟨rest, ht, hsuffix⟩ := exists_suffix_of_statement hlanguage hs hg
  have hcautious : ∃ cause others s₀ t₀, s₀.Shows tokens (.error cause :: others) ∧
      language.statement.Gives s₀ tree t₀ ∧ t₀.Shows rest (.error cause :: others) := by
    cases hgo with
    | ended hl =>
        have h₀ : TokenStream.Shows ⟨tokens, [.garbled], 0⟩ tokens [.error .garbled] :=
          ⟨rfl, by simp⟩
        obtain ⟨rest', t₀, ht', hg₀, ht₀⟩ :=
          exists_gives_before_fault hlanguage hs rfl hl hn h₀ hg
        obtain rfl := ht.tokens_eq ht'
        exact ⟨_, _, _, t₀, h₀, hg₀, ht₀⟩
    | fault => exact ⟨_, _, s, t, hs, hg, ht⟩
  obtain ⟨cause, others, s₀, t₀, h₀, hg₀, ht₀⟩ := hcautious
  cases joint_statement language tokens cause others extra tail' s₀ s' h₀ hs' with
  | unfinished hn => exact absurd (ends_statement hlanguage s₀) hn
  | unfinished' hn => exact absurd (ends_statement hlanguage s') hn
  | value hx hy ht₀' ht' =>
      obtain ⟨rfl, rfl⟩ := hg₀.unique hx
      obtain rfl := ht₀.tokens_eq ht₀'
      exact ⟨rest, _, ht, hsuffix, hy, ht'⟩
  | error _ hx => exact absurd hx hg₀.not_stops
  | beyond _ hx => exact absurd hx hg₀.not_stops

omit hs hs' hgo

/-- A statement that meets a fault, or an error before it, meets it again whatever lines follow.
Both streams have the fault, so they can change places. -/
theorem exists_stops_of_fault {cause : ReadError} {others others' : List Item}
    (hs : s.Shows tokens (.error cause :: others)) (hs' : s'.Shows tokens (.error cause :: others'))
    {error : ParseError} (hstops : language.statement.Stops s error t) :
    ∃ t', language.statement.Stops s' error t' := by
  have hends := ends_statement hlanguage
  have hforth : s'.Shows (tokens ++ []) (.error cause :: others') := by rwa [List.append_nil]
  cases joint_statement language tokens cause others [] _ s s' hs hforth with
  | unfinished hn => exact absurd (hends s) hn
  | unfinished' hn => exact absurd (hends s') hn
  | value hx => exact absurd hstops hx.not_stops
  | error _ hx hy => exact ⟨_, hstops.error_eq hx ▸ hy⟩
  | beyond hbefore hx =>
      cases hbefore
      obtain rfl := hstops.error_eq hx
      have hback : s.Shows (tokens ++ []) (.error cause :: others) := by rwa [List.append_nil]
      cases joint_statement language tokens cause others' [] _ s' s hs' hback with
      | unfinished hn => exact absurd (hends s') hn
      | unfinished' hn => exact absurd (hends s) hn
      | value _ hy => exact absurd hstops hy.not_stops
      | error hread _ hy => exact absurd (hstops.error_eq hy).symm (hread _)
      | beyond hbefore hx' =>
          cases hbefore
          exact ⟨_, hx'⟩

/-- An error at the end of a source that is not due to the end is met before a fault there. -/
theorem stops_before_fault (hs : s.Shows tokens []) {cause : ReadError} {s₀ : TokenStream}
    (h₀ : s₀.Shows tokens [.error cause]) {error : ParseError}
    (hstops : language.statement.Stops s error t) (he : error.isIncomplete = false) :
    (∀ cause, error ≠ .read cause) ∧ ∃ t₀, language.statement.Stops s₀ error t₀ := by
  have hs' : s.Shows (tokens ++ []) [] := by rwa [List.append_nil]
  cases joint_statement language tokens cause [] [] [] s₀ s h₀ hs' with
  | unfinished hn => exact absurd (ends_statement hlanguage s₀) hn
  | unfinished' hn => exact absurd (ends_statement hlanguage s) hn
  | value _ hy => exact absurd hstops hy.not_stops
  | error hread hx hy =>
      obtain rfl := hstops.error_eq hy
      exact ⟨hread, _, hx⟩
  | beyond _ _ hsettles =>
      rcases (hsettles.of_stops hstops).of_nil with hincomplete | hinternal
      · rw [he] at hincomplete
        cases hincomplete
      · exact absurd hinternal ((ensures_statement_shape hlanguage s).of_stops hstops)

include hs hs' hgo

/-- What is wrong with a statement stays wrong whatever lines follow, unless the source ends too
early. -/
theorem exists_stops_statement {error : ParseError} (hstops : language.statement.Stops s error t)
    (he : error.isIncomplete = false) : ∃ t', language.statement.Stops s' error t' := by
  cases hgo with
  | fault =>
      rw [List.append_nil] at hs'
      exact exists_stops_of_fault hlanguage hs hs' hstops
  | ended hl =>
      have h₀ : TokenStream.Shows ⟨tokens, [.garbled], 0⟩ tokens [.error .garbled] :=
        ⟨rfl, by simp⟩
      obtain ⟨hread, t₀, hx⟩ := stops_before_fault hlanguage hs h₀ hstops he
      cases joint_statement language tokens _ _ extra tail' _ s' h₀ hs' with
      | unfinished hn => exact absurd (ends_statement hlanguage _) hn
      | unfinished' hn => exact absurd (ends_statement hlanguage s') hn
      | value hx' => exact absurd hx hx'.not_stops
      | error _ hx' hy' => exact ⟨_, hx.error_eq hx' ▸ hy'⟩
      | beyond _ hx' => exact absurd (hx.error_eq hx') (hread _)

end More

end Language

end TreeScript
