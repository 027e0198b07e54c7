import TreeScript.Program
import TreeScript.Proofs.Grammar.Steady
import TreeScript.Proofs.Language.Open
import TreeScript.Proofs.Language.Statement

/-!
# The statements of a source

Parsing a source repeats one step, parsing a statement, until the source ends. It gives the trees of
statements that follow each other (`Statements.exists_gives`). And if it stops because the source
ends too early, closing braces on one more line make statements of all tokens
(`ensures_mendable`).
-/

namespace TreeScript

namespace Program

open Grammar TokenStream TreeScript.Language TreeScript.Derivation

/-! ## One statement -/

section Next

variable {language : Language} {stream stream' stream'' : TokenStream} {token : Token}

theorem gives_nextStatement_end (hpeek : (Grammar.peek 0).Gives stream token stream')
    (hend : token.isEndOfFile = true) (found : List Tree) :
    (nextStatement language found).Gives stream (.inr found.reverse) stream' := by
  refine hpeek.bind ?_
  rw [hend]
  exact Action.gives_pure _

/-- A turn adds one statement to those that were found. -/
theorem gives_nextStatement {tree : Tree} (hpeek : (Grammar.peek 0).Gives stream token stream')
    (hend : token.isEndOfFile = false) (hg : language.statement.Gives stream' tree stream'')
    (found : List Tree) :
    (nextStatement language found).Gives stream (.inl (tree :: found)) stream'' := by
  refine hpeek.bind ?_
  rw [hend]
  exact hg.bind (Action.gives_pure _)

/-- A turn stops where its statement does. -/
theorem stops_nextStatement {error : ParseError}
    (hpeek : (Grammar.peek 0).Gives stream token stream') (hend : token.isEndOfFile = false)
    (hstops : language.statement.Stops stream' error stream'') (found : List Tree) :
    (nextStatement language found).Stops stream error stream'' := by
  refine hpeek.bind_stops ?_
  rw [hend]
  exact hstops.bind _

end Next

/-! ## Statements that follow each other -/

/-- The tokens are statements, each of them up to where the next one begins. -/
inductive Statements : List Token → List Tree → Prop where
  /-- No statement. -/
  | nil : Statements [] []
  /-- One more statement. -/
  | cons {tokens rest : List Token} {tree : Tree} {trees : List Tree} :
      Meaning full.program tokens tree rest → Statements rest trees →
      Statements tokens (tree :: trees)

theorem ne_nil_of_statement {t : List Token} {tree : Tree} (h : Statement t tree) : t ≠ [] := by
  cases h with
  | compound h =>
      obtain ⟨_, _, rfl, -⟩ := h.opens
      simp
  | ended => simp
  | simple => simp
  | null => simp

theorem length_lt_of_meaning {tokens rest : List Token} {tree : Tree}
    (h : Meaning full.program tokens tree rest) : rest.length < tokens.length := by
  obtain ⟨t, rfl, ht⟩ := statement_of_meaning h
  have hpos := List.length_pos_iff.2 (ne_nil_of_statement ht)
  rw [List.length_append]
  omega

theorem Statements.length_le {tokens : List Token} {trees : List Tree}
    (h : Statements tokens trees) :
    trees.length ≤ tokens.length := by
  induction h with
  | nil => exact Nat.le_refl _
  | cons hm _ ih =>
      have := length_lt_of_meaning hm
      rw [List.length_cons]
      omega

/-- From any turn on, the statements that follow are found. -/
theorem Statements.exists_gives_iterate {tokens : List Token} {trees : List Tree}
    (h : Statements tokens trees) : ∀ {n : Nat} {found : List Tree} {stream : TokenStream},
      stream.Shows tokens [] → AllPlain tokens → trees.length < n →
      ∃ stream', (Action.iterate (nextStatement full) n found).Gives stream
        (found.reverse ++ trees) stream' := by
  induction h with
  | nil =>
      intro n found stream hs _ hn
      obtain ⟨n, rfl⟩ := Nat.exists_eq_succ_of_ne_zero (Nat.ne_of_gt hn)
      obtain ⟨line, stream', hpeek⟩ := exists_gives_peek_end hs
      refine ⟨stream', ?_⟩
      rw [Nat.succ_eq_add_one, Action.iterate_succ, List.append_nil]
      exact (gives_nextStatement_end hpeek rfl found).bind (Action.gives_pure _)
  | @cons tokens rest tree trees hm _ ih =>
      intro n found stream hs hp hn
      obtain ⟨n, rfl⟩ := Nat.exists_eq_succ_of_ne_zero (Nat.ne_of_gt (Nat.zero_lt_of_lt hn))
      have hlt := length_lt_of_meaning hm
      cases tokens with
      | nil => simp at hlt
      | cons token tokens =>
          obtain ⟨t, hpeek, ht⟩ := exists_gives_peek hs
          obtain ⟨u, hgives, hu⟩ := exists_gives_of_meaning ht hm (.inr rfl)
          have hend : token.isEndOfFile = false := (hp token List.mem_cons_self).isEndOfFile_eq
          obtain ⟨stream', hrest⟩ := @ih n (tree :: found) u hu
            (hp.suffix (trims_meaning _ _ _ _ hm)) (Nat.lt_of_succ_lt_succ hn)
          refine ⟨stream', ?_⟩
          rw [Nat.succ_eq_add_one, Action.iterate_succ]
          refine (gives_nextStatement hpeek hend hgives found).bind ?_
          simpa using hrest

/-- All statements of a stream are read, one after the other. -/
theorem Statements.exists_gives {tokens : List Token} {trees : List Tree}
    (h : Statements tokens trees) {stream : TokenStream} (hs : stream.Shows tokens [])
    (hp : AllPlain tokens) : ∃ stream', (statements full).Gives stream trees stream' := by
  have hn : trees.length < stream.bound + 1 :=
    Nat.lt_succ_of_le (h.length_le.trans hs.length_le_bound)
  exact h.exists_gives_iterate hs hp hn

/-! ## Sources that end too early -/

/-- Closing braces on one more line. -/
def closing (k line : Nat) : List Token := List.replicate k (brace line) ++ [⟨.endOfLine, line⟩]

/-- With some number of closing braces on one more line, the tokens are statements. -/
def Mendable (tokens : List Token) : Prop :=
  ∃ k, ∀ line, ∃ trees, Statements (tokens ++ closing k line) trees

theorem front_append {rest : List Token} (hn : rest ≠ []) (more : List Token) :
    front (rest ++ more) = front rest := by
  cases rest with
  | nil => exact absurd rfl hn
  | cons token rest => rfl

/-- More tokens after those that are left do not change a statement. -/
theorem meaning_append {tokens rest : List Token} {tree : Tree}
    (h : Meaning full.program tokens tree rest) (hn : rest ≠ []) (more : List Token) :
    Meaning full.program (tokens ++ more) tree (rest ++ more) := by
  change Meaning programId (tokens ++ more) tree (rest ++ more)
  have hfront := front_append hn more
  rcases (h : Meaning programId tokens tree rest) with h | h | h
  · rcases h with ⟨⟨⟨t, rfl, ht⟩, helse⟩, hs⟩ | ⟨separator, hs, ⟨t, rfl, ht⟩, helse⟩
    · refine .inl (.inl ⟨⟨⟨t, by simp, ht⟩, ?_⟩, by rw [hfront]; exact hs⟩)
      intro condition body htree
      rw [hfront]
      exact helse condition body htree
    · exact .inl (.inr ⟨separator, hs, ⟨t, by simp, ht⟩, helse⟩)
  · obtain ⟨separator, hs, ⟨t, rfl, ht⟩, hseen⟩ := h
    exact .inr (.inl ⟨separator, hs, ⟨t, by simp, ht⟩, hseen⟩)
  · obtain ⟨rfl, separator, hs, rfl⟩ := h
    exact .inr (.inr ⟨rfl, separator, hs, rfl⟩)

/-- A statement before what can be mended. -/
theorem Mendable.cons {tokens rest : List Token} {tree : Tree}
    (hm : Meaning full.program tokens tree rest) (hn : rest ≠ []) (h : Mendable rest) :
    Mendable tokens := by
  obtain ⟨k, hk⟩ := h
  refine ⟨k, fun line => ?_⟩
  obtain ⟨trees, ht⟩ := hk line
  exact ⟨tree :: trees, .cons (meaning_append hm hn (closing k line)) ht⟩

/-- An open statement that gets its braces is the last one. -/
theorem mendable_of_closable {tokens : List Token} (h : Closable Compound tokens) :
    Mendable tokens := by
  obtain ⟨k, hk⟩ := h
  refine ⟨k, fun line => ?_⟩
  obtain ⟨tree, ht⟩ := hk line
  refine ⟨[tree], .cons ?_ .nil⟩
  refine .inl (.inr ⟨⟨.endOfLine, line⟩, .inr rfl, ⟨_, ?_, ht⟩, fun _ _ _ => rfl⟩)
  simp [closing]

/-- A statement that the source ends too early for is open. The token that does not fit is the end
of the source, and no token shown is that. -/
theorem mendable_of_incomplete {tokens : List Token} {tail : List Item} {error : ParseError}
    (h : Explained (Wanting full.program tokens) tail error) (he : error.isIncomplete = true)
    (hp : AllPlain tokens) (hl : tail = [] → LineEnded tokens) (hn : tokens ≠ []) :
    tail = [] ∧ Mendable tokens := by
  cases h with
  | @unexpected rest message hf htail =>
      have hsuffix := (hf (by simp)).1
      have hrest : rest = [] := by
        cases rest with
        | nil => rfl
        | cons token rest =>
            have hend : token.isEndOfFile = false :=
              (hp token (hsuffix.mem List.mem_cons_self)).isEndOfFile_eq
            simp [ParseError.ofToken, hend, ParseError.isIncomplete] at he
      subst hrest
      have htail := htail rfl
      have hopen : Closable Compound tokens := (hf.open (by simp) (hl htail) hp).resolve_left hn
      exact ⟨htail, mendable_of_closable hopen⟩
  | unread => cases he
  | shape => cases he

/-- What is left after some statements: mending it mends all tokens. -/
structure Remains (tokens : List Token) (tail : List Item) (rest : List Token) : Prop where
  /-- What is left is plain. -/
  plain : AllPlain rest
  /-- Before the end of the source it ends with a line. -/
  ended : tail = [] → LineEnded rest
  /-- Mending it mends all tokens. -/
  mends : rest ≠ [] → Mendable rest → Mendable tokens

/-- After one more statement, the tokens that remain are still those at the end. -/
theorem Remains.next {tokens rest rest' : List Token} {tail : List Item} {tree : Tree}
    (h : Remains tokens tail rest) (hread : Understood full.program rest tree rest') :
    Remains tokens tail rest' where
  plain := h.plain.suffix hread.suffix
  ended htail := (h.ended htail).suffix hread.suffix
  mends hn hm := by
    have hmeaning := hread.meaning h.plain
    have hne : rest ≠ [] := by
      rintro rfl
      exact Nat.not_lt_zero _ (length_lt_of_meaning hmeaning)
    exact h.mends hne (.cons hmeaning hn hm)

/-- If the source ends too early, its tokens can be mended. -/
theorem ensures_mendable {tokens : List Token} {tail : List Item} {stream : TokenStream}
    (hs : stream.Shows tokens tail) (hp : AllPlain tokens) (hl : tail = [] → LineEnded tokens) :
    (statements full).Ensures stream (fun _ _ => True)
      fun error _ => error.isIncomplete = true → tail = [] ∧ Mendable tokens := by
  refine Action.ensures_iterate
    (fun _ s => ∃ rest, s.Shows rest tail ∧ Remains tokens tail rest) ?_ _ [] stream
    ⟨tokens, hs, hp, hl, fun _ hm => hm⟩
  rintro found s ⟨rest, hs, hr⟩
  rw [nextStatement, Action.ensures_bind]
  refine ensures_peek hs ?_ (fun _ _ _ _ _ he => by cases he)
  intro token t hsees _ ht
  split
  · trivial
  · rename_i hend
    have hn : rest ≠ [] := by
      rintro rfl
      rcases hsees with ⟨_, h⟩ | ⟨-, line, rfl⟩
      · cases h
      · exact hend rfl
    rw [Action.ensures_bind, Language.statement]
    refine (ensures_parse fun n =>
      ensures_parseWithin closed_understood failureClosed_wanting n full.program t rest ht).mono
      ?_ ?_
    · rintro tree u ⟨rest', hu, hread⟩
      exact ⟨rest', hu, hr.next hread⟩
    · intro error _ hexplained he
      obtain ⟨htail, hm⟩ := mendable_of_incomplete hexplained he hr.plain hr.ended hn
      exact ⟨htail, hr.mends hn hm⟩

end Program

end TreeScript
