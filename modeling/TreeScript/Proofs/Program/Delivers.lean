import TreeScript.Proofs.Grammar.Relined
import TreeScript.Proofs.Language.Ended
import TreeScript.Proofs.Program.Statements

/-!
# What a source delivers

A stream delivers statements, one after another, and then it ends or there is an error
(`Delivers`). Parsing a source gives what its stream delivers, and running it executes that
(`result?_run`).

What is delivered depends on the tokens only. On other lines the same is delivered, relined
(`Delivers.relined`). If more lines follow a source, what it delivers does not change, and what the
lines deliver by themselves comes after it (`delivers_append`). Only an error that says that the
source ends too early is taken back (`exists_delivers_append`).
-/

namespace TreeScript

open TokenStream

/-! ## The tokens of a source -/

namespace TokenStream

/-- The tokens of a source without a fault end with a line. -/
theorem lineEnded_ofSource {source : Source} {tokens : List Token}
    (h : (ofSource source).Shows tokens []) : Grammar.LineEnded tokens := by
  rintro before token rfl
  refine @isEndOfLine_of_getLast_sourceItems source 0 token ?_
  rw [← items_ofSource, h.1]
  simp

theorem allPlain_ofSource {source : Source} {tokens : List Token} {tail : List Item}
    (h : (ofSource source).Shows tokens tail) : Language.AllPlain tokens :=
  (Reachable.ofSource source).plainQueue.plain_of_shows h

end TokenStream

namespace Program

open Grammar TokenStream TreeScript.Language

/-! ## Statements one after another -/

/-- The statements that a stream delivers, and the error after them if there is one. -/
inductive Delivers (language : Language) :
    TokenStream → List Tree → Option ParseError → Prop where
  /-- The stream ends. -/
  | ended {s t : TokenStream} {token : Token} :
      (Grammar.peek 0).Gives s token t → token.isEndOfFile = true → Delivers language s [] none
  /-- The next line cannot be read. -/
  | unread {s t : TokenStream} {error : ParseError} :
      (Grammar.peek 0).Stops s error t → Delivers language s [] (some error)
  /-- The next statement does not parse. -/
  | broken {s t u : TokenStream} {token : Token} {error : ParseError} :
      (Grammar.peek 0).Gives s token t → token.isEndOfFile = false →
      language.statement.Stops t error u → Delivers language s [] (some error)
  /-- One more statement. -/
  | next {s t u : TokenStream} {token : Token} {tree : Tree} {trees : List Tree}
      {ending : Option ParseError} :
      (Grammar.peek 0).Gives s token t → token.isEndOfFile = false →
      language.statement.Gives t tree u → Delivers language u trees ending →
      Delivers language s (tree :: trees) ending

variable {language : Language} {s s' t : TokenStream} {trees trees' : List Tree}
  {ending ending' : Option ParseError} {tokens extra : List Token} {tail tail' : List Item}

/-- A stream delivers one list of statements and one ending. -/
theorem Delivers.unique (h : Delivers language s trees ending)
    (h' : Delivers language s trees' ending') : trees' = trees ∧ ending' = ending := by
  induction h generalizing trees' with
  | ended hpeek hend =>
      cases h' with
      | ended => exact ⟨rfl, rfl⟩
      | unread hpeek' => exact absurd hpeek' hpeek.not_stops
      | broken hpeek' hend' => rw [(hpeek.unique hpeek').1, hend'] at hend; cases hend
      | next hpeek' hend' => rw [(hpeek.unique hpeek').1, hend'] at hend; cases hend
  | unread hpeek =>
      cases h' with
      | unread hpeek' => exact ⟨rfl, congrArg some (hpeek'.error_eq hpeek)⟩
      | ended hpeek' => exact absurd hpeek hpeek'.not_stops
      | broken hpeek' => exact absurd hpeek hpeek'.not_stops
      | next hpeek' => exact absurd hpeek hpeek'.not_stops
  | broken hpeek hend hstops =>
      cases h' with
      | ended hpeek' hend' => rw [(hpeek.unique hpeek').1, hend'] at hend; cases hend
      | unread hpeek' => exact absurd hpeek' hpeek.not_stops
      | broken hpeek' _ hstops' =>
          obtain ⟨rfl, rfl⟩ := hpeek.unique hpeek'
          exact ⟨rfl, congrArg some (hstops'.error_eq hstops)⟩
      | next hpeek' _ hgives' =>
          obtain ⟨rfl, rfl⟩ := hpeek.unique hpeek'
          exact absurd hstops hgives'.not_stops
  | next hpeek hend hgives _ ih =>
      cases h' with
      | ended hpeek' hend' => rw [(hpeek.unique hpeek').1, hend'] at hend; cases hend
      | unread hpeek' => exact absurd hpeek' hpeek.not_stops
      | broken hpeek' _ hstops' =>
          obtain ⟨rfl, rfl⟩ := hpeek.unique hpeek'
          exact absurd hstops' hgives.not_stops
      | next hpeek' _ hgives' hrest =>
          obtain ⟨rfl, rfl⟩ := hpeek.unique hpeek'
          obtain ⟨rfl, rfl⟩ := hgives.unique hgives'
          obtain ⟨rfl, rfl⟩ := ih hrest
          exact ⟨rfl, rfl⟩

section Languages

variable (hl : language = full ∨ language = basic)
include hl

/-- A statement takes a token. -/
theorem exists_shorter_of_statement (hs : s.Shows tokens tail) {tree : Tree}
    (hg : language.statement.Gives s tree t) :
    ∃ rest, t.Shows rest tail ∧ rest.length < tokens.length := by
  rcases hl with rfl | rfl
  · obtain ⟨rest, ht, -, hlt⟩ := (ensures_parse fun n =>
      ranked_full.follows_shrinks tail n full.program s tokens hs).of_gives hg
    exact ⟨rest, ht, hlt rfl⟩
  · obtain ⟨rest, ht, -, hlt⟩ := (ensures_parse fun n =>
      ranked_basic.follows_shrinks tail n basic.program s tokens hs).of_gives hg
    exact ⟨rest, ht, hlt rfl⟩

omit hl in
theorem shows_of_peek {token : Token} (hs : s.Shows tokens tail)
    (hg : (Grammar.peek 0).Gives s token t) :
    Sees tokens token ∧ (tokens = [] → tail = []) ∧ t.Shows tokens tail := by
  have hensures : (Grammar.peek 0).Ensures s
      (fun token t => Sees tokens token ∧ (tokens = [] → tail = []) ∧ t.Shows tokens tail)
      fun _ _ => True :=
    ensures_peek hs (fun _ _ hsees htail ht => ⟨hsees, htail, ht⟩) fun _ _ _ _ _ => trivial
  exact hensures.of_gives hg

/-- Every stream delivers something. Each statement leaves fewer tokens. -/
theorem exists_delivers (s : TokenStream) : ∃ trees ending, Delivers language s trees ending := by
  obtain ⟨tokens, tail, hs⟩ := s.exists_shows
  induction hn : tokens.length using Nat.strong_induction_on generalizing s tokens with
  | _ n ih =>
      subst hn
      have hpeek : (Grammar.peek 0).Ends s := ends_peek
      rcases hpeek.gives_or_stops with ⟨token, t, hpeek⟩ | ⟨error, t, hpeek⟩
      · obtain ⟨-, -, ht⟩ := shows_of_peek hs hpeek
        cases hend : token.isEndOfFile with
        | true => exact ⟨[], none, .ended hpeek hend⟩
        | false =>
            rcases (ends_statement hl t).gives_or_stops with ⟨tree, u, hg⟩ | ⟨error, u, hstops⟩
            · obtain ⟨rest, hu, hlt⟩ := exists_shorter_of_statement hl ht hg
              obtain ⟨trees, ending, hrest⟩ := ih _ hlt u rest hu rfl
              exact ⟨tree :: trees, ending, .next hpeek hend hg hrest⟩
            · exact ⟨[], some error, .broken hpeek hend hstops⟩
      · exact ⟨[], some error, .unread hpeek⟩

/-- Each statement takes a token. -/
theorem Delivers.length_le (h : Delivers language s trees ending) (hs : s.Shows tokens tail) :
    trees.length ≤ tokens.length := by
  induction h generalizing tokens with
  | next hpeek _ hg _ ih =>
      obtain ⟨-, -, ht⟩ := shows_of_peek hs hpeek
      obtain ⟨rest, hu, hlt⟩ := exists_shorter_of_statement hl ht hg
      exact Nat.succ_le_of_lt (Nat.lt_of_le_of_lt (ih hu) hlt)
  | _ => exact Nat.zero_le _

theorem Delivers.length_le_bound (h : Delivers language s trees ending) :
    trees.length ≤ s.bound := by
  obtain ⟨tokens, tail, hs⟩ := s.exists_shows
  exact (h.length_le hl hs).trans hs.length_le_bound

/-! ## On other lines -/

/-- A statement goes by other lines. -/
theorem relines_statement (f : Nat → Nat) :
    Relines f (Tree.relined f) language.statement language.statement :=
  relines_parse (ends_statement hl)

/-- On other lines the same is delivered. -/
theorem Delivers.relined {f : Nat → Nat} (h : Delivers language s trees ending)
    (hs : OnLines f s s') :
    Delivers language s' (trees.map (Tree.relined f)) (ending.map (ParseError.relined f)) := by
  induction h generalizing s' with
  | ended hpeek hend =>
      obtain ⟨_, _, hpeek', -, hsame⟩ := simulates_peek.of_gives hs hpeek
      exact .ended hpeek' (hsame.trans hend)
  | unread hpeek =>
      obtain ⟨_, _, hpeek', rfl⟩ := simulates_peek.of_stops hs hpeek
      exact .unread hpeek'
  | broken hpeek hend hstops =>
      obtain ⟨_, _, hpeek', ht, hsame⟩ := simulates_peek.of_gives hs hpeek
      obtain ⟨_, _, hstops', rfl⟩ := (relines_statement hl f).of_stops ht hstops
      exact .broken hpeek' (hsame.trans hend) hstops'
  | next hpeek hend hg _ ih =>
      obtain ⟨_, _, hpeek', ht, hsame⟩ := simulates_peek.of_gives hs hpeek
      obtain ⟨_, _, hg', hu, rfl⟩ := (relines_statement hl f).of_gives ht hg
      exact .next hpeek' (hsame.trans hend) hg' (ih hu)

/-- What a stream has read ahead does not matter. -/
theorem Delivers.of_items_eq (h : Delivers language s trees ending) (hs : s'.items = s.items) :
    Delivers language s' trees ending := by
  have hlines : OnLines id s s' := by rw [OnLines, Item.map_relined_id, hs]
  have hid := h.relined hl hlines
  rwa [funext Tree.relined_id, List.map_id', funext ParseError.relined_id, Option.map_id'] at hid

/-! ## More lines -/

omit hl in
/-- If the end is seen, no token and no fault is left. -/
theorem ended_of_peek {token : Token} (hs : s.Shows tokens tail) (hp : AllPlain tokens)
    (hg : (Grammar.peek 0).Gives s token t) (hend : token.isEndOfFile = true) :
    tokens = [] ∧ tail = [] := by
  obtain ⟨hsees, htail, -⟩ := shows_of_peek hs hg
  rcases hsees with ⟨rest, rfl⟩ | ⟨rfl, -⟩
  · have hplain := (hp token List.mem_cons_self).isEndOfFile_eq
    rw [hend] at hplain
    cases hplain
  · exact ⟨rfl, htail rfl⟩

omit hl in
/-- The next token is seen whatever follows the tokens. -/
theorem exists_peek_of_shows {token : Token} (hs : s.Shows tokens tail)
    (hs' : s'.Shows (tokens ++ extra) tail') (hg : (Grammar.peek 0).Gives s token t)
    (hend : token.isEndOfFile = false) :
    tokens ≠ [] ∧ t.Shows tokens tail ∧
      ∃ t', (Grammar.peek 0).Gives s' token t' ∧ t'.Shows (tokens ++ extra) tail' := by
  obtain ⟨hsees, -, ht⟩ := shows_of_peek hs hg
  rcases hsees with ⟨rest, rfl⟩ | ⟨-, line, rfl⟩
  · exact ⟨by simp, ht, exists_gives_peek hs'⟩
  · cases hend

/-- A stream that ends well has no fault. -/
theorem Delivers.tail_eq_nil (h : Delivers language s trees none) (hs : s.Shows tokens tail)
    (hp : AllPlain tokens) : tail = [] := by
  generalize hending : none = ending at h
  induction h generalizing tokens with
  | ended hpeek hend => exact (ended_of_peek hs hp hpeek hend).2
  | unread => cases hending
  | broken => cases hending
  | next hpeek _ hg _ ih =>
      obtain ⟨-, -, ht⟩ := shows_of_peek hs hpeek
      obtain ⟨rest, hu, hsuffix⟩ := exists_suffix_of_statement hl ht hg
      exact ih hu (hp.suffix hsuffix) hending

section More

variable (hs : s.Shows tokens tail) (hs' : s'.Shows (tokens ++ extra) tail')
  (hgo : Continues tokens tail extra tail')
include hs hs' hgo

/-- After a source that ends well comes what the lines after it deliver. -/
theorem Delivers.append (h : Delivers language s trees none) (hp : AllPlain tokens)
    (hmore : Delivers language t trees' ending') (ht : t.Shows extra tail') :
    Delivers language s' (trees ++ trees') ending' := by
  generalize hending : none = ending at h
  induction h generalizing tokens s' with
  | ended hpeek hend =>
      obtain ⟨rfl, rfl⟩ := ended_of_peek hs hp hpeek hend
      exact hmore.of_items_eq hl (hs'.1.trans ht.1.symm)
  | unread => cases hending
  | broken => cases hending
  | next hpeek hend hg _ ih =>
      obtain ⟨hn, ht, t', hpeek', ht'⟩ := exists_peek_of_shows hs hs' hpeek hend
      obtain ⟨rest, u', hu, hsuffix, hg', hu'⟩ := exists_gives_statement hl ht ht' hgo hn hg
      exact .next hpeek' hend hg' (ih hu hu' (hgo.suffix hsuffix) (hp.suffix hsuffix) hending)

/-- A source that ends with an error delivers the same whatever lines follow. The error stays unless
it says that the source ends too early. -/
theorem Delivers.exists_append {error : ParseError} (h : Delivers language s trees (some error)) :
    ∃ trees' ending', Delivers language s' (trees ++ trees') ending' ∧
      (error.isIncomplete = false → trees' = [] ∧ ending' = some error) := by
  generalize hending : some error = ending at h
  induction h generalizing tokens s' with
  | ended => cases hending
  | @unread s t error hpeek =>
      cases hending
      have hfault : (Grammar.peek 0).Ensures s (fun _ _ => True) fun error _ =>
          ∃ cause rest, error = .read cause ∧ tokens = [] ∧ tail = .error cause :: rest :=
        ensures_peek hs (fun _ _ _ _ _ => trivial)
          fun cause rest _ hn htail => ⟨cause, rest, rfl, hn, htail⟩
      obtain ⟨cause, rest, rfl, rfl, rfl⟩ := hfault.of_stops hpeek
      cases hgo with
      | fault =>
          obtain ⟨t', hpeek'⟩ := exists_stops_peek hs'
          exact ⟨[], _, .unread hpeek', fun _ => ⟨rfl, rfl⟩⟩
  | @broken s t u token error hpeek hend hstops =>
      cases hending
      obtain ⟨-, ht, t', hpeek', ht'⟩ := exists_peek_of_shows hs hs' hpeek hend
      cases he : error.isIncomplete with
      | true =>
          obtain ⟨trees', ending', hall⟩ := exists_delivers hl s'
          exact ⟨trees', ending', hall, fun hfalse => by cases hfalse⟩
      | false =>
          obtain ⟨u', hstops'⟩ := exists_stops_statement hl ht ht' hgo hstops he
          exact ⟨[], _, .broken hpeek' hend hstops', fun _ => ⟨rfl, rfl⟩⟩
  | next hpeek hend hg _ ih =>
      obtain ⟨hn, ht, t', hpeek', ht'⟩ := exists_peek_of_shows hs hs' hpeek hend
      obtain ⟨rest, u', hu, hsuffix, hg', hu'⟩ := exists_gives_statement hl ht ht' hgo hn hg
      obtain ⟨trees', ending', hrest, hsame⟩ := ih hu hu' (hgo.suffix hsuffix) hending
      exact ⟨trees', ending', .next hpeek' hend hg' hrest, hsame⟩

end More

/-! ## Sources -/

omit hl in
theorem shows_append {source more : Source} {tokens extra : List Token} {tail tail' : List Item}
    (hs : (ofSource source).Shows tokens tail)
    (hmore : tail ++ sourceItems (source.foldl lineNumber 0) more = extra.map .ok ++ tail')
    (htail : ∀ token rest, tail' ≠ .ok token :: rest) :
    (ofSource (source ++ more)).Shows (tokens ++ extra) tail' := by
  refine ⟨?_, htail⟩
  rw [items_ofSource, sourceItems_append, ← items_ofSource, hs.1, List.append_assoc, hmore,
    List.map_append, List.append_assoc]

omit hl in
/-- What follows the tokens of a source if there are more lines. -/
theorem exists_continues (source more : Source) : ∃ tokens tail extra tail',
    (ofSource source).Shows tokens tail ∧
      (ofSource (source ++ more)).Shows (tokens ++ extra) tail' ∧
      Continues tokens tail extra tail' ∧
      (tail = [] → TokenStream.Shows ⟨[], more, source.foldl lineNumber 0⟩ extra tail') := by
  obtain ⟨tokens, tail, hs⟩ := (ofSource source).exists_shows
  rcases hs.tail_cases with rfl | ⟨cause, others, rfl⟩
  · obtain ⟨extra, tail', hextra, htail⟩ :=
      exists_tokens_append (sourceItems (source.foldl lineNumber 0) more)
    exact ⟨tokens, [], extra, tail', hs, shows_append hs hextra htail,
      .ended (lineEnded_ofSource hs), fun _ => ⟨hextra, htail⟩⟩
  · exact ⟨tokens, _, [], _, hs, shows_append hs rfl (by simp), .fault, fun h => by cases h⟩

/-- After a source that ends well, more lines deliver what they do by themselves. -/
theorem delivers_append {source more : Source} (h : Delivers language (ofSource source) trees none)
    (hmore : Delivers language (ofSource more) trees' ending') :
    let moved := (· + source.foldl lineNumber 0)
    Delivers language (ofSource (source ++ more)) (trees ++ trees'.map (Tree.relined moved))
      (ending'.map (ParseError.relined moved)) := by
  intro moved
  obtain ⟨tokens, tail, extra, tail', hs, hs', hgo, hextra⟩ := exists_continues source more
  have hp := allPlain_ofSource hs
  obtain rfl := h.tail_eq_nil hl hs hp
  have hlines : OnLines moved (ofSource more) ⟨[], more, source.foldl lineNumber 0⟩ := by
    have hadd := sourceItems_add more 0 (source.foldl lineNumber 0)
    rw [Nat.zero_add] at hadd
    exact hadd
  exact h.append hl hs hs' hgo hp (hmore.relined hl hlines) (hextra rfl)

theorem exists_delivers_append {source : Source} {error : ParseError}
    (h : Delivers language (ofSource source) trees (some error)) (more : Source) :
    ∃ trees' ending', Delivers language (ofSource (source ++ more)) (trees ++ trees') ending' ∧
      (error.isIncomplete = false → trees' = [] ∧ ending' = some error) := by
  obtain ⟨tokens, tail, extra, tail', hs, hs', hgo, -⟩ := exists_continues source more
  exact h.exists_append hl hs hs' hgo

end Languages

/-! ## Parsing -/

theorem Delivers.exists_gives_iterate (h : Delivers language s trees none) {n : Nat}
    (hn : trees.length ≤ n) (found : List Tree) :
    ∃ t, (Action.iterate (nextStatement language) (n + 1) found).Gives s
      (found.reverse ++ trees) t := by
  generalize hending : none = ending at h
  induction h generalizing n found with
  | ended hpeek hend =>
      rw [Action.iterate_succ, List.append_nil]
      exact ⟨_, (gives_nextStatement_end hpeek hend found).bind (Action.gives_pure _)⟩
  | unread => cases hending
  | broken => cases hending
  | next hpeek hend hg _ ih =>
      obtain ⟨n, rfl⟩ := Nat.exists_eq_succ_of_ne_zero (Nat.ne_zero_of_lt hn)
      obtain ⟨t, hrest⟩ := ih (Nat.le_of_succ_le_succ hn) (_ :: found) hending
      rw [Action.iterate_succ]
      refine ⟨t, (gives_nextStatement hpeek hend hg found).bind ?_⟩
      simpa using hrest

theorem Delivers.exists_stops_iterate {error : ParseError}
    (h : Delivers language s trees (some error)) {n : Nat} (hn : trees.length ≤ n)
    (found : List Tree) :
    ∃ t, (Action.iterate (nextStatement language) (n + 1) found).Stops s error t := by
  generalize hending : some error = ending at h
  induction h generalizing n found with
  | ended => cases hending
  | unread hpeek =>
      cases hending
      rw [Action.iterate_succ]
      exact ⟨_, (hpeek.bind _).bind _⟩
  | broken hpeek hend hstops =>
      cases hending
      rw [Action.iterate_succ]
      exact ⟨_, (stops_nextStatement hpeek hend hstops found).bind _⟩
  | next hpeek hend hg _ ih =>
      obtain ⟨n, rfl⟩ := Nat.exists_eq_succ_of_ne_zero (Nat.ne_zero_of_lt hn)
      obtain ⟨t, hrest⟩ := ih (Nat.le_of_succ_le_succ hn) (_ :: found) hending
      rw [Action.iterate_succ]
      exact ⟨t, (gives_nextStatement hpeek hend hg found).bind_stops hrest⟩

/-- Parsing a source stops where parsing its stream stops. -/
theorem stops_parseAll_iff {σ : Type} {source : Source} {error : ParseError} {x y : σ} :
    (parseAll language source).Stops x error y ↔
      y = x ∧ ∃ stream, (statements language).Stops (.ofSource source) error stream := by
  constructor
  · intro h
    have hensures : (parseAll language source).Ensures x (fun _ _ => True) fun e y =>
        y = x ∧ ∃ stream, (statements language).Stops (.ofSource source) e stream := by
      rw [parseAll, Action.ensures_bind, Action.ensures_inside]
      exact (Action.ensures_self _ _).mono (fun _ _ _ => trivial) fun _ u hu => ⟨rfl, u, hu⟩
    exact hensures.of_stops h
  · rintro ⟨rfl, stream, h⟩
    exact h.inside.bind _

theorem gives_parseAll {σ : Type} {source : Source} {stream : TokenStream} {x : σ}
    (h : (statements language).Gives (.ofSource source) trees stream) :
    (parseAll language source).Gives x trees x := h.inside.bind (Action.gives_pure _)

section Sources

variable (hl : language = full ∨ language = basic) {source : Source}
include hl

/-- A source that ends well is parsed into what it delivers. -/
theorem Delivers.gives_parseAll {σ : Type} (h : Delivers language (ofSource source) trees none)
    (x : σ) : (parseAll language source).Gives x trees x := by
  obtain ⟨t, hg⟩ := h.exists_gives_iterate (h.length_le_bound hl) []
  exact Program.gives_parseAll hg

/-- A source that ends with an error is not parsed. -/
theorem Delivers.stops_parseAll {σ : Type} {error : ParseError}
    (h : Delivers language (ofSource source) trees (some error)) (x : σ) :
    (parseAll language source).Stops x error x := by
  obtain ⟨t, hstops⟩ := h.exists_stops_iterate (h.length_le_bound hl) []
  exact stops_parseAll_iff.2 ⟨rfl, t, hstops⟩

end Sources

/-! ## Running -/

/-- Executes what a source delivers: each statement that does something is evaluated, and the error
comes when there is no statement left. -/
def execute (budget : Nat) : List Tree → Option ParseError → Value → Action Heap RunError Value
  | [], none, result => pure result
  | [], some error, _ => Action.fail (.parse error)
  | tree :: trees, ending, result =>
      if tree.isNull then execute budget trees ending result
      else do
        let value ← (evaluate budget tree).mapError (.eval · (tree.location?.getD ""))
        execute budget trees ending value
termination_by structural trees => trees

/-- Statements are executed after those that stand before them. -/
theorem execute_append (budget : Nat) (first second : List Tree) (ending : Option ParseError)
    (result : Value) : execute budget (first ++ second) ending result =
      execute budget first none result >>= execute budget second ending := by
  induction first generalizing result with
  | nil => rfl
  | cons tree first ih =>
      rw [List.cons_append, execute, execute]
      split
      · exact ih result
      · rw [bind_assoc]
        exact congrArg _ (funext ih)

section Ending

variable {budget : Nat} {heap heap' : Heap} {result : Value} {cause : ParseError}

/-- After an error of the parser no value is given. -/
theorem ensures_execute_some :
    (execute budget trees (some cause) result).Ensures heap (fun _ _ => False) fun error heap' =>
      error = .parse cause ∨ (execute budget trees none result).Stops heap error heap' := by
  have hsplit := execute_append budget trees [] (some cause) result
  rw [List.append_nil] at hsplit
  rw [hsplit, Action.ensures_bind]
  exact (Action.ensures_self _ _).mono (fun _ _ _ => .inl rfl) fun _ _ h => .inr h

theorem ending_eq_none {value : Value}
    (h : (execute budget trees ending result).Gives heap value heap') : ending = none := by
  cases ending with
  | none => rfl
  | some cause => exact (ensures_execute_some.of_gives h).elim

/-- An error before the end does not depend on what comes at the end. -/
theorem stops_execute_none {error : RunError}
    (h : (execute budget trees ending result).Stops heap error heap')
    (hne : ∀ cause, ending = some cause → error ≠ .parse cause) :
    (execute budget trees none result).Stops heap error heap' := by
  cases ending with
  | none => exact h
  | some cause => exact (ensures_execute_some.of_stops h).resolve_left (hne cause rfl)

end Ending

/-- From any turn on, a run does what executing the rest does. -/
theorem Delivers.result?_iterate (h : Delivers language s trees ending) {n : Nat}
    (hn : trees.length ≤ n) (budget : Nat) (result : Value) (heap : Heap) :
    (Action.iterate (runStatement language budget) (n + 1) (s, result) heap).result? =
      (execute budget trees ending result heap).result? := by
  induction h generalizing n result heap with
  | ended hpeek hend =>
      rw [Action.iterate_succ, runStatement, bind_assoc,
        (hpeek.inside.mapError RunError.parse).result?_bind]
      simp only [hend, if_true]
      rfl
  | unread hpeek =>
      rw [Action.iterate_succ, runStatement, bind_assoc,
        (hpeek.inside.mapError RunError.parse).result?_bind]
      rfl
  | broken hpeek hend hstops =>
      rw [Action.iterate_succ, runStatement, bind_assoc,
        (hpeek.inside.mapError RunError.parse).result?_bind]
      simp only [hend, Bool.false_eq_true, if_false, bind_assoc]
      rw [(hstops.inside.mapError RunError.parse).result?_bind]
      rfl
  | @next s t u token tree trees ending hpeek hend hg _ ih =>
      obtain ⟨n, rfl⟩ := Nat.exists_eq_succ_of_ne_zero (Nat.ne_zero_of_lt hn)
      have hn : trees.length ≤ n := Nat.le_of_succ_le_succ hn
      rw [Action.iterate_succ, runStatement, bind_assoc,
        (hpeek.inside.mapError RunError.parse).result?_bind]
      simp only [hend, Bool.false_eq_true, if_false, bind_assoc]
      rw [(hg.inside.mapError RunError.parse).result?_bind, execute]
      dsimp only
      split
      · exact ih hn result heap
      · rw [bind_assoc]
        exact Action.result?_bind_congr fun value heap' => ih hn value heap'

section Run

variable (hl : language = full ∨ language = basic) {source : Source}
  (h : Delivers language (ofSource source) trees ending)
include hl h

/-- A run executes what its source delivers. -/
theorem result?_run (budget : Nat) (heap : Heap) :
    (run language budget source heap).result? = (execute budget trees ending .nil heap).result? :=
  h.result?_iterate (h.length_le_bound hl) budget .nil heap

/-- A run evaluates what is delivered, and gives the last value. -/
theorem gives_run_iff {budget : Nat} {heap heap' : Heap} {value : Value} :
    (run language budget source).Gives heap value heap' ↔
      (execute budget trees ending .nil).Gives heap value heap' := by
  rw [Action.gives_iff, Action.gives_iff, result?_run hl h]

/-- A run stops where the evaluation of what is delivered does. -/
theorem stops_run_iff {budget : Nat} {heap heap' : Heap} {error : RunError} :
    (run language budget source).Stops heap error heap' ↔
      (execute budget trees ending .nil).Stops heap error heap' := by
  rw [Action.stops_iff, Action.stops_iff, result?_run hl h]

/-- A run ends if the evaluation of what is delivered does. -/
theorem ends_run_iff {budget : Nat} {heap : Heap} :
    (run language budget source).Ends heap ↔ (execute budget trees ending .nil).Ends heap := by
  rw [Action.ends_iff, Action.ends_iff]
  simp only [gives_run_iff hl h, stops_run_iff hl h]

end Run

end Program

end TreeScript
