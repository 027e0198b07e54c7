import TreeScript.Proofs.Eval.Safe
import TreeScript.Proofs.Program.Statements

/-!
# Sessions

A session begins with an empty global scope. It goes on with any sequence of runs, parses of
whole sources, and evaluations of statements that such parses gave, whether they succeed or
not. No session meets an internal error, binds a name to `nil` or keeps a function that does not
come from a definition that was parsed (`session_sound`).

What one turn of a run does is said once, in `ensures_runStatement`. That a run which gives
`nil` had nothing to evaluate follows by comparing it, turn by turn, with the parse of its
source.
-/

namespace TreeScript

/-- The tree stands somewhere in another one. -/
inductive Tree.Inside : Tree → Tree → Prop where
  /-- A tree stands in itself. -/
  | self (tree : Tree) : Inside tree tree
  /-- A child stands where its parent does. -/
  | child {kind : Tree.BranchKind} {children : List Tree} {part tree : Tree} :
      Inside (.branch kind children) tree → part ∈ children → Inside part tree

namespace Program

open Eval TreeScript.Tree

/-! ## Statements that were parsed -/

/-- A statement that the language reads from some stream. -/
def Read (language : Language) (statement : Tree) : Prop :=
  ∃ stream stream', language.statement.Gives stream statement stream'

/-- A tree in such a statement. -/
def Parsed (language : Language) (tree : Tree) : Prop :=
  ∃ statement, Read language statement ∧ tree.Inside statement

theorem closedDown_parsed (language : Language) : ClosedDown (Parsed language) := by
  rintro kind children part ⟨statement, hr, hi⟩ hmem
  exact ⟨statement, hr, hi.child hmem⟩

theorem Read.parsed {language : Language} {statement : Tree} (h : Read language statement) :
    Parsed language statement := ⟨statement, h, .self statement⟩

variable {language : Language} (hl : language = .full ∨ language = .basic)
include hl

theorem Read.shape {statement : Tree} (h : Read language statement) :
    IsStatement statement ∨ statement = .branch .null [] := by
  obtain ⟨stream, stream', hg⟩ := h
  exact (Language.ensures_statement_shape hl stream).of_gives hg

/-- But for those that do nothing, what is read are statements. -/
theorem Read.isStatement {statement : Tree} (h : Read language statement)
    (hn : statement.isNull = false) : IsStatement statement := by
  rcases h.shape hl with hs | rfl
  · exact hs
  · cases hn

/-! ## Evaluating statements -/

/-- A statement that does something is evaluated safely and does not give `nil`. -/
theorem safe_evaluate {statement : Tree} (h : Read language statement)
    (hn : statement.isNull = false) (budget : Nat) :
    Safe (Parsed language) (Proper (Parsed language)) (evaluate budget statement) := by
  refine (safe_tell _).bind fun _ _ => ?_
  exact safe_eval (closedDown_parsed language) budget statement globalScope
    ⟨h.parsed, .inl (h.isStatement hl hn)⟩

theorem safe_evaluate_any {statement : Tree} (h : Read language statement) (budget : Nat) :
    Safe (Parsed language) (fun _ => True) (evaluate budget statement) := by
  cases hn : statement.isNull with
  | false => exact (safe_evaluate hl h hn budget).mono fun _ _ => trivial
  | true =>
      rcases h.shape hl with hs | rfl
      · rw [hs.isNull_eq] at hn
        cases hn
      · refine (safe_tell _).bind fun _ _ => ?_
        cases budget with
        | zero => exact safe_unfinished
        | succ budget => exact safe_pure trivial

theorem safe_sequence_evaluate (budget : Nat) : ∀ {statements : List Tree} {result : Value},
    (∀ statement ∈ statements, Read language statement) →
    Safe (Parsed language) (fun _ => True) (Eval.sequence (evaluate budget) result statements)
  | [], _, _ => safe_pure trivial
  | statement :: statements, result, h => by
      have hrest : ∀ other ∈ statements, Read language other :=
        fun other hmem => h other (List.mem_cons_of_mem _ hmem)
      rw [Eval.sequence]
      split
      · exact safe_sequence_evaluate budget hrest
      · refine (safe_evaluate_any hl (h statement List.mem_cons_self) budget).bind fun _ _ => ?_
        exact safe_sequence_evaluate budget hrest

/-- No fault is met in the evaluation of statements that were read. -/
theorem safe_evaluateAll (budget : Nat) {statements : List Tree}
    (h : ∀ statement ∈ statements, Read language statement) :
    Safe (Parsed language) (fun _ => True) (evaluateAll budget statements) :=
  safe_sequence_evaluate hl budget h

/-! ## Parsing -/

omit hl in
theorem ensures_peek_any (stream : TokenStream) :
    (Grammar.peek 0).Ensures stream (fun _ _ => True) fun error _ => ¬ error.Internal := by
  obtain ⟨tokens, tail, hs⟩ := stream.exists_shows
  refine Grammar.ensures_peek hs (fun _ _ _ _ _ => trivial) ?_
  rintro cause _ _ _ _ ⟨other, h⟩
  cases h

/-- All statements of a source are statements that the language reads. -/
theorem ensures_parseAll {σ : Type} (source : Source) (state : σ) :
    (parseAll language source).Ensures state
      (fun found state' => state' = state ∧ ∀ statement ∈ found, Read language statement)
      fun error state' => state' = state ∧ ¬ error.Internal := by
  have hloop : (statements language).Ensures (.ofSource source)
      (fun found _ => ∀ statement ∈ found, Read language statement)
      fun error _ => ¬ error.Internal := by
    refine Action.ensures_iterate
      (fun found _ => ∀ statement ∈ found, Read language statement) ?_ _ [] _ (by simp)
    intro found stream hfound
    rw [nextStatement, Action.ensures_bind]
    refine (ensures_peek_any stream).mono ?_ (fun _ _ he => he)
    intro token stream' _
    split
    · intro statement hmem
      exact hfound statement (List.mem_reverse.1 hmem)
    · rw [Action.ensures_bind]
      refine ((Action.ensures_self _ stream').and
        (Language.ensures_statement_shape hl stream')).mono
        ?_ (fun _ _ he => he.2)
      rintro statement stream'' ⟨hg, -⟩ other hmem
      rcases List.mem_cons.1 hmem with rfl | hmem
      · exact ⟨stream', stream'', hg⟩
      · exact hfound other hmem
  rw [parseAll, Action.ensures_bind, Action.ensures_inside]
  exact hloop.mono (fun _ _ h => ⟨rfl, h⟩) (fun _ _ h => ⟨rfl, h⟩)

/-! ## Running -/

/-- The errors of a run that no source should meet. -/
def RunError.Internal : RunError → Prop
  | .parse error => error.Internal
  | .eval error _ => error.Internal

/-- What a turn of a run may give, from a stream and the value so far. -/
inductive Turn (language : Language) (stream : TokenStream) (result : Value) :
    (TokenStream × Value) ⊕ Value → Prop where
  /-- The stream has ended. -/
  | ended {token : Token} {stream' : TokenStream} :
      (Grammar.peek 0).Gives stream token stream' → token.isEndOfFile = true →
      Turn language stream result (.inr result)
  /-- A statement does nothing. -/
  | skipped {token : Token} {stream' stream'' : TokenStream} {statement : Tree} :
      (Grammar.peek 0).Gives stream token stream' → token.isEndOfFile = false →
      language.statement.Gives stream' statement stream'' → statement.isNull = true →
      Turn language stream result (.inl (stream'', result))
  /-- A statement has a value. -/
  | evaluated {stream'' : TokenStream} {value : Value} :
      Proper (Parsed language) value → Turn language stream result (.inl (stream'', value))

/-- A turn of a run meets no fault and leaves a proper heap. -/
theorem ensures_runStatement (budget : Nat) (stream : TokenStream) (result : Value) {heap : Heap}
    (hp : ProperHeap (Parsed language) heap) :
    (runStatement language budget (stream, result)).Ensures heap
      (fun next heap' => Turn language stream result next ∧ ProperHeap (Parsed language) heap')
      fun error heap' => ¬ error.Internal ∧ ProperHeap (Parsed language) heap' := by
  rw [runStatement, Action.ensures_bind, Action.ensures_mapError, Action.ensures_inside]
  refine ((Action.ensures_self _ stream).and (ensures_peek_any stream)).mono ?_
    (fun _ _ he => ⟨he.2, hp⟩)
  rintro token stream' ⟨hpeek, -⟩
  dsimp only
  split
  · next hend => exact ⟨.ended hpeek hend, hp⟩
  · next hend =>
      rw [Action.ensures_bind, Action.ensures_mapError, Action.ensures_inside]
      refine ((Action.ensures_self _ stream').and
        (Language.ensures_statement_shape hl stream')).mono
        ?_ (fun _ _ he => ⟨he.2, hp⟩)
      rintro statement stream'' ⟨hg, -⟩
      dsimp only
      split
      · next hnull => exact ⟨.skipped hpeek (Bool.eq_false_iff.2 hend) hg hnull, hp⟩
      · next hnull =>
          rw [Action.ensures_bind, Action.ensures_mapError]
          have hread : Read language statement := ⟨stream', stream'', hg⟩
          refine (safe_evaluate hl hread (Bool.eq_false_iff.2 hnull) budget heap hp).mono ?_
            (fun _ _ he => he)
          rintro value heap' ⟨hv, hp'⟩
          exact ⟨.evaluated hv, hp'⟩

/-- Once a statement has a value, so has the run. -/
theorem ensures_run_of_proper (budget n : Nat) (stream : TokenStream) {result : Value} {heap : Heap}
    (hr : Proper (Parsed language) result) (hp : ProperHeap (Parsed language) heap) :
    (Action.iterate (runStatement language budget) n (stream, result)).Ensures heap
      (fun value heap' => Proper (Parsed language) value ∧ ProperHeap (Parsed language) heap')
      fun error heap' => ¬ error.Internal ∧ ProperHeap (Parsed language) heap' := by
  refine Action.ensures_iterate (fun state heap => Proper (Parsed language) state.2 ∧
    ProperHeap (Parsed language) heap) ?_ n (stream, result) heap ⟨hr, hp⟩
  rintro ⟨stream, result⟩ heap ⟨hr, hp⟩
  refine (ensures_runStatement hl budget stream result hp).mono ?_ (fun _ _ he => he)
  rintro next heap' ⟨hturn, hp'⟩
  cases hturn with
  | ended => exact ⟨hr, hp'⟩
  | skipped => exact ⟨hr, hp'⟩
  | evaluated hv => exact ⟨hv, hp'⟩

/-- From any turn on, a run that gives `nil` goes through the turns of the parse of its
source, and all that is found does nothing. -/
theorem ensures_runFrom (budget : Nat) : ∀ (n : Nat) (stream : TokenStream) {heap : Heap},
    ProperHeap (Parsed language) heap →
    (Action.iterate (runStatement language budget) n (stream, .nil)).Ensures heap
      (fun value heap' => (value = .nil →
        ∀ found : List Tree, (∀ tree ∈ found, tree.isNull = true) → ∃ found' stream',
          (Action.iterate (nextStatement language) n found).Gives stream found' stream' ∧
            ∀ tree ∈ found', tree.isNull = true) ∧ ProperHeap (Parsed language) heap')
      fun error heap' => ¬ error.Internal ∧ ProperHeap (Parsed language) heap'
  | 0, _, _, _ => trivial
  | n + 1, stream, heap, hp => by
      rw [Action.iterate_succ, Action.ensures_bind]
      refine (ensures_runStatement hl budget stream .nil hp).mono ?_ (fun _ _ he => he)
      rintro next heap' ⟨hturn, hp'⟩
      cases hturn with
      | @ended token stream' hpeek hend =>
          refine ⟨fun _ found hfound => ⟨found.reverse, stream', ?_, by simpa using hfound⟩, hp'⟩
          rw [Action.iterate_succ]
          exact (gives_nextStatement_end hpeek hend found).bind (Action.gives_pure _)
      | @skipped token stream' stream'' statement hpeek hend hg hnull =>
          refine (ensures_runFrom budget n stream'' hp').mono ?_ (fun _ _ he => he)
          rintro value heap'' ⟨hnil, hp''⟩
          refine ⟨fun hv found hfound => ?_, hp''⟩
          obtain ⟨found', last, hrest, hnull'⟩ :=
            hnil hv (statement :: found) (by simpa using ⟨hnull, hfound⟩)
          refine ⟨found', last, ?_, hnull'⟩
          rw [Action.iterate_succ]
          exact (gives_nextStatement hpeek hend hg found).bind hrest
      | @evaluated stream'' value hv =>
          refine (ensures_run_of_proper hl budget n stream'' hv hp').mono ?_ (fun _ _ he => he)
          rintro value' heap'' ⟨hv', hp''⟩
          refine ⟨fun hnil => ?_, hp''⟩
          rw [hnil] at hv'
          exact hv'.elim

/-- A run gives `nil` only if all statements of its source do nothing. -/
theorem ensures_run (budget : Nat) (source : Source) {heap : Heap}
    (hp : ProperHeap (Parsed language) heap) :
    (run language budget source).Ensures heap
      (fun value heap' => (value = .nil → ∃ found,
        (parseAll language source).Gives heap found heap ∧
        ∀ statement ∈ found, statement.isNull = true) ∧ ProperHeap (Parsed language) heap')
      fun error heap' => ¬ error.Internal ∧ ProperHeap (Parsed language) heap' := by
  refine (ensures_runFrom hl budget _ (.ofSource source) hp).mono ?_ (fun _ _ he => he)
  rintro value heap' ⟨hnil, hp'⟩
  refine ⟨fun hv => ?_, hp'⟩
  obtain ⟨found, stream', hfound, hnull⟩ := hnil hv [] (by simp)
  exact ⟨found, (Action.Gives.inside hfound).bind (Action.gives_pure _), hnull⟩

/-! ## Sessions -/

omit hl in
/-- What a session can get to: a heap, and the statements that its parses gave. -/
inductive Session (language : Language) : Heap → List Tree → Prop where
  /-- A new session. -/
  | start : Session language initialHeap []
  /-- After a run. -/
  | run {heap heap' : Heap} {known : List Tree} (budget : Nat) (source : Source) :
      Session language heap known → (run language budget source).Leads heap heap' →
      Session language heap' known
  /-- After a parse of a whole source. -/
  | parseAll {heap heap' : Heap} {known found : List Tree} (source : Source) :
      Session language heap known → (parseAll language source).Gives heap found heap' →
      Session language heap' (known ++ found)
  /-- After a parse that fails. -/
  | parseError {heap heap' : Heap} {known : List Tree} {error : Grammar.ParseError}
      (source : Source) :
      Session language heap known → (Program.parseAll language source).Stops heap error heap' →
      Session language heap' known
  /-- After the evaluation of a statement. -/
  | evaluate {heap heap' : Heap} {known : List Tree} {statement : Tree} (budget : Nat) :
      Session language heap known → statement ∈ known →
      (evaluate budget statement).Leads heap heap' → Session language heap' known
  /-- After the evaluation of statements. -/
  | evaluateAll {heap heap' : Heap} {known statements : List Tree} (budget : Nat) :
      Session language heap known → (∀ statement ∈ statements, statement ∈ known) →
      (evaluateAll budget statements).Leads heap heap' → Session language heap' known

omit hl in
theorem properHeap_initialHeap (Known : Tree → Prop) : ProperHeap Known initialHeap :=
  Heap.holds_empty.makeScope

/-- The invariant of a session: its heap is proper, and its statements were read. -/
theorem Session.proper {heap : Heap} {known : List Tree} (h : Session language heap known) :
    ProperHeap (Parsed language) heap ∧ ∀ statement ∈ known, Read language statement := by
  induction h with
  | start => exact ⟨properHeap_initialHeap _, by simp⟩
  | run budget source _ hleads ih =>
      have hrun := (ensures_run hl budget source ih.1).mono (fun _ _ hv => hv.2)
        (fun _ _ he => he.2)
      exact ⟨hrun.of_leads hleads, ih.2⟩
  | @parseAll heap heap' known found source _ hgives ih =>
      obtain ⟨rfl, hfound⟩ := (ensures_parseAll hl source heap).of_gives hgives
      refine ⟨ih.1, fun statement hmem => ?_⟩
      rcases List.mem_append.1 hmem with hmem | hmem
      · exact ih.2 statement hmem
      · exact hfound statement hmem
  | @parseError heap heap' known error source _ hstops ih =>
      obtain ⟨rfl, -⟩ := (ensures_parseAll hl source heap).of_stops hstops
      exact ih
  | evaluate budget _ hmem hleads ih =>
      have heval := (safe_evaluate_any hl (ih.2 _ hmem) budget _ ih.1).mono (fun _ _ hv => hv.2)
        (fun _ _ he => he.2)
      exact ⟨heval.of_leads hleads, ih.2⟩
  | evaluateAll budget _ hsub hleads ih =>
      have heval := (safe_evaluateAll hl budget (fun s hs => ih.2 s (hsub s hs)) _ ih.1).mono
        (fun _ _ hv => hv.2) (fun _ _ he => he.2)
      exact ⟨heval.of_leads hleads, ih.2⟩

/-- No operation of a session meets an internal error. No name is ever bound to `nil`, every
function comes from a definition that was parsed, and a run gives `nil` only if its source has
no statement that does something. -/
theorem session_sound {heap : Heap} {known : List Tree} (h : Session language heap known) :
    (∀ source error heap', (parseAll language source).Stops heap error heap' → ¬ error.Internal) ∧
    (∀ budget source error heap', (run language budget source).Stops heap error heap' →
      ¬ error.Internal) ∧
    (∀ budget, ∀ statement ∈ known, ∀ error heap',
      (evaluate budget statement).Stops heap error heap' → ¬ error.Internal) ∧
    (∀ budget statements, (∀ statement ∈ statements, statement ∈ known) → ∀ error heap',
      (evaluateAll budget statements).Stops heap error heap' → ¬ error.Internal) ∧
    (∀ (id : ScopeId) (scope : Scope), heap.scopes[id]? = some scope →
      ∀ binding ∈ scope.bindings, binding.2 ≠ .nil ∧
        ∀ function, binding.2 = .function function → Built (Parsed language) function) ∧
    (∀ budget source heap', (run language budget source).Gives heap .nil heap' →
      ∃ found, (parseAll language source).Gives heap found heap ∧
        ∀ statement ∈ found, statement.isNull = true) := by
  obtain ⟨hp, hread⟩ := h.proper hl
  refine ⟨?_, ?_, ?_, ?_, ?_, ?_⟩
  · intro source error heap' hstops
    exact ((ensures_parseAll hl source heap).of_stops hstops).2
  · intro budget source error heap' hstops
    exact ((ensures_run hl budget source hp).of_stops hstops).1
  · intro budget statement hmem error heap' hstops
    exact ((safe_evaluate_any hl (hread statement hmem) budget heap hp).of_stops hstops).1
  · intro budget statements hsub error heap' hstops
    exact ((safe_evaluateAll hl budget (fun s hs => hread s (hsub s hs)) heap hp).of_stops hstops).1
  · intro id scope hscope binding hmem
    have hproper := hp id scope hscope binding hmem
    refine ⟨fun hnil => ?_, fun function hf => ?_⟩
    · rw [hnil] at hproper
      exact hproper
    · rw [hf] at hproper
      exact hproper
  · intro budget source heap' hrun
    exact ((ensures_run hl budget source hp).of_gives hrun).1 rfl

omit hl in
/-- A session in which a function is defined, bound to another name and called. -/
theorem session_sound_call :
    ∃ result heap, (run .full 20 (.ofText "def f(x) \x7b x + 1 \x7d\ng = f; g(2)\n")).Gives
        initialHeap result heap ∧
      heap.names globalScope = ["f", "g"] ∧ Session .full heap [] ∧
      (∀ (id : ScopeId) (scope : Scope), heap.scopes[id]? = some scope →
        ∀ binding ∈ scope.bindings, binding.2 ≠ .nil ∧
          ∀ function, binding.2 = .function function → Built (Parsed .full) function) ∧
      ∀ budget source error heap', (run .full budget source).Stops heap error heap' →
        ¬ error.Internal := by
  have hnames : (run .full 20 (.ofText "def f(x) \x7b x + 1 \x7d\ng = f; g(2)\n")
      initialHeap).value?.map (·.2.names globalScope) = some ["f", "g"] := by decide +kernel
  obtain ⟨⟨result, heap⟩, hrun, hnames⟩ := Option.map_eq_some_iff.1 hnames
  have hgives := Action.gives_of_value? hrun
  have hsession : Session .full heap [] := .run 20 _ .start (.inl ⟨result, hgives⟩)
  obtain ⟨-, herror, -, -, hbound, -⟩ := session_sound (.inl rfl) hsession
  exact ⟨result, heap, hgives, hnames, hsession, hbound, herror⟩

end Program

end TreeScript
