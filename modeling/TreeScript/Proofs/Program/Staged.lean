import TreeScript.Proofs.Program.Extension

/-!
# Parsing first and evaluating afterwards

A run parses a statement, evaluates it and goes on with the next one. If the whole source parses, it
does what evaluating the parsed statements does (`run_staged`). If not, the statements in front of
the error are evaluated as if the source ended after them. The error of parsing is the outcome if
none of them fails.
-/

namespace TreeScript

namespace Program

open Grammar TokenStream TreeScript.Language

/-! ## The statement that fails -/

/-- Evaluating statements from a heap fails at one of them: those in front of it that do something
have been evaluated, one after another, and those behind it have not. -/
inductive FailsAt (budget : Nat) : Heap → List Tree → Tree → EvalError → Heap → Prop where
  /-- The first statement fails. -/
  | here {heap heap' : Heap} {statement : Tree} {statements : List Tree} {cause : EvalError} :
      statement.isNull = false → (evaluate budget statement).Stops heap cause heap' →
      FailsAt budget heap (statement :: statements) statement cause heap'
  /-- The first statement does nothing. -/
  | skipped {heap heap' : Heap} {first statement : Tree} {statements : List Tree}
      {cause : EvalError} :
      first.isNull = true → FailsAt budget heap statements statement cause heap' →
      FailsAt budget heap (first :: statements) statement cause heap'
  /-- The first statement has a value. -/
  | later {heap heap₁ heap' : Heap} {value : Value} {first statement : Tree}
      {statements : List Tree} {cause : EvalError} :
      first.isNull = false → (evaluate budget first).Gives heap value heap₁ →
      FailsAt budget heap₁ statements statement cause heap' →
      FailsAt budget heap (first :: statements) statement cause heap'

variable {budget : Nat} {heap heap' : Heap} {trees : List Tree} {result value : Value}
  {ending : Option ParseError}

theorem not_failsAt_nil {statement : Tree} {cause : EvalError} :
    ¬ FailsAt budget heap [] statement cause heap' := nofun

/-- A statement that does nothing does not fail. -/
theorem failsAt_cons_of_isNull {first statement : Tree} {cause : EvalError}
    (h : first.isNull = true) : FailsAt budget heap (first :: trees) statement cause heap' ↔
      FailsAt budget heap trees statement cause heap' := by
  constructor
  · rintro (⟨hn, -⟩ | ⟨-, hf⟩ | ⟨hn, -, -⟩)
    · rw [h] at hn
      cases hn
    · exact hf
    · rw [h] at hn
      cases hn
  · exact .skipped h

/-- The first statement fails, or it has a value and one of the others fails. -/
theorem failsAt_cons {first statement : Tree} {cause : EvalError} (h : first.isNull = false) :
    FailsAt budget heap (first :: trees) statement cause heap' ↔
      (statement = first ∧ (evaluate budget first).Stops heap cause heap') ∨
      ∃ value heap₁, (evaluate budget first).Gives heap value heap₁ ∧
        FailsAt budget heap₁ trees statement cause heap' := by
  constructor
  · rintro (⟨-, hs⟩ | ⟨hn, -⟩ | ⟨-, hg, hf⟩)
    · exact .inl ⟨rfl, hs⟩
    · rw [h] at hn
      cases hn
    · exact .inr ⟨_, _, hg, hf⟩
  · rintro (⟨rfl, hs⟩ | ⟨value, heap₁, hg, hf⟩)
    · exact .here h hs
    · exact .later h hg hf

/-! ## Evaluating and executing -/

/-- Evaluating statements stops at the first of them that fails. -/
theorem stops_sequence_iff {cause : EvalError} :
    (Eval.sequence (evaluate budget) result trees).Stops heap cause heap' ↔
      ∃ statement, FailsAt budget heap trees statement cause heap' := by
  induction trees generalizing heap result with
  | nil =>
      refine ⟨fun h => absurd h (Action.gives_pure result).not_stops, ?_⟩
      rintro ⟨statement, hf⟩
      exact absurd hf not_failsAt_nil
  | cons first trees ih =>
      rw [Eval.sequence]
      cases hnull : first.isNull with
      | true =>
          rw [if_pos rfl, ih]
          exact exists_congr fun _ => (failsAt_cons_of_isNull hnull).symm
      | false =>
          rw [if_neg Bool.false_ne_true, Action.stops_bind_iff]
          simp only [failsAt_cons hnull, ih, exists_or, exists_eq_left]
          refine or_congr Iff.rfl ⟨?_, ?_⟩
          · rintro ⟨value, heap₁, hg, statement, hf⟩
            exact ⟨statement, value, heap₁, hg, hf⟩
          · rintro ⟨statement, value, heap₁, hg, hf⟩
            exact ⟨value, heap₁, hg, statement, hf⟩

/-- Executing statements up to the end of a source gives what evaluating them gives. -/
theorem gives_execute_iff : (execute budget trees none result).Gives heap value heap' ↔
    (Eval.sequence (evaluate budget) result trees).Gives heap value heap' := by
  induction trees generalizing heap result with
  | nil => rw [execute, Eval.sequence, Action.gives_pure_iff, Action.gives_pure_iff]
  | cons first trees ih =>
      rw [execute, Eval.sequence]
      cases first.isNull with
      | true => exact ih
      | false =>
          constructor
          · intro h
            obtain ⟨value, heap₁, hg, hrest⟩ := h.of_bind
            exact hg.of_mapError.bind (ih.1 hrest)
          · intro h
            obtain ⟨value, heap₁, hg, hrest⟩ := h.of_bind
            exact (hg.mapError _).bind (ih.2 hrest)

/-- The error of executing names the line of the statement that fails. -/
theorem stops_execute_iff {error : RunError} :
    (execute budget trees none result).Stops heap error heap' ↔
      ∃ statement cause, FailsAt budget heap trees statement cause heap' ∧
        error = .eval cause (statement.location?.getD "") := by
  induction trees generalizing heap result with
  | nil =>
      refine ⟨fun h => absurd h (Action.gives_pure result).not_stops, ?_⟩
      intro h
      obtain ⟨statement, cause, hf, -⟩ := h
      exact absurd hf not_failsAt_nil
  | cons first trees ih =>
      rw [execute]
      cases hnull : first.isNull with
      | true =>
          rw [if_pos rfl, ih]
          simp only [failsAt_cons_of_isNull hnull]
      | false =>
          rw [if_neg Bool.false_ne_true, Action.stops_bind_iff, Action.stops_mapError_iff]
          simp only [failsAt_cons hnull, ih]
          constructor
          · intro h
            cases h with
            | inl h =>
                obtain ⟨cause, hs, he⟩ := h
                exact ⟨first, cause, .inl ⟨rfl, hs⟩, he⟩
            | inr h =>
                obtain ⟨value, heap₁, hg, statement, cause, hf, he⟩ := h
                exact ⟨statement, cause, .inr ⟨value, heap₁, hg.of_mapError, hf⟩, he⟩
          · intro h
            obtain ⟨statement, cause, hf, he⟩ := h
            cases hf with
            | inl h =>
                obtain ⟨rfl, hs⟩ := h
                exact .inl ⟨cause, hs, he⟩
            | inr h =>
                obtain ⟨value, heap₁, hg, hf⟩ := h
                exact .inr ⟨value, heap₁, hg.mapError _, statement, cause, hf, he⟩

/-- An error at the end of a source comes after all its statements. -/
theorem execute_some (cause : ParseError) : execute budget trees (some cause) result =
    execute budget trees none result >>= fun _ => Action.fail (.parse cause) := by
  have h := execute_append budget trees [] (some cause) result
  rwa [List.append_nil] at h

/-- A run ends if the evaluation of its statements does. -/
theorem ends_execute_iff : (execute budget trees ending result).Ends heap ↔
    (Eval.sequence (evaluate budget) result trees).Ends heap := by
  have hnone : (execute budget trees none result).Ends heap ↔
      (Eval.sequence (evaluate budget) result trees).Ends heap := by
    simp only [Action.ends_iff, gives_execute_iff, stops_execute_iff, stops_sequence_iff]
    refine or_congr Iff.rfl ⟨?_, ?_⟩
    · intro ⟨_, heap', statement, cause, hf, _⟩
      exact ⟨cause, heap', statement, hf⟩
    · intro ⟨cause, heap', statement, hf⟩
      exact ⟨_, heap', statement, cause, hf, rfl⟩
  cases ending with
  | none => exact hnone
  | some cause =>
      rw [← hnone, execute_some, Action.ends_bind, and_iff_left_iff_imp]
      exact fun _ => (Action.ensures_self _ _).mono (fun _ _ _ => Action.ends_fail _)
        fun _ _ _ => trivial

/-! ## Running -/

/-- If a source parses, running it does what evaluating its statements does, and an error also
carries the line of the statement that fails. If it does not parse, the statements in front of the
error are evaluated in order: the first one that fails stops the run, and if there is none, the
error of parsing does. The heap is the one that these evaluations leave. -/
theorem run_staged {language : Language} (hl : language = full ∨ language = basic) (budget : Nat)
    (source : Source) (heap : Heap) :
    (∀ trees heap₁, (parseAll language source).Gives heap trees heap₁ → heap₁ = heap ∧
      (∀ value heap', (run language budget source).Gives heap value heap' ↔
        (evaluateAll budget trees).Gives heap value heap') ∧
      (∀ error heap', (run language budget source).Stops heap error heap' ↔
        ∃ statement cause, FailsAt budget heap trees statement cause heap' ∧
          error = .eval cause (statement.location?.getD "")) ∧
      (∀ cause heap', (evaluateAll budget trees).Stops heap cause heap' ↔
        ∃ statement, FailsAt budget heap trees statement cause heap') ∧
      ((run language budget source).Ends heap ↔ (evaluateAll budget trees).Ends heap)) ∧
    ∀ cause heap₁, (parseAll language source).Stops heap cause heap₁ → heap₁ = heap ∧
      ∃ trees, Delivers language (ofSource source) trees (some cause) ∧
        (∀ value heap', ¬ (run language budget source).Gives heap value heap') ∧
        (∀ error heap', (run language budget source).Stops heap error heap' ↔
          (∃ statement cause, FailsAt budget heap trees statement cause heap' ∧
            error = .eval cause (statement.location?.getD "")) ∨
          (error = .parse cause ∧ ∃ value, (evaluateAll budget trees).Gives heap value heap')) ∧
        ((run language budget source).Ends heap ↔ (evaluateAll budget trees).Ends heap) := by
  obtain ⟨found, ending, hd⟩ := exists_delivers hl (ofSource source)
  have hends : (run language budget source).Ends heap ↔ (evaluateAll budget found).Ends heap := by
    rw [evaluateAll, ← @ends_execute_iff _ _ _ _ ending]
    exact ends_run_iff hl hd
  cases ending with
  | none =>
      have hparse : (parseAll language source).Gives heap found heap := hd.gives_parseAll hl heap
      refine ⟨fun trees heap₁ h => ?_, fun cause heap₁ h => absurd h hparse.not_stops⟩
      obtain ⟨rfl, rfl⟩ := hparse.unique h
      refine ⟨rfl, fun value heap' => ?_, fun error heap' => ?_, fun cause heap' => ?_, hends⟩
      · exact (gives_run_iff hl hd).trans gives_execute_iff
      · exact (stops_run_iff hl hd).trans stops_execute_iff
      · exact stops_sequence_iff
  | some error =>
      have hparse : (parseAll language source).Stops heap error heap := hd.stops_parseAll hl heap
      refine ⟨fun trees heap₁ h => absurd hparse h.not_stops, fun cause heap₁ h => ?_⟩
      obtain ⟨rfl, rfl⟩ := hparse.unique h
      refine ⟨rfl, found, hd, fun value heap' h => ?_, fun e heap' => ?_, hends⟩
      · exact nomatch ending_eq_none ((gives_run_iff hl hd).1 h)
      · rw [stops_run_iff hl hd, execute_some, Action.stops_bind_iff, stops_execute_iff]
        refine or_congr Iff.rfl ⟨?_, ?_⟩
        · intro ⟨value, heap₁, hg, hfail⟩
          obtain ⟨rfl, rfl⟩ := hfail.unique ⟨[], rfl⟩
          exact ⟨rfl, value, gives_execute_iff.1 hg⟩
        · intro ⟨he, value, hg⟩
          exact ⟨value, heap', gives_execute_iff.2 hg, he ▸ ⟨[], rfl⟩⟩

/-- The second statement of a source fails, and the first one stays. Another source does not parse:
its only statement that does something stays too. -/
theorem run_staged_undefined :
    let source := Source.ofText "a = 1\nb = a + c\na = 5\n"
    let broken := Source.ofText "a = 2\n\na = )\n"
    (∃ trees statement heap', trees.length = 3 ∧
      (parseAll full source).Gives initialHeap trees initialHeap ∧
      FailsAt 20 initialHeap trees statement (.undefinedName "c") heap' ∧
      (evaluateAll 20 trees).Stops initialHeap (.undefinedName "c") heap' ∧
      (run full 20 source).Stops initialHeap (.eval (.undefinedName "c") "at line 2") heap') ∧
    ∃ cause trees value heap', (parseAll full broken).Stops initialHeap cause initialHeap ∧
      Delivers full (ofSource broken) trees (some cause) ∧
      (evaluateAll 20 trees).Gives initialHeap value heap' ∧
      (run full 20 broken).Stops initialHeap (.parse cause) heap' := by
  intro source broken
  constructor
  · have hparse : (parseAll full source initialHeap).value?.map (·.1.length) = some 3 := by
      decide +kernel
    have hrun : (run full 20 source initialHeap).error?.map Prod.fst =
        some (.eval (.undefinedName "c") "at line 2") := by decide +kernel
    obtain ⟨⟨trees, heap₁⟩, hvalue, hlength⟩ := Option.map_eq_some_iff.1 hparse
    obtain ⟨⟨_, heap'⟩, herror, rfl⟩ := Option.map_eq_some_iff.1 hrun
    have hparse := Action.gives_of_value? hvalue
    have hstops := Action.stops_of_error? herror
    obtain ⟨rfl, -, hiff, heval, -⟩ :=
      (run_staged (.inl rfl) 20 source initialHeap).1 trees heap₁ hparse
    obtain ⟨statement, cause, hf, he⟩ := (hiff _ heap').1 hstops
    obtain ⟨rfl, -⟩ := RunError.eval.inj he
    exact ⟨trees, statement, heap', hlength, hparse, hf, (heval _ heap').2 ⟨statement, hf⟩, hstops⟩
  · have hparse : (parseAll full broken initialHeap).error?.isSome = true := by decide +kernel
    have hrun : (run full 20 broken initialHeap).error?.map Prod.fst =
        some (.parse (.unexpected ")" 3 "unexpected token.")) := by decide +kernel
    obtain ⟨⟨cause, heap₁⟩, hcause⟩ := Option.isSome_iff_exists.1 hparse
    obtain ⟨⟨error, heap'⟩, herror, hkind⟩ := Option.map_eq_some_iff.1 hrun
    have hparse := Action.stops_of_error? hcause
    have hstops := Action.stops_of_error? herror
    obtain ⟨rfl, trees, hd, -, hiff, -⟩ :=
      (run_staged (.inl rfl) 20 broken initialHeap).2 cause heap₁ hparse
    cases (hiff error heap').1 hstops with
    | inl h =>
        obtain ⟨statement, cause, -, rfl⟩ := h
        cases hkind
    | inr h =>
        obtain ⟨rfl, value, hg⟩ := h
        exact ⟨cause, trees, value, heap', hparse, hd, hg, hstops⟩

end Program

end TreeScript
