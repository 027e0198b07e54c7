import TreeScript.Dialogue
import TreeScript.Proofs.Program.Alike
import TreeScript.Proofs.Source

/-!
# The dialogue agrees with a run

A text that a run accepts can as well be typed into a dialogue, line by line. The dialogue then
shows the value of each statement, in order, and nothing else but its prompts. It has no unit left
at the end, and its heap is that of the run up to lines (`agrees_with_run`).

What the dialogue has yet to read is a unit that is still open and the lines after it. Together they
deliver, up to lines, the statements that the run has yet to execute, and this is kept line by line
(`exists_talks`): if the unit with one more line parses, its statements are the next ones and what
follows delivers the others (`delivers_append`), if it is incomplete nothing happens, and it cannot
have another error, because the text would then have it too (`exists_delivers_append`).
-/

namespace TreeScript

/-! ## Up to lines -/

/-- Trees that are equal up to lines have the same nodes, and their parts are equal up to lines. -/
theorem Tree.matches_of_unlined_eq {tree tree' : Tree} (h : tree'.unlined = tree.unlined) :
    tree.Matches (fun tree tree' => tree'.unlined = tree.unlined) tree' := by
  cases tree with
  | leaf kind token =>
      cases tree' with
      | leaf kind' token' =>
          simp only [unlined, relined_leaf, leaf.injEq] at h
          obtain ⟨rfl, htoken⟩ := h
          have hkind := congrArg Token.kind htoken
          exact .leaf hkind
      | branch kind' children' => simp [unlined] at h
  | branch kind children =>
      cases tree' with
      | leaf kind' token' => simp [unlined] at h
      | branch kind' children' =>
          simp only [unlined, relined_branch, branch.injEq] at h
          obtain ⟨rfl, hchildren⟩ := h
          refine .branch ?_
          rw [← List.forall₂_eq_eq_eq, List.forall₂_map_left_iff, List.forall₂_map_right_iff]
            at hchildren
          exact hchildren.flip

/-- The heaps are the same but for the lines of the trees in their functions. -/
def Heap.SameUpToLines (heap heap' : Heap) : Prop :=
  heap'.functions = heap.functions ∧
    heap'.scopes.map (Scope.mapTrees Tree.unlined) = heap.scopes.map (Scope.mapTrees Tree.unlined)

namespace Likeness

/-- Lines may differ. -/
def upToLines : Likeness :=
  ofTrees 0 (fun tree tree' => tree'.unlined = tree.unlined) fun _ _ => Tree.matches_of_unlined_eq

/-- Each heap is like itself. -/
theorem heaps_upToLines (heap : Heap) : upToLines.Heaps heap heap :=
  heaps_self (Nat.zero_le _) fun _ _ _ _ _ => values_self fun _ _ => ⟨rfl, rfl⟩

/-- Heaps that are alike differ in lines only. -/
theorem Heaps.sameUpToLines {heap heap' : Heap} (h : upToLines.Heaps heap heap') :
    heap.SameUpToLines heap' := h.mapTrees_eq fun _ _ h => h

end Likeness

/-! ## The values of statements -/

namespace Program

open Grammar TokenStream TreeScript.Language Likeness

/-- The values of the statements that do something. -/
def valuesOf (budget : Nat) : List Tree → Eval.Evaluator (List Value)
  | [] => pure []
  | tree :: trees =>
      if tree.isNull then valuesOf budget trees
      else do
        let value ← evaluate budget tree
        return value :: (← valuesOf budget trees)
termination_by structural trees => trees

variable {budget budget' : Nat} {tree : Tree} {trees trees' : List Tree}
  {heap heap₁ heap' other : Heap} {value : Value} {values : List Value}

theorem valuesOf_of_isNull (h : tree.isNull = true) :
    valuesOf budget (tree :: trees) = valuesOf budget trees := by
  rw [valuesOf, if_pos h]

/-- The value of a statement that is not a null one comes before the others. -/
theorem gives_valuesOf_cons (hnull : tree.isNull = false)
    (hvalue : (evaluate budget tree).Gives heap value heap₁)
    (hrest : (valuesOf budget trees).Gives heap₁ values heap') :
    (valuesOf budget (tree :: trees)).Gives heap (value :: values) heap' := by
  rw [valuesOf, if_neg (Bool.eq_false_iff.1 hnull)]
  exact hvalue.bind (hrest.bind (Action.gives_pure _))

/-- The first statement does nothing, or the first value is its value. -/
theorem valuesOf_cons_cases (h : (valuesOf budget (tree :: trees)).Gives heap values heap') :
    (tree.isNull = true ∧ (valuesOf budget trees).Gives heap values heap') ∨
      tree.isNull = false ∧ ∃ value rest heap₁, (evaluate budget tree).Gives heap value heap₁ ∧
        (valuesOf budget trees).Gives heap₁ rest heap' ∧ values = value :: rest := by
  rw [valuesOf] at h
  split at h
  · next hnull => exact .inl ⟨hnull, h⟩
  · next hnull =>
      obtain ⟨value, heap₁, hvalue, hrest⟩ := h.of_bind
      obtain ⟨rest, heap₂, hrest, hpure⟩ := hrest.of_bind
      obtain ⟨rfl, rfl⟩ := hpure.unique (Action.gives_pure _)
      exact .inr ⟨Bool.eq_false_iff.2 hnull, value, rest, heap₁, hvalue, hrest, rfl⟩

/-- What is executed without an error has values, and the last one is what the execution gives. -/
theorem exists_gives_valuesOf {result : Value}
    (h : (execute budget trees none result).Gives heap value heap') :
    ∃ values, (valuesOf budget trees).Gives heap values heap' ∧
      value = values.getLast?.getD result := by
  induction trees generalizing heap result with
  | nil =>
      obtain ⟨rfl, rfl⟩ := h.unique (Action.gives_pure result)
      exact ⟨[], Action.gives_pure [], rfl⟩
  | cons tree trees ih =>
      rw [execute] at h
      split at h
      · next hnull =>
          rw [valuesOf_of_isNull hnull]
          exact ih h
      · next hnull =>
          obtain ⟨first, heap₁, hfirst, hrest⟩ := h.of_bind
          obtain ⟨values, hvalues, rfl⟩ := ih hrest
          refine ⟨first :: values, ?_, by rw [List.getLast?_cons, Option.getD_some]⟩
          exact gives_valuesOf_cons (Bool.eq_false_iff.2 hnull) hfirst.of_mapError hvalues

/-- The values of some statements come before those of others that follow. -/
theorem exists_gives_of_append {more : List Tree}
    (h : (valuesOf budget (trees ++ more)).Gives heap values heap') :
    ∃ first second heap₁, (valuesOf budget trees).Gives heap first heap₁ ∧
      (valuesOf budget more).Gives heap₁ second heap' ∧ values = first ++ second := by
  induction trees generalizing heap values with
  | nil => exact ⟨[], values, heap, Action.gives_pure [], h, rfl⟩
  | cons tree trees ih =>
      rcases valuesOf_cons_cases h with ⟨hnull, h⟩ | ⟨hnull, value, rest, heap₁, hvalue, hrest, rfl⟩
      · rw [valuesOf_of_isNull hnull]
        exact ih h
      · obtain ⟨first, second, heap₂, hfirst, hsecond, rfl⟩ := ih hrest
        exact ⟨value :: first, second, heap₂, gives_valuesOf_cons hnull hvalue hfirst, hsecond, rfl⟩

/-- Statements that differ in lines have values that are printed alike. -/
theorem exists_gives_valuesOf_upToLines (hle : budget ≤ budget')
    (htrees : List.Forall₂ upToLines.Trees trees trees') (hheaps : upToLines.Heaps heap other)
    (h : (valuesOf budget trees).Gives heap values heap') :
    ∃ values' other', (valuesOf budget' trees').Gives other values' other' ∧
      values'.map Value.printed = values.map Value.printed ∧ upToLines.Heaps heap' other' := by
  induction htrees generalizing heap other values with
  | nil =>
      obtain ⟨rfl, rfl⟩ := h.unique (Action.gives_pure [])
      exact ⟨[], other, Action.gives_pure [], rfl, hheaps⟩
  | @cons tree tree' trees trees' ht _ ih =>
      have hsame : tree'.isNull = tree.isNull := (upToLines.trees_match _ _ ht).isNull_eq
      rcases valuesOf_cons_cases h with ⟨hnull, h⟩ | ⟨hnull, value, rest, heap₁, hvalue, hrest, rfl⟩
      · rw [valuesOf_of_isNull (hsame.trans hnull)]
        exact ih hheaps h
      · obtain ⟨value', other₁, hvalue', ⟨hheaps₁, -⟩, hv⟩ :=
          (alike_evaluate hle (fun n => visible_ofTrees n _) 0 ht).of_gives
            ⟨hheaps, Nat.zero_le _⟩ hvalue
        obtain ⟨rest', other', hrest', hprinted, hheaps'⟩ := ih hheaps₁ hrest
        have hvalues := gives_valuesOf_cons (hsame.trans hnull) hvalue' hrest'
        refine ⟨value' :: rest', other', hvalues, ?_, hheaps'⟩
        rw [List.map_cons, List.map_cons, hprinted, hv.printed_eq]

end Program

/-! ## What is shown -/

namespace Dialogue

open Program Grammar TokenStream TreeScript.Language Likeness

variable {config : Config} {budget budget' : Nat} {unit : Source} {content : String}
  {trees trees' : List Tree} {heap heap' other : Heap} {values : List Value}

/-- The values, each on a line of its own. -/
def shown (values : List Value) : String :=
  String.join (values.map fun value => value.printed ++ "\n")

/-- What is shown of values depends on their printed forms only. -/
theorem shown_eq_of_printed_eq {values' : List Value}
    (h : values'.map Value.printed = values.map Value.printed) : shown values' = shown values := by
  have hlines : ∀ values : List Value, (values.map fun value => value.printed ++ "\n") =
      (values.map Value.printed).map (· ++ "\n") := fun values => by rw [List.map_map]; rfl
  rw [shown, shown, hlines, hlines, h]

/-- What is shown is appended to the output. -/
theorem gives_showValues (hshow : config.showTrees = false)
    (h : (valuesOf budget trees).Gives heap values heap') (output : String) :
    (showValues config budget output trees).Gives heap (output ++ shown values) heap' := by
  induction trees generalizing heap values output with
  | nil =>
      obtain ⟨rfl, rfl⟩ := h.unique (Action.gives_pure [])
      rw [showValues, shown, List.map_nil, String.join_nil, String.append_empty]
      exact Action.gives_pure _
  | cons tree trees ih =>
      rw [showValues]
      rcases valuesOf_cons_cases h with ⟨hnull, h⟩ | ⟨hnull, value, rest, heap₁, hvalue, hrest, rfl⟩
      · rw [if_pos hnull]
        exact ih h output
      · rw [if_neg (Bool.eq_false_iff.1 hnull)]
        refine hvalue.attempt.bind ?_
        have houtput := ih hrest (output ++ value.printed ++ "\n")
        simp only [hshow, shown, List.map_cons, String.join_cons] at houtput ⊢
        simpa [String.append_assoc] using houtput

/-- A unit that parses is evaluated. -/
theorem gives_feed (hshow : config.showTrees = false)
    (h : Delivers full (ofSource (unit ++ [.text content])) trees none)
    (hvalues : (valuesOf budget trees).Gives heap values heap') :
    (feed config budget unit content).Gives heap ([], shown values) heap' := by
  refine (h.gives_parseAll (.inl rfl) heap).attempt.bind ?_
  have hshown := gives_showValues hshow hvalues ""
  rw [String.empty_append] at hshown
  exact hshown.bind (Action.gives_pure _)

/-- A unit that ends too early waits. -/
theorem gives_feed_of_isIncomplete {error : ParseError}
    (h : Delivers full (ofSource (unit ++ [.text content])) trees (some error))
    (he : error.isIncomplete = true) :
    (feed config budget unit content).Gives heap (unit ++ [.text content], "") heap := by
  refine (h.stops_parseAll (.inl rfl) heap).attempt.bind ?_
  simp only [he, if_true]
  exact Action.gives_pure _

/-! ## Line by line -/

/-- The dialogue takes lines of text one after another, from a unit and a heap to others. Each row
is a prompt and what is shown after the line. -/
inductive Talks (config : Config) (budget : Nat) :
    Source → Heap → Source → List (String × String) → Source → Heap → Prop where
  /-- No line is left. -/
  | done (unit : Source) (heap : Heap) : Talks config budget unit heap [] [] unit heap
  /-- One more line. -/
  | line {unit unit' last lines : Source} {heap heap₁ heap' : Heap} {content shown : String}
      {rows : List (String × String)} :
      (feed config budget unit content).Gives heap (unit', shown) heap₁ →
      Talks config budget unit' heap₁ lines rows last heap' →
      Talks config budget unit heap (.text content :: lines)
        ((config.promptFor unit, shown) :: rows) last heap'

variable {lines last : Source} {rows : List (String × String)}

/-- All that was shown for some rows. -/
def printedRows (rows : List (String × String)) : String :=
  String.join (rows.map fun row => row.1 ++ row.2)

/-- A dialogue that ends well appends its rows and the prompt for the line that is not entered. -/
theorem Talks.gives_transcriptFrom (h : Talks config budget unit heap lines rows last heap')
    (output : String) : (transcriptFrom config budget unit output lines).Gives heap
      ⟨output ++ printedRows rows ++ config.promptFor last, false⟩ heap' := by
  induction h generalizing output with
  | done unit heap =>
      rw [transcriptFrom, printedRows, List.map_nil, String.join_nil, String.append_empty]
      exact Action.gives_pure _
  | @line unit unit' last lines heap heap₁ heap' content shown rows hfeed _ ih =>
      rw [transcriptFrom]
      refine hfeed.bind ?_
      have hrest := ih (output ++ config.promptFor unit ++ shown)
      simpa [printedRows, String.append_assoc] using hrest

/-- There is one row for each line that is entered. -/
theorem Talks.length_eq (h : Talks config budget unit heap lines rows last heap') :
    rows.length = lines.length := by
  induction h with
  | done => rfl
  | line _ _ ih => rw [List.length_cons, List.length_cons, ih]

theorem promptFor_cases (config : Config) (unit : Source) :
    config.promptFor unit = config.prompt ∨ config.promptFor unit = continuationPrompt := by
  unfold Config.promptFor
  split
  · exact .inl rfl
  · exact .inr rfl

/-- Before each line one of the two prompts is printed. -/
theorem Talks.prompts (h : Talks config budget unit heap lines rows last heap') :
    ∀ row ∈ rows, row.1 = config.prompt ∨ row.1 = continuationPrompt := by
  induction h with
  | done => simp
  | @line unit _ _ _ _ _ _ _ _ _ _ _ ih =>
      exact List.forall_mem_cons.2 ⟨promptFor_cases config unit, ih⟩

/-! ## The agreement -/

theorem delivers_nil (language : Language) : Delivers language (ofSource []) [] none := by
  have hshows : (ofSource []).Shows [] [] := ⟨rfl, by simp⟩
  obtain ⟨line, stream, hpeek⟩ := exists_gives_peek_end hshows
  exact .ended hpeek rfl

/-- Statements that go by other lines are those statements up to lines. -/
theorem forall₂_of_relined {f : Nat → Nat}
    (h : List.Forall₂ upToLines.Trees trees (trees'.map (Tree.relined f))) :
    List.Forall₂ upToLines.Trees trees trees' :=
  (List.forall₂_map_right_iff.1 h).imp fun _ tree' htree =>
    (Tree.unlined_relined f tree').symm.trans htree

/-- If an open unit and the lines after it deliver, up to lines, what a run has yet to execute, the
dialogue shows the values of it. The induction is on the lines. Where the unit becomes complete, the
lines after it are on their own, and an error other than its end would be one of the whole text. -/
theorem exists_talks (hle : budget ≤ budget') (hshow : config.showTrees = false)
    (hlines : ∀ line ∈ lines, ∃ content, line = .text content)
    (hdelivers : Delivers full (ofSource (unit ++ lines)) trees' none)
    (hopen : unit = [] ∨ ∃ pending error, Delivers full (ofSource unit) pending (some error))
    (htrees : List.Forall₂ upToLines.Trees trees trees') (hheaps : upToLines.Heaps heap other)
    (hvalues : (valuesOf budget trees).Gives heap values heap') :
    ∃ rows other', Talks config budget' unit other lines rows [] other' ∧
      upToLines.Heaps heap' other' ∧ String.join (rows.map Prod.snd) = shown values := by
  induction lines generalizing unit trees trees' heap other values with
  | nil =>
      rw [List.append_nil] at hdelivers
      rcases hopen with rfl | ⟨pending, error, hpending⟩
      · obtain ⟨rfl, -⟩ := (delivers_nil full).unique hdelivers
        cases htrees
        obtain ⟨rfl, rfl⟩ := hvalues.unique (Action.gives_pure [])
        exact ⟨[], other, .done [] other, hheaps, rfl⟩
      · cases (hpending.unique hdelivers).2
  | cons line lines ih =>
      obtain ⟨⟨content, rfl⟩, hothers⟩ := List.forall_mem_cons.1 hlines
      obtain ⟨found, ending, hunit⟩ :=
        exists_delivers (.inl rfl) (ofSource (unit ++ [.text content]))
      rw [List.append_cons] at hdelivers
      cases ending with
      | none =>
          obtain ⟨rest, ending, hrest⟩ := exists_delivers (.inl rfl) (ofSource lines)
          obtain ⟨rfl, hending⟩ := (delivers_append (.inl rfl) hunit hrest).unique hdelivers
          obtain rfl : ending = none := Option.map_eq_none_iff.1 hending.symm
          have hfound := List.forall₂_take_append _ _ _ htrees
          have hlater := List.forall₂_drop_append _ _ _ htrees
          rw [← List.take_append_drop found.length trees] at hvalues
          obtain ⟨first, second, heap₁, hfirst, hsecond, rfl⟩ := exists_gives_of_append hvalues
          obtain ⟨first', other₁, hfirst', hprinted, hheaps₁⟩ :=
            exists_gives_valuesOf_upToLines hle hfound hheaps hfirst
          have hfresh : Delivers full (ofSource ([] ++ lines)) rest none := hrest
          obtain ⟨rows, other', htalks, hheaps', hjoin⟩ :=
            ih hothers hfresh (.inl rfl) (forall₂_of_relined hlater) hheaps₁ hsecond
          refine ⟨_, other', .line (gives_feed hshow hunit hfirst') htalks, hheaps', ?_⟩
          rw [List.map_cons, String.join_cons, hjoin, shown_eq_of_printed_eq hprinted, shown, shown,
            shown, List.map_append, String.join_append]
      | some error =>
          cases he : error.isIncomplete with
          | true =>
              obtain ⟨rows, other', htalks, hheaps', hjoin⟩ :=
                ih hothers hdelivers (.inr ⟨found, error, hunit⟩) htrees hheaps hvalues
              refine ⟨_, other', .line (gives_feed_of_isIncomplete hunit he) htalks, hheaps', ?_⟩
              rw [List.map_cons, String.join_cons, hjoin, String.empty_append]
          | false =>
              obtain ⟨more, ending, hmore, hsame⟩ := exists_delivers_append (.inl rfl) hunit lines
              obtain ⟨-, rfl⟩ := hsame he
              cases (hmore.unique hdelivers).2

/-- If a run of a text gives a value, the dialogue over it shows the values of all statements that
do something, each on a line of its own, and beside them one prompt for each line and one at the
end. No unit is left, and the heap is that of the run up to lines. -/
theorem agrees_with_run {text : String} {value : Value}
    (hrun : (run full budget (.ofText text)).Gives initialHeap value heap) (hle : budget ≤ budget')
    (config : Config) (hshow : config.showTrees = false) :
    let input := Source.ofBytes text.toUTF8
    ∃ trees values, (parseAll full (.ofText text)).Gives initialHeap trees initialHeap ∧
      (valuesOf budget trees).Gives initialHeap values heap ∧ value = values.getLast?.getD .nil ∧
      ∃ rows heap', Talks config budget' [] initialHeap input rows [] heap' ∧
        (transcript config budget' input).Gives initialHeap
          ⟨printedRows rows ++ config.prompt, false⟩ heap' ∧
        rows.length = input.length ∧
        (∀ row ∈ rows, row.1 = config.prompt ∨ row.1 = continuationPrompt) ∧
        String.join (rows.map Prod.snd) = shown values ∧
        heap.SameUpToLines heap' := by
  intro input
  have hinput : input = .ofText text := Source.ofBytes_toUTF8 text
  obtain ⟨trees, ending, hdelivers⟩ := exists_delivers (.inl rfl) (ofSource (.ofText text))
  have hexecute := (gives_run_iff (.inl rfl) hdelivers).1 hrun
  obtain rfl := ending_eq_none hexecute
  obtain ⟨values, hvalues, hvalue⟩ := exists_gives_valuesOf hexecute
  have hlines : ∀ line ∈ Source.ofText text, ∃ content, line = .text content := by
    intro line hmem
    obtain ⟨cs, -, rfl⟩ := List.mem_map.1 hmem
    exact ⟨_, rfl⟩
  have hall : Delivers full (ofSource ([] ++ Source.ofText text)) trees none := hdelivers
  obtain ⟨rows, heap', htalks, hheaps, hjoin⟩ := exists_talks hle hshow hlines hall (.inl rfl)
    (List.forall₂_same.2 fun _ _ => rfl) (heaps_upToLines initialHeap) hvalues
  rw [← hinput] at htalks
  have htranscript := htalks.gives_transcriptFrom ""
  rw [String.empty_append] at htranscript
  exact ⟨trees, values, hdelivers.gives_parseAll (.inl rfl) initialHeap, hvalues, hvalue, rows,
    heap', htalks, htranscript, htalks.length_eq, htalks.prompts, hjoin, hheaps.sameUpToLines⟩

/-- A definition over three lines, two statements on a fourth one, and a line without a break. -/
def doubling : String := "def twice(n) \x7b\n  n + n\n\x7d\ntwice(4); \"a\" + 1\n9"

/-- The dialogue over it shows four values and six prompts. -/
theorem agrees_with_run_doubling :
    ∃ value heap rows heap', (run full 20 (.ofText doubling)).Gives initialHeap value heap ∧
      Talks ⟨"> ", false⟩ 20 [] initialHeap (.ofBytes doubling.toUTF8) rows [] heap' ∧
      (transcript ⟨"> ", false⟩ 20 (.ofBytes doubling.toUTF8)).Gives initialHeap
        ⟨printedRows rows ++ "> ", false⟩ heap' ∧
      rows.length = 5 ∧ String.join (rows.map Prod.snd) = "twice\n8\na1\n9\n" ∧
      heap.SameUpToLines heap' := by
  have hsome : (run full 20 (.ofText doubling) initialHeap).value?.isSome = true := by
    decide +kernel
  obtain ⟨⟨value, heap⟩, hrun⟩ := Option.isSome_iff_exists.1 hsome
  have hrun := Action.gives_of_value? hrun
  obtain ⟨trees, values, ⟨_, htrees⟩, ⟨_, hvalues⟩, -, rows, heap', htalks, htranscript, hlength, -,
    hjoin, hheaps⟩ := agrees_with_run hrun (Nat.le_refl 20) ⟨"> ", false⟩ rfl
  have hshown : ((parseAll full (.ofText doubling) initialHeap).value?.bind fun parsed =>
      (valuesOf 20 parsed.1 initialHeap).value?.map (shown ·.1)) =
        some "twice\n8\na1\n9\n" := by decide +kernel
  rw [htrees] at hshown
  simp only [hvalues, Outcome.value?, Option.bind_some, Option.map_some,
    Option.some.injEq] at hshown
  have hlines : (Source.ofBytes doubling.toUTF8).length = 5 := by
    rw [Source.ofBytes_toUTF8]
    decide +kernel
  exact ⟨value, heap, rows, heap', hrun, htalks, htranscript, hlength.trans hlines,
    hjoin.trans hshown, hheaps⟩

end Dialogue

end TreeScript
