import TreeScript.Proofs.Program.Relocated
import TreeScript.Proofs.Source

/-!
# Programs in parts

A program can be run in parts if each part ends with a line. After a first part that gives a value,
running all of it does what running the rest does from the heap that the first part left: the values
and the errors are the same, but what the rest says about lines is larger by the lines of the first
part. An error of the first part stays, unless it is that the text ends too early (`run_append`).

The statements of the rest keep their trees but for the lines (`delivers_append`), and what a heap
knew before keeps them altogether. `Likeness.relocated` joins the two.
-/

namespace TreeScript

namespace Program

open Grammar TokenStream TreeScript.Language

variable {language : Language} {s : TokenStream} {trees : List Tree} {ending : Option ParseError}

section Languages

variable (hl : language = full ∨ language = basic) {source : Source} {budget first : Nat}
  {heap heap₁ : Heap}
include hl

/-- After a first part that gives a value, a run executes the statements of the rest, which are on
later lines. -/
theorem result?_run_append {value : Value} (hle : first ≤ budget)
    (hfirst : (run language first source).Gives heap value heap₁) {more : Source}
    (hmore : Delivers language (ofSource more) trees ending) :
    let moved := (· + source.foldl lineNumber 0)
    (run language budget (source ++ more) heap).result? =
      (execute budget (trees.map (Tree.relined moved)) (ending.map (ParseError.relined moved)) value
        heap₁).result? := by
  intro moved
  obtain ⟨trees₁, ending₁, h₁⟩ := exists_delivers hl (ofSource source)
  have hexecute := (gives_run_iff hl h₁).1 hfirst
  obtain rfl := ending_eq_none hexecute
  rw [result?_run hl (delivers_append hl h₁ hmore), execute_append]
  exact (gives_execute_of_le hle hexecute).result?_bind

/-- An error of a first part stays unless the source ends too early. It is not the one at the end,
so it comes from a statement before it. -/
theorem stops_run_append {error : RunError} (hle : first ≤ budget)
    (hfirst : (run language first source).Stops heap error heap₁)
    (he : ∀ cause, error = .parse cause → cause.isIncomplete = false) (more : Source) :
    (run language budget (source ++ more)).Stops heap error heap₁ := by
  obtain ⟨trees₁, ending₁, h₁⟩ := exists_delivers hl (ofSource source)
  have hexecute := stops_execute_of_le hle ((stops_run_iff hl h₁).1 hfirst)
  cases ending₁ with
  | none =>
      obtain ⟨trees₂, ending₂, h₂⟩ := exists_delivers hl (ofSource more)
      rw [stops_run_iff hl (delivers_append hl h₁ h₂), execute_append]
      exact hexecute.bind _
  | some cause =>
      obtain ⟨trees₂, ending₂, h₂, hsame⟩ := exists_delivers_append hl h₁ more
      rw [stops_run_iff hl h₂]
      cases hincomplete : cause.isIncomplete with
      | false =>
          obtain ⟨rfl, rfl⟩ := hsame hincomplete
          rwa [List.append_nil]
      | true =>
          have hne : ∀ other, some cause = some other → error ≠ .parse other := by
            rintro _ ⟨⟩ rfl
            rw [he cause rfl] at hincomplete
            cases hincomplete
          rw [execute_append]
          exact (stops_execute_none hexecute hne).bind _

end Languages

/-! ## Texts -/

theorem foldl_lineNumber_ofText (text : String) (number : Nat) :
    (Source.ofText text).foldl lineNumber number = number + (Source.ofText text).length := by
  unfold Source.ofText
  induction Source.cut '\n' text.toList generalizing number with
  | nil => rfl
  | cons line lines ih =>
      rw [List.map_cons, List.foldl_cons, ih, lineNumber, List.length_cons]
      omega

theorem ofText_append_of_lines {text : String} (h : text = "" ∨ Source.EndsLine text)
    (more : String) : Source.ofText (text ++ more) = .ofText text ++ .ofText more := by
  rcases h with rfl | h
  · rw [String.empty_append]
    rfl
  · exact Source.ofText_append h more

/-- Running a text and then more of it is running all of it. If the first part gives a value and
the second part ends, so do both together: in the same way, in the same heap and with the same value
or error, but what comes from the second part is as many lines further down as the first part has.
The functions that the first part has made are the same. If the second part has nothing to evaluate,
the value is that of the first part. If the first part stops with an error, both together stop with
it in the same heap, unless the error says that the text ends too early. -/
theorem run_append (hl : language = full ∨ language = basic) {text : String}
    (hline : text = "" ∨ Source.EndsLine text) (more : String) {first second budget : Nat}
    (hfirst : first ≤ budget) (hsecond : second ≤ budget) (heap : Heap) :
    (∀ v₁ heap₁, (run language first (.ofText text)).Gives heap v₁ heap₁ →
      ∃ trees ending, Delivers language (.ofSource (.ofText more)) trees ending ∧
        let k := (Source.ofText text).length
        let L := Likeness.relocated heap₁ trees (· + k)
        (∀ v₂ heap₂, (run language second (.ofText more)).Gives heap₁ v₂ heap₂ →
          (parseAll language (.ofText more)).Gives heap₁ trees heap₁ ∧
          ∃ v heap', (run language budget (.ofText (text ++ more))).Gives heap v heap' ∧
            L.Heaps heap₂ heap' ∧
            ((∀ tree ∈ trees, tree.isNull = true) → v = v₁) ∧
            ((∃ tree ∈ trees, tree.isNull = false) → L.Values heap₂.scopes.size v₂ v)) ∧
        ∀ error heap₂, (run language second (.ofText more)).Stops heap₁ error heap₂ →
          ∃ error' heap', (run language budget (.ofText (text ++ more))).Stops heap error' heap' ∧
            error.Relocated (· + k) error' ∧ L.Heaps heap₂ heap') ∧
    ∀ error heap₁, (run language first (.ofText text)).Stops heap error heap₁ →
      (∀ cause, error = .parse cause → cause.isIncomplete = false) →
      (run language budget (.ofText (text ++ more))).Stops heap error heap₁ := by
  rw [ofText_append_of_lines hline]
  refine ⟨fun v₁ heap₁ hgives => ?_, fun error heap₁ hstops he =>
    stops_run_append hl hfirst hstops he _⟩
  obtain ⟨trees, ending, hmore⟩ := exists_delivers hl (.ofSource (.ofText more))
  have hall := result?_run_append hl hfirst hgives hmore
  rw [foldl_lineNumber_ofText, Nat.zero_add] at hall
  have hsim := simulates_relocated hsecond (hmore.hasLine hl) (· + (Source.ofText text).length)
    ending heap₁ .nil v₁
  refine ⟨trees, ending, hmore, fun v₂ heap₂ hv => ?_, fun error heap₂ herror => ?_⟩
  · have hexecute := (gives_run_iff hl hmore).1 hv
    obtain rfl := ending_eq_none hexecute
    obtain ⟨v, heap', hg, hheaps, hresult⟩ := hsim.of_gives ⟨rfl, rfl⟩ hexecute
    refine ⟨hmore.gives_parseAll hl heap₁, v, heap', ?_, hheaps, fun hnull => ?_, fun hsome => ?_⟩
    · exact Action.gives_iff.2 (hall.trans (Action.gives_iff.1 hg))
    · rcases hresult with ⟨-, -, hv⟩ | ⟨⟨tree, hmem, hn⟩, -⟩
      · exact hv
      · rw [hnull tree hmem] at hn
        cases hn
    · rcases hresult with ⟨hnull, -, -⟩ | ⟨-, hvalues⟩
      · obtain ⟨tree, hmem, hn⟩ := hsome
        rw [hnull tree hmem] at hn
        cases hn
      · exact hvalues
  · obtain ⟨error', heap', hs, hmoved, hheaps⟩ :=
      hsim.of_stops ⟨rfl, rfl⟩ ((stops_run_iff hl hmore).1 herror)
    exact ⟨error', heap', Action.stops_iff.2 (hall.trans (Action.stops_iff.1 hs)), hmoved, hheaps⟩

/-- The text of a definition. -/
def halving : String := "def half(n) \x7b n / 2 \x7d\n"

/-- The heap after the definition. -/
def halvingHeap : Heap :=
  ((run full 20 (.ofText halving) initialHeap).value?.map Prod.snd).getD initialHeap

/-- After the definition a call gives a value, another call fails on what is now the second line,
and an empty line changes nothing. In another text a statement fails before the text ends too
early. -/
theorem run_append_halving :
    (∃ v₁, (run full 20 (.ofText halving)).Gives initialHeap v₁ halvingHeap ∧
      (∃ heap₂ heap', (run full 20 (.ofText "half(6)\n")).Gives halvingHeap (.integer 3) heap₂ ∧
        (run full 20 (.ofText (halving ++ "half(6)\n"))).Gives initialHeap (.integer 3) heap') ∧
      (∃ heap₂ error heap', (run full 20 (.ofText "half(1, 2)\n")).Stops halvingHeap
          (.eval (.badArgumentCount 1 2) "at line 1") heap₂ ∧
        (run full 20 (.ofText (halving ++ "half(1, 2)\n"))).Stops initialHeap error heap' ∧
        RunError.Relocated (· + 1) (.eval (.badArgumentCount 1 2) "at line 1") error) ∧
      ∃ heap', (run full 20 (.ofText (halving ++ "\n"))).Gives initialHeap v₁ heap') ∧
    ∃ heap₁, (run full 20 (.ofText "1 / 0\nif 1 \x7b\n")).Stops initialHeap
        (.eval .divisionByZero "at line 1") heap₁ ∧
      ∀ more, (run full 20 (.ofText ("1 / 0\nif 1 \x7b\n" ++ more))).Stops initialHeap
        (.eval .divisionByZero "at line 1") heap₁ := by
  refine ⟨?_, ?_⟩
  · have hline : Source.EndsLine halving := by decide +kernel
    have hlength : (Source.ofText halving).length = 1 := by decide +kernel
    have hsome : (run full 20 (.ofText halving) initialHeap).value?.isSome = true := by
      decide +kernel
    obtain ⟨⟨v₁, heap₁⟩, hrun⟩ := Option.isSome_iff_exists.1 hsome
    have hheap : halvingHeap = heap₁ := by rw [halvingHeap, hrun]; rfl
    have hfirst := Action.gives_of_value? (hheap ▸ hrun)
    have hparts (more : String) := (run_append (.inl rfl) (.inr hline) more (Nat.le_refl 20)
      (Nat.le_refl 20) initialHeap).1 v₁ halvingHeap hfirst
    rw [hlength] at hparts
    refine ⟨v₁, hfirst, ?_, ?_, ?_⟩
    · obtain ⟨trees, _, -, hvalue, -⟩ := hparts "half(6)\n"
      have hcall : (run full 20 (.ofText "half(6)\n") halvingHeap).value?.any
          (·.1.same (.integer 3)) = true := by decide +kernel
      obtain ⟨⟨v₂, heap₂⟩, hsecond, hsame⟩ := (Option.any_eq_true _ _).1 hcall
      have hsecond := Action.gives_of_value? hsecond
      cases v₂ with
      | integer n =>
          obtain rfl : n = 3 := eq_of_beq hsame
          obtain ⟨⟨_, hparse⟩, v, heap', hboth, -, -, hsome⟩ := hvalue _ heap₂ hsecond
          have hstatement : (parseAll full (.ofText "half(6)\n") halvingHeap).value?.any
              (·.1.any (!·.isNull)) = true := by decide +kernel
          rw [hparse] at hstatement
          obtain ⟨tree, hmem, hnull⟩ := List.any_eq_true.1 hstatement
          obtain ⟨⟩ := hsome ⟨tree, hmem, by simpa using hnull⟩
          exact ⟨heap₂, heap', hsecond, hboth⟩
      | text | function | nil => cases hsame
    · obtain ⟨_, _, -, -, herror⟩ := hparts "half(1, 2)\n"
      have hcall : (run full 20 (.ofText "half(1, 2)\n") halvingHeap).error?.map Prod.fst =
          some (.eval (.badArgumentCount 1 2) "at line 1") := by decide +kernel
      obtain ⟨⟨_, heap₂⟩, hcall, rfl⟩ := Option.map_eq_some_iff.1 hcall
      have hsecond := Action.stops_of_error? hcall
      obtain ⟨error, heap', hboth, hmoved, -⟩ := herror _ heap₂ hsecond
      exact ⟨heap₂, error, heap', hsecond, hboth, hmoved⟩
    · obtain ⟨trees, _, -, hvalue, -⟩ := hparts "\n"
      have hline : (run full 20 (.ofText "\n") halvingHeap).value?.isSome = true := by
        decide +kernel
      obtain ⟨⟨v₂, heap₂⟩, hline⟩ := Option.isSome_iff_exists.1 hline
      obtain ⟨⟨_, hparse⟩, v, heap', hboth, -, hnull, -⟩ :=
        hvalue v₂ heap₂ (Action.gives_of_value? hline)
      have hstatement : (parseAll full (.ofText "\n") halvingHeap).value?.any
          (·.1.all (·.isNull)) = true := by decide +kernel
      rw [hparse] at hstatement
      rw [hnull (List.all_eq_true.1 hstatement)] at hboth
      exact ⟨heap', hboth⟩
  · have hline : Source.EndsLine "1 / 0\nif 1 \x7b\n" := by decide +kernel
    have hrun : (run full 20 (.ofText "1 / 0\nif 1 \x7b\n") initialHeap).error?.map Prod.fst =
        some (.eval .divisionByZero "at line 1") := by decide +kernel
    obtain ⟨⟨error, heap₁⟩, herror, rfl⟩ := Option.map_eq_some_iff.1 hrun
    have hstops := Action.stops_of_error? herror
    refine ⟨heap₁, hstops, fun more => ?_⟩
    exact (run_append (.inl rfl) (.inr hline) more (Nat.le_refl 20) (Nat.le_refl 20) initialHeap).2
      _ _ hstops (fun _ h => by cases h)

end Program

end TreeScript
