import TreeScript.Proofs.Language.Spaced
import TreeScript.Proofs.Program.Append

/-!
# Blank lines

A line of white space, with a comment or without, holds no token but its end. So a program with one
more such line differs from the program without it by one end of a line, which stands behind another
end of a line or at the start. No statement changes by that. At most there is one more statement,
and it does nothing (`Delivers.near`). So both programs have the same outcome, but for the numbers
of the lines below the blank one (`run_blankLine`).
-/

namespace TreeScript

open TokenStream

/-! ## Lines without a token -/

namespace Source

/-- The characters that leave a line blank. -/
def whiteSpace : List Char := [' ', '\t', '\r', '\x0c']

/-- The text is one line of white space, with a comment behind it or without. -/
inductive BlankLine (text : String) : Prop where
  /-- Without a comment. -/
  | plain (gap : List Char) :
      (∀ c ∈ gap, c ∈ whiteSpace) → text.toList = gap ++ ['\n'] → BlankLine text
  /-- With a comment. -/
  | comment (gap note : List Char) :
      (∀ c ∈ gap, c ∈ whiteSpace) → '\n' ∉ note →
      text.toList = gap ++ '/' :: '/' :: note ++ ['\n'] → BlankLine text

theorem BlankLine.exists_toList {text : String} (h : BlankLine text) :
    ∃ cs, '\n' ∉ cs ∧ text.toList = cs ++ ['\n'] := by
  have hwhite : '\n' ∉ whiteSpace := by decide
  cases h with
  | plain gap hgap htext => exact ⟨gap, fun hmem => hwhite (hgap _ hmem), htext⟩
  | comment gap note hgap hnote htext =>
      refine ⟨gap ++ '/' :: '/' :: note, ?_, htext⟩
      simp only [List.mem_append, List.mem_cons, not_or]
      exact ⟨fun hmem => hwhite (hgap _ hmem), by decide, by decide, hnote⟩

theorem BlankLine.endsLine {text : String} (h : BlankLine text) : EndsLine text := by
  obtain ⟨cs, -, htext⟩ := h.exists_toList
  rw [EndsLine, htext, List.getLast?_concat]

/-- A blank line is a single line. -/
theorem BlankLine.ofText_eq {text : String} (h : BlankLine text) : ofText text = [.text text] := by
  obtain ⟨cs, hcs, htext⟩ := h.exists_toList
  exact ofText_line hcs htext

end Source

namespace Token

/-- A blank line has no tokens. -/
theorem tokenize_blankLine {text : String} (h : Source.BlankLine text) (line : Nat) :
    tokenize text line = .ok [] := by
  have hwhite : ∀ c ∈ Source.whiteSpace, isGap c = true := by simp [Source.whiteSpace, isGap]
  rw [tokenize]
  cases h with
  | plain gap hgap htext =>
      rw [htext]
      refine scan_of_isGap line fun c hmem => ?_
      rcases List.mem_append.1 hmem with hmem | hmem
      · exact hwhite c (hgap c hmem)
      · rw [List.mem_singleton.1 hmem]
        rfl
  | comment gap note hgap hnote htext =>
      rw [htext, List.append_assoc, scan_gap line (fun c hmem => hwhite c (hgap c hmem)) rfl]
      exact (scan_comment line hnote []).trans (scan_of_isGap line (by simp [isGap]))

end Token

namespace Program

open Grammar TreeScript.Language

/-- All that comes out of a blank line is its end. -/
theorem sourceItems_blankLine {text : String} (h : Source.BlankLine text) (number : Nat) :
    sourceItems number (.ofText text) = [.ok ⟨.endOfLine, number + 1⟩] := by
  simp [h.ofText_eq, sourceItems, lineItems, Token.tokenize_blankLine h]

/-! ## One more line -/

/-- Where a line stands if there is one more line behind the first `k`. -/
def roomAfter (k line : Nat) : Nat := if line ≤ k then line else line + 1

/-- Lines can be told apart after that. -/
theorem comp_roomAfter (k : Nat) :
    (fun line => if line ≤ k then line else line - 1) ∘ roomAfter k = id := by
  funext line
  simp only [Function.comp_apply, roomAfter, id_eq]
  split
  · rfl
  · split
    · omega
    · omega

/-- The tokens of a text and those of the text with a blank line in it are near each other. -/
theorem near_blankLine {text blank : String} (hline : text = "" ∨ Source.EndsLine text)
    (hblank : Source.BlankLine blank) (more : String) :
    let k := (Source.ofText text).length
    Near (roomAfter k) (k + 1) (ofSource (.ofText (text ++ more))).items
      (ofSource (.ofText (text ++ blank ++ more))).items := by
  intro k
  have hsame : sourceItems 0 (.ofText text) =
      (sourceItems 0 (.ofText text)).map (Item.relined (roomAfter k)) :=
    sourceItems_relined fun i hi => if_pos (by omega)
  have hlater : sourceItems (k + 1) (.ofText more) =
      (sourceItems k (.ofText more)).map (Item.relined (roomAfter k)) :=
    sourceItems_relined fun i _ => (if_neg (by omega)).trans (by omega)
  have hall : sourceItems 0 (.ofText (text ++ blank ++ more)) =
      sourceItems 0 (.ofText text) ++
        .ok ⟨.endOfLine, k + 1⟩ :: sourceItems (k + 1) (.ofText more) := by
    rw [String.append_assoc, ofText_append_of_lines hline, Source.ofText_append hblank.endsLine,
      sourceItems_append, sourceItems_append, foldl_lineNumber_ofText, foldl_lineNumber_ofText,
      sourceItems_blankLine hblank, hblank.ofText_eq, Nat.zero_add]
    rfl
  rw [items_ofSource, items_ofSource, hall, hlater, ofText_append_of_lines hline,
    sourceItems_append, foldl_lineNumber_ofText, Nat.zero_add]
  nth_rewrite 2 [hsame]
  exact near_append (fun _ => isEndOfLine_of_getLast_sourceItems) _

/-- The stream delivers the statements, and maybe others that do nothing. -/
def DeliversMore (language : Language) (s : TokenStream) (trees : List Tree)
    (ending : Option ParseError) : Prop :=
  ∃ trees', Delivers language s trees' ending ∧
    trees'.filter (!·.isNull) = trees.filter (!·.isNull)

section Languages

variable {language : Language} (hl : language = full ∨ language = basic) {s s' : TokenStream}
  {trees : List Tree} {ending : Option ParseError} {f : Nat → Nat}
include hl

/-- If only the second stream begins with the end of a line, this is one more statement, which does
nothing. -/
theorem Delivers.beside {line : Nat} (h : Delivers language s trees ending)
    (hs : Beside f line s.items s'.items) :
    DeliversMore language s' (trees.map (Tree.relined f)) (ending.map (ParseError.relined f)) := by
  obtain ⟨t', hpeek, ht'⟩ := looks_peek.exists_gives hs
  obtain ⟨tree, u', hg, hnull, hu'⟩ := exists_gives_null hl (ht'.trans hs)
  refine ⟨_, .next hpeek rfl hg (h.relined hl hu'), ?_⟩
  rw [List.filter_cons_of_neg (by simp [hnull])]

/-- If the second stream has one more end of a line further down, some statement leaves it over or
takes it. -/
theorem Delivers.apart {line : Nat} (h : Delivers language s trees ending)
    (hs : Apart f line s.items s'.items) :
    DeliversMore language s' (trees.map (Tree.relined f)) (ending.map (ParseError.relined f)) := by
  have hpeeks := (aligned_apart f line).simulates_peek
  induction h generalizing s' with
  | ended hpeek hend =>
      obtain ⟨_, _, hpeek', -, hsame⟩ := hpeeks.of_gives hs hpeek
      exact ⟨[], .ended hpeek' (hsame.trans hend), rfl⟩
  | unread hpeek =>
      obtain ⟨_, _, hpeek', rfl⟩ := hpeeks.of_stops hs hpeek
      exact ⟨[], .unread hpeek', rfl⟩
  | broken hpeek hend hstops =>
      obtain ⟨_, _, hpeek', ht, hsame⟩ := hpeeks.of_gives hs hpeek
      obtain ⟨_, _, hstops', rfl⟩ := (carries_statement hl f line).of_stops ht hstops
      exact ⟨[], .broken hpeek' (hsame.trans hend) hstops', rfl⟩
  | next hpeek hend hg hrest ih =>
      obtain ⟨_, t', hpeek', ht, hsame⟩ := hpeeks.of_gives hs hpeek
      obtain ⟨_, u', hg', hu, rfl⟩ := (carries_statement hl f line).of_gives ht hg
      obtain ⟨trees', h', htrees⟩ := hu.elim ih (hrest.beside hl)
      refine ⟨_, .next hpeek' (hsame.trans hend) hg' h', ?_⟩
      rw [List.map_cons, List.filter_cons, List.filter_cons, htrees]

/-- With one more end of a line the same statements are delivered, and one more that does nothing.
-/
theorem Delivers.near {line : Nat} (h : Delivers language s trees ending)
    (hs : Near f line s.items s'.items) :
    DeliversMore language s' (trees.map (Tree.relined f)) (ending.map (ParseError.relined f)) :=
  hs.elim (h.apart hl) (h.beside hl)

end Languages

/-! ## Running with a blank line -/

variable {budget : Nat} {trees trees' : List Tree} {ending : Option ParseError} {result : Value}

/-- Statements that do nothing can be left out. -/
theorem execute_filter : execute budget (trees.filter (!·.isNull)) ending result =
    execute budget trees ending result := by
  induction trees generalizing result with
  | nil => rfl
  | cons tree trees ih =>
      cases hnull : tree.isNull with
      | true => rw [List.filter_cons_of_neg (by simp [hnull]), ih, execute, if_pos hnull]
      | false =>
          have hkept : ¬ tree.isNull = true := by simp [hnull]
          rw [List.filter_cons_of_pos (by simp [hnull]), execute, execute, if_neg hkept,
            if_neg hkept]
          simp only [ih]

/-- Statements that do nothing make no difference. -/
theorem execute_eq_of_filter_eq
    (h : trees'.filter (!·.isNull) = trees.filter (!·.isNull)) :
    execute budget trees' ending result = execute budget trees ending result := by
  rw [← execute_filter, h, execute_filter]

/-- Statements end on other lines just as here, if the lines can be told apart there. -/
theorem ends_execute_relined (hlines : ∀ tree ∈ trees, tree.HasLine) {f g : Nat → Nat}
    (hback : g ∘ f = id) (heap : Heap) :
    (execute budget (trees.map (Tree.relined f)) (ending.map (ParseError.relined f)) result).Ends
        heap ↔ (execute budget trees ending result).Ends heap := by
  constructor
  · intro hends
    have hlines' : ∀ tree ∈ trees.map (Tree.relined f), tree.HasLine :=
      List.forall_mem_map.2 fun tree hmem => (hlines tree hmem).relined f
    have hends' := (simulates_relocated (Nat.le_refl budget) hlines' g _ heap result result).ends
      ⟨rfl, rfl⟩ hends
    have htree : Tree.relined g ∘ Tree.relined f = id := by
      funext tree
      rw [Function.comp_apply, Tree.relined_relined, hback, Tree.relined_id, id]
    have herror : ParseError.relined g ∘ ParseError.relined f = id := by
      funext error
      rw [Function.comp_apply, ParseError.relined_relined, hback, ParseError.relined_id, id]
    rwa [List.map_map, Option.map_map, htree, herror, List.map_id, Option.map_id_fun, id] at hends'
  · exact (simulates_relocated (Nat.le_refl budget) hlines f ending heap result result).ends
      ⟨rfl, rfl⟩

/-- A blank line does not matter. Behind the first lines of a text, or before all of it, a line of
white space with a comment or without leaves the outcome as it is: the text with it ends if and only
if the text without it does, and then both give a value or both stop with an error. The values, the
errors and the heaps are the same, but what comes from the lines below the blank one is one line
further down. The functions that the heap had before stay as they are. -/
theorem run_blankLine {language : Language} (hl : language = full ∨ language = basic)
    {text blank : String} (hline : text = "" ∨ Source.EndsLine text)
    (hblank : Source.BlankLine blank) (more : String) (budget : Nat) (heap : Heap) :
    ∃ trees ending, Delivers language (.ofSource (.ofText (text ++ more))) trees ending ∧
      let f := roomAfter (Source.ofText text).length
      let L := Likeness.relocated heap trees f
      (∀ v heap₁, (run language budget (.ofText (text ++ more))).Gives heap v heap₁ →
        ∃ v' heap₁', (run language budget (.ofText (text ++ blank ++ more))).Gives heap v' heap₁' ∧
          L.Values heap₁.scopes.size v v' ∧ L.Heaps heap₁ heap₁') ∧
      (∀ error heap₁, (run language budget (.ofText (text ++ more))).Stops heap error heap₁ →
        ∃ error' heap₁',
          (run language budget (.ofText (text ++ blank ++ more))).Stops heap error' heap₁' ∧
          error.Relocated f error' ∧ L.Heaps heap₁ heap₁') ∧
      ((run language budget (.ofText (text ++ blank ++ more))).Ends heap ↔
        (run language budget (.ofText (text ++ more))).Ends heap) := by
  obtain ⟨trees, ending, h⟩ := exists_delivers hl (.ofSource (.ofText (text ++ more)))
  obtain ⟨trees', h', hsame⟩ := h.near hl (near_blankLine hline hblank more)
  have hsim := simulates_relocated (Nat.le_refl budget) (h.hasLine hl)
    (roomAfter (Source.ofText text).length) ending heap .nil .nil
  rw [← execute_eq_of_filter_eq hsame] at hsim
  refine ⟨trees, ending, h, fun v heap₁ hgives => ?_, fun error heap₁ hstops => ?_, ?_⟩
  · obtain ⟨v', heap₁', hgives', hheaps, hresult⟩ :=
      hsim.of_gives ⟨rfl, rfl⟩ ((gives_run_iff hl h).1 hgives)
    refine ⟨v', heap₁', (gives_run_iff hl h').2 hgives', ?_, hheaps⟩
    rcases hresult with ⟨-, rfl, rfl⟩ | ⟨-, hvalues⟩
    · exact .nil
    · exact hvalues
  · obtain ⟨error', heap₁', hstops', herror, hheaps⟩ :=
      hsim.of_stops ⟨rfl, rfl⟩ ((stops_run_iff hl h).1 hstops)
    exact ⟨error', heap₁', (stops_run_iff hl h').2 hstops', herror, hheaps⟩
  · rw [ends_run_iff hl h, ends_run_iff hl h', execute_eq_of_filter_eq hsame]
    exact ends_execute_relined (h.hasLine hl) (comp_roomAfter _) heap

/-- The first two lines of a definition, which open its body and a block in it. -/
def halvingHead : String := "def half(n) \x7b\n  if n \x7b\n"

/-- The rest of the definition. -/
def halvingTail : String := "    n / 2\n  \x7d\n\x7d\n"

/-- A comment in the inner block of a function changes neither the value of a call nor an error
below, but the error is one line further down. -/
theorem run_blankLine_nested :
    Source.EndsLine halvingHead ∧ Source.BlankLine "\t // a half\n" ∧
    (∃ heap₁ heap₁',
      (run full 20 (.ofText (halvingHead ++ (halvingTail ++ "half(6)\n")))).Gives initialHeap
        (.integer 3) heap₁ ∧
      (run full 20
          (.ofText (halvingHead ++ "\t // a half\n" ++ (halvingTail ++ "half(6)\n")))).Gives
        initialHeap (.integer 3) heap₁') ∧
    ∃ heap₁ error heap₁',
      (run full 20 (.ofText (halvingHead ++ (halvingTail ++ "1 / 0\n")))).Stops initialHeap
        (.eval .divisionByZero "at line 6") heap₁ ∧
      (run full 20
          (.ofText (halvingHead ++ "\t // a half\n" ++ (halvingTail ++ "1 / 0\n")))).Stops
        initialHeap error heap₁' ∧
      RunError.Relocated (roomAfter 2) (.eval .divisionByZero "at line 6") error := by
  have hline : Source.EndsLine halvingHead := by decide +kernel
  have hlength : (Source.ofText halvingHead).length = 2 := by decide +kernel
  have hblank : Source.BlankLine "\t // a half\n" :=
    .comment ['\t', ' '] " a half".toList (by simp [Source.whiteSpace]) (by decide +kernel)
      (by decide +kernel)
  have hspaced (more : String) := run_blankLine (.inl rfl) (.inr hline) hblank more 20 initialHeap
  refine ⟨hline, hblank, ?_, ?_⟩
  · have hcall : (run full 20 (.ofText (halvingHead ++ (halvingTail ++ "half(6)\n")))
        initialHeap).value?.any (·.1.same (.integer 3)) = true := by decide +kernel
    obtain ⟨⟨v, heap₁⟩, hrun, hsame⟩ := (Option.any_eq_true _ _).1 hcall
    have hgives := Action.gives_of_value? hrun
    cases v with
    | integer n =>
        obtain rfl : n = 3 := eq_of_beq hsame
        obtain ⟨_, _, -, hvalue, -⟩ := hspaced (halvingTail ++ "half(6)\n")
        obtain ⟨_, heap₁', hgives', ⟨⟩, -⟩ := hvalue _ heap₁ hgives
        exact ⟨heap₁, heap₁', hgives, hgives'⟩
    | text | function | nil => cases hsame
  · have hfail : (run full 20 (.ofText (halvingHead ++ (halvingTail ++ "1 / 0\n")))
        initialHeap).error?.map Prod.fst = some (.eval .divisionByZero "at line 6") := by
      decide +kernel
    obtain ⟨⟨_, heap₁⟩, hrun, rfl⟩ := Option.map_eq_some_iff.1 hfail
    have hstops := Action.stops_of_error? hrun
    obtain ⟨_, _, -, -, herror, -⟩ := hspaced (halvingTail ++ "1 / 0\n")
    obtain ⟨error, heap₁', hstops', hrelocated, -⟩ := herror _ heap₁ hstops
    rw [hlength] at hrelocated
    exact ⟨heap₁, error, heap₁', hstops, hstops', hrelocated⟩

end Program

end TreeScript
