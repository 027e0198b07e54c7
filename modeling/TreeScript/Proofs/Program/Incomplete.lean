import TreeScript.Proofs.Program.Delivers
import TreeScript.Proofs.Source

/-!
# Incomplete sources

An error of parsing says whether the source is incomplete. This is exact for a source that ends
with a line. If it is incomplete, one more line of closing braces makes it parse
(`exists_gives_closingLine`). If it is not, it has the same error whatever lines follow
(`stops_append`). So nothing is lost when a unit of a dialogue is dropped, and a unit is never
kept in vain (`incomplete_exact`).
-/

namespace TreeScript

open TokenStream

/-! ## A line of closing braces -/

namespace Token

/-- A brace is a mark of its own, whatever comes after it. -/
theorem furthest_brace (cs : List Char) : furthest ('\x7d' :: cs) = (.mark, 1) := by
  refine furthest_of_lt ?_ Nat.one_pos fun other hne => ?_
  · cases cs with
    | nil => rfl
    | cons d cs =>
        have hd : isDoubleMark '\x7d' d = false := by simp [isDoubleMark]
        simp [Shape.reach, hd, isMark]
  · cases other with
    | mark => exact absurd rfl hne
    | blank | comment | digits | literal | name => exact Nat.one_pos

/-- A line of braces is scanned brace by brace. -/
theorem scan_braces (line k : Nat) :
    scan line (List.replicate k '\x7d' ++ ['\n']) =
      .ok (List.replicate k (Language.brace line)) := by
  induction k with
  | zero => exact scan_of_isGap line (by simp [isGap])
  | succ k ih =>
      have hpiece : Shape.mark.piece (('\x7d' :: (List.replicate k '\x7d' ++ ['\n'])).take 1) =
          .kept (.word "\x7d") := rfl
      rw [List.replicate_succ, List.cons_append,
        scan_of_kept line (by simp) (furthest_brace _) hpiece]
      rw [List.drop_succ_cons, List.drop_zero, ih]
      rfl

end Token

namespace Program

open Grammar TreeScript.Language

/-- A line of `k` closing braces. -/
def closingLine (k : Nat) : String := String.ofList (List.replicate k '\x7d' ++ ['\n'])

theorem ofText_closingLine (k : Nat) : Source.ofText (closingLine k) = [.text (closingLine k)] :=
  Source.ofText_line (by simp [List.mem_replicate]) String.toList_ofList

theorem sourceItems_closingLine (number k : Nat) :
    sourceItems number (.ofText (closingLine k)) = (closing k (number + 1)).map .ok := by
  have htokens : Token.tokenize (closingLine k) (number + 1) =
      .ok (List.replicate k (brace (number + 1))) := by
    rw [Token.tokenize, closingLine, String.toList_ofList]
    exact Token.scan_braces (number + 1) k
  simp [ofText_closingLine, sourceItems, lineItems, htokens, closing]

/-! ## Parsing a source -/

section Parsing

variable {σ : Type} {source : Source} {error : ParseError} {s t : σ}

/-- An error that does not say that the source is incomplete stays, whatever lines follow. -/
theorem stops_append (h : (parseAll full source).Stops s error t) (he : error.isIncomplete = false)
    (more : Source) : (parseAll full (source ++ more)).Stops s error s := by
  obtain ⟨trees, ending, hdelivers⟩ := exists_delivers (.inl rfl) (ofSource source)
  cases ending with
  | none => exact absurd h (hdelivers.gives_parseAll (.inl rfl) s).not_stops
  | some found =>
      obtain rfl := h.error_eq (hdelivers.stops_parseAll (.inl rfl) s)
      obtain ⟨_, _, hmore, hsame⟩ := exists_delivers_append (.inl rfl) hdelivers more
      obtain ⟨-, rfl⟩ := hsame he
      exact hmore.stops_parseAll (.inl rfl) s

/-- If the source is incomplete, a line of closing braces completes it. -/
theorem exists_gives_closingLine (h : (parseAll full source).Stops s error t)
    (he : error.isIncomplete = true) :
    ∃ k trees, (parseAll full (source ++ .ofText (closingLine k))).Gives s trees s := by
  obtain ⟨-, stream, hstops⟩ := stops_parseAll_iff.1 h
  obtain ⟨tokens, tail, hs⟩ := (ofSource source).exists_shows
  have hended : tail = [] → LineEnded tokens := by
    rintro rfl
    exact lineEnded_ofSource hs
  obtain ⟨rfl, k, hk⟩ := (ensures_mendable hs (allPlain_ofSource hs) hended).of_stops hstops he
  have hmore : (ofSource (source ++ .ofText (closingLine k))).Shows _ [] :=
    shows_append hs (by rw [sourceItems_closingLine, List.nil_append, List.append_nil]) (by simp)
  obtain ⟨trees, htrees⟩ := hk (source.foldl lineNumber 0 + 1)
  obtain ⟨stream', hgives⟩ := htrees.exists_gives hmore (allPlain_ofSource hmore)
  exact ⟨k, trees, gives_parseAll hgives⟩

end Parsing

/-! ## Incomplete texts -/

/-- Of a text that ends with a line and does not parse, the error tells whether more text can
mend it: either some more text does, or none changes the error. -/
theorem incomplete_exact {σ : Type} {s t : σ} {text : String} {error : ParseError}
    (hline : Source.EndsLine text) (h : (parseAll full (.ofText text)).Stops s error t) :
    (error.isIncomplete = true →
      ∃ more trees, (parseAll full (.ofText (text ++ more))).Gives s trees s) ∧
    (error.isIncomplete = false →
      ∀ more, (parseAll full (.ofText (text ++ more))).Stops s error s) := by
  refine ⟨fun he => ?_, fun he more => ?_⟩
  · obtain ⟨k, trees, hgives⟩ := exists_gives_closingLine h he
    exact ⟨closingLine k, trees, by rwa [Source.ofText_append hline]⟩
  · rw [Source.ofText_append hline]
    exact stops_append h he _

/-- A definition that is still open, and a line that has a number too many. -/
theorem incomplete_exact_definition :
    (Source.EndsLine "def f(x) \x7b\n  x + 1\n" ∧
      (parseAll full (.ofText "def f(x) \x7b\n  x + 1\n")).Stops ()
        (.atEnd "\"\x7d\" expected.") () ∧
      ∃ more trees,
        (parseAll full (.ofText ("def f(x) \x7b\n  x + 1\n" ++ more))).Gives () trees ()) ∧
    Source.EndsLine "x = 1 2\n" ∧
      (parseAll full (.ofText "x = 1 2\n")).Stops () (.unexpected "2" 1 "\";\" expected.") () ∧
      ∀ more, (parseAll full (.ofText ("x = 1 2\n" ++ more))).Stops ()
        (.unexpected "2" 1 "\";\" expected.") () := by
  have hopen : (parseAll full (.ofText "def f(x) \x7b\n  x + 1\n")).Stops ()
      (.atEnd "\"\x7d\" expected.") () := Action.stops_of_error? (by decide +kernel)
  have hbroken : (parseAll full (.ofText "x = 1 2\n")).Stops ()
      (.unexpected "2" 1 "\";\" expected.") () := Action.stops_of_error? (by decide +kernel)
  have hopenLine : Source.EndsLine "def f(x) \x7b\n  x + 1\n" := by decide +kernel
  have hbrokenLine : Source.EndsLine "x = 1 2\n" := by decide +kernel
  refine ⟨⟨hopenLine, hopen, ?_⟩, hbrokenLine, hbroken, ?_⟩
  · exact (incomplete_exact hopenLine hopen).1 rfl
  · exact (incomplete_exact hbrokenLine hbroken).2 rfl

end Program

end TreeScript
