import Mathlib.Algebra.Group.Nat.Defs
import TreeScript.Proofs.Token.Slices

/-!
# Maximal munch

A text is *cut* into slices, each of them the longest match of any shape where it begins
(`Cuts`). Cutting ends with the text, or where it is *stuck*: no shape has a text there, or the
longest match is a run of digits that stands for a number that does not fit. Every text has one
cutting and no other, and the scanner follows it (`tokenize_munches`). It gives the tokens of the
slices if they cover the text. If not, it fails with the rest of the text.
-/

namespace TreeScript

namespace Text

/-- The second text is the first one without the white space at its end. -/
def Trimmed (cs kept : List Char) : Prop :=
  (∃ blanks, cs = kept ++ blanks ∧ ∀ c ∈ blanks, isBlank c = true) ∧
    ∀ c ∈ kept.getLast?, isBlank c = false

/-- What trimming leaves does not end in white space, and what it takes off is white space. -/
theorem trimmed_trimEnd (cs : List Char) : Trimmed cs (trimEnd cs) := by
  have hcs : cs.reverse.reverse = (cs.reverse.dropWhile isBlank).reverse ++
      (cs.reverse.takeWhile isBlank).reverse := by
    rw [← List.reverse_append, List.takeWhile_append_dropWhile]
  rw [List.reverse_reverse] at hcs
  refine ⟨⟨_, hcs, fun c hmem => ?_⟩, fun c hlast => ?_⟩
  · exact List.all_eq_true.1 List.all_takeWhile c (List.mem_reverse.1 hmem)
  · rw [trimEnd, List.getLast?_reverse] at hlast
    have hhead := List.head?_dropWhile_not isBlank cs.reverse
    rw [hlast] at hhead
    exact hhead

end Text

namespace Token

/-! ## Cuttings -/

/-- The tokens of the slices of a line, without the gaps and comments. -/
inductive Yields (line : Nat) : List (Shape × List Char) → List Token → Prop
  | nil : Yields line [] []
  | skipped {shape : Shape} {slice : List Char} {slices : List (Shape × List Char)}
      {tokens : List Token} (hshape : shape = .blank ∨ shape = .comment)
      (h : Yields line slices tokens) : Yields line ((shape, slice) :: slices) tokens
  | kept {shape : Shape} {slice : List Char} {kind : Kind} {slices : List (Shape × List Char)}
      {tokens : List Token} (hkind : shape.Denotes slice kind) (h : Yields line slices tokens) :
      Yields line ((shape, slice) :: slices) (⟨kind, line⟩ :: tokens)

/-- The digits stand for a number that does not fit. -/
def Overlong (digits : List Char) : Prop := 2 ^ 63 - 1 < Text.digitsValue digits

/-- The places where cutting cannot go on. -/
inductive Stuck : List Char → Prop
  | unmatched {text : List Char} (htext : text ≠ [])
      (h : ∀ (shape : Shape) slice, shape.Matches slice → ¬slice <+: text) : Stuck text
  | overlong {text digits : List Char} (h : Longest text .digits digits)
      (hlong : Overlong digits) : Stuck text

/-- The text is cut into the slices, each of them the longest match where it begins. The rest is
empty, or cutting cannot go on there. -/
inductive Cuts : List Char → List (Shape × List Char) → List Char → Prop
  | covered : Cuts [] [] []
  | stuck {text : List Char} (h : Stuck text) : Cuts text [] text
  | slice {shape : Shape} {slice text rest : List Char} {slices : List (Shape × List Char)}
      (hslice : Longest (slice ++ text) shape slice) (hfits : shape = .digits → ¬Overlong slice)
      (h : Cuts text slices rest) : Cuts (slice ++ text) ((shape, slice) :: slices) rest

theorem not_stuck_nil : ¬Stuck [] := by
  intro h
  cases h with
  | unmatched htext => exact htext rfl
  | overlong h => exact not_longest_nil h

/-- Where cutting cannot go on, the only slice is one that does not fit. -/
theorem Stuck.overlong_of_longest {text slice : List Char} {shape : Shape} (h : Stuck text)
    (hslice : Longest text shape slice) : shape = .digits ∧ Overlong slice := by
  cases h with
  | unmatched htext h => exact absurd hslice.isStart (h shape slice hslice.isMatch)
  | overlong h hlong =>
      obtain ⟨rfl, rfl⟩ := hslice.unique h
      exact ⟨rfl, hlong⟩

/-- There is one cutting at most. -/
theorem Cuts.unique {text rest : List Char} {slices : List (Shape × List Char)}
    (h : Cuts text slices rest) :
    ∀ slices' rest', Cuts text slices' rest' → slices' = slices ∧ rest' = rest := by
  induction h with
  | covered =>
      intro slices' rest' h'
      generalize htext : [] = text at h'
      cases h' with
      | covered => exact ⟨rfl, rfl⟩
      | stuck h => exact absurd h (htext ▸ not_stuck_nil)
      | slice h => exact absurd h (htext ▸ not_longest_nil)
  | stuck hstuck =>
      intro slices' rest' h'
      cases h' with
      | covered => exact absurd hstuck not_stuck_nil
      | stuck => exact ⟨rfl, rfl⟩
      | slice hslice hfits =>
          obtain ⟨hdigits, hlong⟩ := hstuck.overlong_of_longest hslice
          exact absurd hlong (hfits hdigits)
  | @slice shape slice text rest slices hslice hfits h ih =>
      intro slices' rest' h'
      generalize htext : slice ++ text = whole at h' hslice
      cases h' with
      | covered => exact absurd hslice not_longest_nil
      | stuck hstuck =>
          obtain ⟨hdigits, hlong⟩ := hstuck.overlong_of_longest hslice
          exact absurd hlong (hfits hdigits)
      | slice hslice' _ h' =>
          obtain ⟨rfl, rfl⟩ := hslice.unique hslice'
          obtain rfl := List.append_cancel_left htext
          obtain ⟨rfl, rfl⟩ := ih _ _ h'
          exact ⟨rfl, rfl⟩

theorem longest_or_unmatched (text : List Char) :
    (∃ shape slice, Longest text shape slice) ∨
      ∀ (shape : Shape) slice, shape.Matches slice → ¬slice <+: text := by
  rcases hf : furthest text with ⟨shape, n⟩
  cases n with
  | zero =>
      refine .inr fun shape slice hmatch hstart => ?_
      have hle := hmatch.length_le_furthest hstart
      obtain ⟨c, cs, rfl, -⟩ := hmatch.exists_cons
      rw [hf] at hle
      cases hle
  | succ n => exact .inl ⟨shape, _, longest_of_furthest hf⟩

/-- Every text has a cutting. -/
theorem exists_cuts (text : List Char) : ∃ slices rest, Cuts text slices rest := by
  induction hn : text.length using Nat.strongRecOn generalizing text with
  | ind n ih =>
      by_cases htext : text = []
      · subst htext
        exact ⟨_, _, .covered⟩
      rcases longest_or_unmatched text with ⟨shape, slice, hslice⟩ | hunmatched
      · by_cases hlong : shape = .digits ∧ Overlong slice
        · obtain ⟨rfl, hlong⟩ := hlong
          exact ⟨_, _, .stuck (.overlong hslice hlong)⟩
        · obtain ⟨text, rfl⟩ := hslice.isStart
          have hshorter : text.length < n := by
            obtain ⟨c, cs, rfl, -⟩ := hslice.isMatch.exists_cons
            rw [← hn, List.length_append, List.length_cons]
            omega
          obtain ⟨slices, rest, hcuts⟩ := ih text.length hshorter text rfl
          exact ⟨_, _, .slice hslice (fun hdigits hlong' => hlong ⟨hdigits, hlong'⟩) hcuts⟩
      · exact ⟨_, _, .stuck (.unmatched htext hunmatched)⟩

/-! ## The scanner -/

/-- A slice that fits is skipped, or it stands for a token. -/
theorem Shape.Matches.skipped_or_denotes {shape : Shape} {slice : List Char}
    (h : shape.Matches slice) (hfits : shape = .digits → ¬Overlong slice) :
    (shape = .blank ∨ shape = .comment) ∨ ∃ kind, shape.Denotes slice kind := by
  cases h with
  | blank => exact .inl (.inl rfl)
  | comment => exact .inl (.inr rfl)
  | @digits c cs hdigits =>
      have hlt : Text.digitsValue (c :: cs) < 2 ^ 63 := by
        have := hfits rfl
        unfold Overlong at this
        omega
      exact .inr ⟨_, .digits (Int64.toInt_ofNat_of_lt hlt)⟩
  | literal hbody => exact .inr ⟨_, .literal hbody⟩
  | name => exact .inr ⟨_, .name⟩
  | mark | doubleMark => exact .inr ⟨_, .mark⟩

/-- Where cutting cannot go on, scanning fails. -/
theorem Stuck.scan_eq {text : List Char} (h : Stuck text) (line : Nat) :
    scan line text = .error (Fault.ofRest line text) := by
  cases text with
  | nil => exact absurd h not_stuck_nil
  | cons c cs =>
      rcases hf : furthest (c :: cs) with ⟨shape, n⟩
      cases n with
      | zero => rw [scan, hf]
      | succ n =>
          obtain ⟨rfl, hlong⟩ := h.overlong_of_longest (longest_of_furthest hf)
          have hpiece : Shape.digits.piece ((c :: cs).take (n + 1)) = .overflow := by
            rw [Shape.piece, if_neg]
            unfold Overlong at hlong
            unfold numberLimit
            omega
          rw [scan, hf]
          simp only [hpiece]

/-- Scanning follows the cutting. -/
theorem Cuts.scan_eq {text rest : List Char} {slices : List (Shape × List Char)}
    (h : Cuts text slices rest) (line : Nat) :
    (rest = [] → ∃ tokens, Yields line slices tokens ∧ scan line text = .ok tokens) ∧
      (rest ≠ [] → scan line text = .error (Fault.ofRest line rest)) := by
  induction h with
  | covered => exact ⟨fun _ => ⟨[], .nil, scan_nil line⟩, fun hrest => absurd rfl hrest⟩
  | stuck h =>
      refine ⟨?_, fun _ => h.scan_eq line⟩
      rintro rfl
      exact absurd h not_stuck_nil
  | @slice shape slice text rest slices hslice hfits h ih =>
      obtain ⟨ihcovered, ihstuck⟩ := ih
      rcases hslice.isMatch.skipped_or_denotes hfits with hshape | ⟨kind, hkind⟩
      · have hpiece : shape.piece slice = .skipped := by
          rcases hshape with rfl | rfl <;> rfl
        rw [hslice.scan_skipped hpiece]
        refine ⟨fun hrest => ?_, ihstuck⟩
        obtain ⟨tokens, hyields, hscan⟩ := ihcovered hrest
        exact ⟨tokens, .skipped hshape hyields, hscan⟩
      · rw [hslice.scan_kept hkind]
        constructor
        · intro hrest
          obtain ⟨tokens, hyields, hscan⟩ := ihcovered hrest
          exact ⟨_, .kept hkind hyields, by rw [hscan]; rfl⟩
        · intro hrest
          rw [ihstuck hrest]
          rfl

/-- Every text has one cutting and no other. If the slices cover the text, their tokens are the
tokens of the line. If not, the line has none, and the fault is what cutting has left, without the
white space at its end. -/
theorem tokenize_munches (text : String) (line : Nat) :
    ∃ slices rest, Cuts text.toList slices rest ∧
      (∀ slices' rest', Cuts text.toList slices' rest' → slices' = slices ∧ rest' = rest) ∧
      (rest = [] → ∃ tokens, Yields line slices tokens ∧ tokenize text line = .ok tokens) ∧
      (rest ≠ [] → ∃ kept, Text.Trimmed rest kept ∧
        tokenize text line = .error ⟨line, String.ofList kept⟩) := by
  obtain ⟨slices, rest, hcuts⟩ := exists_cuts text.toList
  obtain ⟨hcovered, hstuck⟩ := hcuts.scan_eq line
  exact ⟨slices, rest, hcuts, hcuts.unique, hcovered,
    fun hrest => ⟨_, Text.trimmed_trimEnd rest, hstuck hrest⟩⟩

end Token

end TreeScript
