import TreeScript.Proofs.Token.Slices

/-!
# Spelling

How tokens are written: a word as it is, a number in decimal with any number of zeros before it, and
a string between quotes with escapes (`Spelled`). A line of tokens has gaps between them (`Spread`),
and may have gaps around them and a note at the end. The scanner finds these tokens again
(`tokenize_spread`). A spelled token ends where a gap follows, whatever its shape is, so it is the
longest match and the scanner goes on with the gap.
-/

namespace TreeScript

namespace Text

theorem digitsValue_eq_ofDigitChars (cs : List Char) :
    digitsValue cs = Nat.ofDigitChars 10 cs 0 := rfl

/-- Zeros before a number do not count. -/
theorem digitsValue_zeros (zeros : Nat) (cs : List Char) :
    digitsValue (List.replicate zeros '0' ++ cs) = digitsValue cs := by
  induction zeros with
  | zero => rfl
  | succ zeros ih => rwa [List.replicate_succ, List.cons_append]

/-- Leading zeros do not count. -/
theorem digitsValue_toDigits (zeros n : Nat) :
    digitsValue (List.replicate zeros '0' ++ Nat.toDigits 10 n) = n := by
  rw [digitsValue_zeros, digitsValue_eq_ofDigitChars, Nat.ofDigitChars_ten_toDigits]

end Text

namespace Token

/-! ## Spelled tokens -/

/-- How a character of a string is written between quotes. -/
def escapedChar (c : Char) : List Char :=
  if c = '"' then ['\\', '"']
  else if c = '\\' then ['\\', '\\']
  else if c = '\n' then ['\\', 'n']
  else [c]

/-- How a string is written between quotes. -/
def escaped (cs : List Char) : List Char := cs.flatMap escapedChar

/-- The ways to write a token. -/
inductive Spelled : Kind → List Char → Prop
  | name {c : Char} {cs : List Char} (hstart : isNameStart c = true)
      (hparts : ∀ d ∈ cs, isNamePart d = true) :
      Spelled (.word (String.ofList (c :: cs))) (c :: cs)
  | mark {c : Char} (hmark : isMark c = true) : Spelled (.word (String.ofList [c])) [c]
  | doubleMark {c d : Char} (hmark : isDoubleMark c d = true) :
      Spelled (.word (String.ofList [c, d])) [c, d]
  | number {value : Int64} (hvalue : 0 ≤ value.toInt) (zeros : Nat) :
      Spelled (.number value) (List.replicate zeros '0' ++ Nat.toDigits 10 value.toInt.toNat)
  | string (value : String) :
      Spelled (.string value) ('"' :: (escaped value.toList ++ ['"']))

/-- Escapes are undone when the literal is read. -/
theorem body_escaped (cs : List Char) : LiteralBody (escaped cs) cs := by
  induction cs with
  | nil => exact .nil
  | cons c cs ih =>
      show LiteralBody (escapedChar c ++ escaped cs) (c :: cs)
      rw [escapedChar]
      split
      · next hc => exact hc ▸ .quote ih
      split
      · next hc => exact hc ▸ .backslash ih
      split
      · next hc => exact hc ▸ .lineBreak ih
      exact .plain ‹_› ‹_› ih

theorem matches_digits {cs : List Char} (hcs : cs ≠ []) (h : ∀ c ∈ cs, c.isDigit = true) :
    Shape.digits.Matches cs := by
  cases cs with
  | nil => exact absurd rfl hcs
  | cons c cs => exact .digits h

/-- A spelled token is a text of some shape, and denotes the token. -/
theorem Spelled.exists_shape {kind : Kind} {cs : List Char} (h : Spelled kind cs) :
    ∃ shape : Shape, shape.Matches cs ∧ shape.Denotes cs kind := by
  cases h with
  | name hstart hparts => exact ⟨_, .name hstart hparts, .name⟩
  | mark hmark => exact ⟨_, .mark hmark, .mark⟩
  | doubleMark hmark => exact ⟨_, .doubleMark hmark, .mark⟩
  | @number value hvalue zeros =>
      have hdigits : ∀ c ∈ List.replicate zeros '0' ++ Nat.toDigits 10 value.toInt.toNat,
          c.isDigit = true := by
        intro c hmem
        rcases List.mem_append.1 hmem with hzero | hdigit
        · rw [List.eq_of_mem_replicate hzero]
          rfl
        · exact Nat.isDigit_of_mem_toDigits (by decide) (by decide) hdigit
      refine ⟨_, matches_digits (by simp [Nat.toDigits_ne_nil]) hdigits, .digits ?_⟩
      rw [Text.digitsValue_toDigits, Int.toNat_of_nonneg hvalue]
  | string value =>
      have hkind := Shape.Denotes.literal (body_escaped value.toList)
      rw [String.ofList_toList] at hkind
      exact ⟨_, .literal (body_escaped value.toList), hkind⟩

/-- A gap or a closing parenthesis ends every token. No mark of two characters ends with one of
them. -/
theorem Shape.Denotes.breaks_eq {shape : Shape} {slice : List Char} {kind : Kind} {d : Char}
    (h : shape.Denotes slice kind) (hd : isGap d = true ∨ d = ')') :
    shape.breaks slice d = true := by
  have hends : (d = ' ' ∨ d = '\t' ∨ d = '\r' ∨ d = '\n' ∨ d = '\x0c') ∨ d = ')' :=
    hd.imp_left isGap_cases
  cases h with
  | digits => rcases hends with (rfl | rfl | rfl | rfl | rfl) | rfl <;> rfl
  | literal => rfl
  | name => rcases hends with (rfl | rfl | rfl | rfl | rfl) | rfl <;> rfl
  | @mark slice =>
      match slice with
      | [c] =>
          have hpair : isDoubleMark c d = false := by
            rcases hends with (rfl | rfl | rfl | rfl | rfl) | rfl <;> simp [isDoubleMark]
          have hslash : d ≠ '/' := by
            rcases hends with (rfl | rfl | rfl | rfl | rfl) | rfl <;> decide
          simp [Shape.breaks, hpair, hslash]
      | [] | _ :: _ :: _ => rfl

/-! ## Lines of tokens -/

/-- Nothing, or a text that begins with a gap. -/
def GapFirst (cs : List Char) : Prop := ∀ c ∈ cs.head?, isGap c = true

/-- Tokens in a row, with a gap between each and the next. -/
inductive Spread : List Kind → List Char → Prop
  | nil : Spread [] []
  | last {kind : Kind} {cs : List Char} (h : Spelled kind cs) : Spread [kind] cs
  | cons {kind next : Kind} {kinds : List Kind} {cs gap text : List Char} (h : Spelled kind cs)
      (hne : gap ≠ []) (hgap : ∀ c ∈ gap, isGap c = true) (hrest : Spread (next :: kinds) text) :
      Spread (kind :: next :: kinds) (cs ++ gap ++ text)

/-- What may come after the last token of a line: a gap, or a note with a gap before it. -/
inductive Trailer : List Char → Prop
  | gap {gap : List Char} (hgap : ∀ c ∈ gap, isGap c = true) : Trailer gap
  | note {gap note : List Char} (hne : gap ≠ []) (hgap : ∀ c ∈ gap, isGap c = true)
      (hnote : '\n' ∉ note) : Trailer (gap ++ '/' :: '/' :: note)

theorem gapFirst_append {gap : List Char} (hne : gap ≠ []) (hgap : ∀ c ∈ gap, isGap c = true)
    (rest : List Char) : GapFirst (gap ++ rest) := by
  cases gap with
  | nil => exact absurd rfl hne
  | cons c gap =>
      rintro _ ⟨⟩
      exact hgap c List.mem_cons_self

theorem Trailer.gapFirst {trail : List Char} (h : Trailer trail) : GapFirst trail := by
  cases h with
  | gap hgap =>
      intro c hc
      exact hgap c (List.mem_of_head? hc)
  | note hne hgap => exact gapFirst_append hne hgap _

theorem scan_note (line : Nat) {note : List Char} (hnote : '\n' ∉ note) :
    scan line ('/' :: '/' :: note) = .ok [] := by
  have hlongest : Longest ('/' :: '/' :: note ++ []) .comment ('/' :: '/' :: note) :=
    (Shape.Matches.comment hnote).longest (by simp)
  have hscan := hlongest.scan_skipped rfl line
  rwa [List.append_nil, scan_nil] at hscan

/-- After the tokens of a line there is nothing to scan. -/
theorem Trailer.scan_eq {trail : List Char} (h : Trailer trail) (line : Nat) :
    scan line trail = .ok [] := by
  cases h with
  | gap hgap => exact scan_of_isGap line hgap
  | note hne hgap hnote => rw [scan_gap_append line hgap, scan_note line hnote]

/-- A spelled token with a gap or a closing parenthesis after it is the first token. -/
theorem Spelled.scan_append {kind : Kind} {cs rest : List Char} (h : Spelled kind cs)
    (hrest : ∀ d ∈ rest.head?, isGap d = true ∨ d = ')') (line : Nat) :
    scan line (cs ++ rest) = (scan line rest).map (⟨kind, line⟩ :: ·) := by
  obtain ⟨shape, hmatch, hkind⟩ := h.exists_shape
  have hlongest := hmatch.longest fun d hd => hkind.breaks_eq (hrest d hd)
  exact hlongest.scan_kept hkind line

/-- The tokens of a row come before those of what follows it. -/
theorem Spread.scan_append {kinds : List Kind} {body rest : List Char} (h : Spread kinds body)
    (hrest : GapFirst rest) (line : Nat) :
    scan line (body ++ rest) = (scan line rest).map (kinds.map (⟨·, line⟩) ++ ·) := by
  induction h with
  | nil => cases hscan : scan line rest <;> simp [hscan, Except.map]
  | last h => exact h.scan_append (fun d hd => .inl (hrest d hd)) line
  | @cons kind next kinds cs gap text h hne hgap hspread ih =>
      calc scan line (cs ++ gap ++ text ++ rest)
        _ = scan line (cs ++ (gap ++ (text ++ rest))) := by simp only [List.append_assoc]
        _ = (scan line (gap ++ (text ++ rest))).map (⟨kind, line⟩ :: ·) :=
            h.scan_append (fun d hd => .inl (gapFirst_append hne hgap _ d hd)) line
        _ = (scan line (text ++ rest)).map (⟨kind, line⟩ :: ·) := by
            rw [scan_gap_append line hgap]
        _ = _ := by
            rw [ih]
            cases scan line rest <;> rfl

/-- Tokens that are written with gaps between them, with any gaps around them and a note at the end,
are the tokens of the line. -/
theorem tokenize_spread {kinds : List Kind} {lead body trail : List Char} (line : Nat)
    (hlead : ∀ c ∈ lead, isGap c = true) (hbody : Spread kinds body) (htrail : Trailer trail) :
    tokenize (String.ofList (lead ++ body ++ trail)) line = .ok (kinds.map (⟨·, line⟩)) := by
  rw [tokenize, String.toList_ofList, List.append_assoc, scan_gap_append line hlead,
    hbody.scan_append htrail.gapFirst, htrail.scan_eq]
  show Except.ok (_ ++ []) = _
  rw [List.append_nil]

/-- A quote, a backslash and a line break are read back from a string, and zeros are dropped. -/
theorem tokenize_spread_escapes :
    tokenize "\t\"\\\"//\\\\\\n\"\n007 <= // all" 5 =
      .ok [⟨.string "\"//\\\n", 5⟩, ⟨.number 7, 5⟩, ⟨.word "<=", 5⟩] := by
  have hstring : Spelled (.string "\"//\\\n") "\"\\\"//\\\\\\n\"".toList := .string _
  have hnumber : Spelled (.number 7) "007".toList := .number (by decide) 2
  have hmark : Spelled (.word "<=") "<=".toList := .doubleMark rfl
  have htrail : Trailer ([' '] ++ '/' :: '/' :: " all".toList) :=
    .note (by decide) (List.all_eq_true.1 (by decide)) (by decide)
  have htext : "\t\"\\\"//\\\\\\n\"\n007 <= // all" = String.ofList (['\t'] ++
      ("\"\\\"//\\\\\\n\"".toList ++ ['\n'] ++ ("007".toList ++ [' '] ++ "<=".toList)) ++
      ([' '] ++ '/' :: '/' :: " all".toList)) := by decide
  rw [htext]
  have hgap : ∀ cs ∈ [['\t'], ['\n'], [' ']], ∀ c ∈ cs, isGap c = true := by simp [isGap]
  exact tokenize_spread 5 (hgap _ (by decide)) (.cons hstring (by decide) (hgap _ (by decide))
    (.cons hnumber (by decide) (hgap _ (by decide)) (.last hmark))) htrail

end Token

end TreeScript
