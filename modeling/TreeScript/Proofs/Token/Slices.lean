import TreeScript.Proofs.Token

/-!
# Texts of a shape

What the texts of each shape are is said here by rules (`Shape.Matches`), without a direction of
reading. The body of a string literal comes with the text that it stands for (`LiteralBody`).

*Reach.* How far a shape reaches is the length of its longest text at the start: what it reaches is
a text of the shape, and no text of the shape there is longer.

*Longest match.* The furthest shape gives the longest match of any shape (`Longest`). There is one
longest match at most, as the first character of a text tells its shape. Only a slash leaves a
choice, and a mark is never the beginning of a comment. A slice is the longest match if the
character after it does not go on with it (`Shape.Matches.longest`). This holds for all shapes at
once, so a text can be scanned slice by slice with no look at the other shapes.

*Tokens.* A slice denotes one token at most (`Shape.Denotes`), and the scanner gives it.
-/

namespace TreeScript

namespace Token

/-! ## The texts of each shape -/

/-- The characters between the quotes of a literal, and the text they stand for. -/
inductive LiteralBody : List Char → List Char → Prop
  | nil : LiteralBody [] []
  | plain {c : Char} {raw value : List Char} (hquote : c ≠ '"') (hslash : c ≠ '\\')
      (h : LiteralBody raw value) : LiteralBody (c :: raw) (c :: value)
  | quote {raw value : List Char} (h : LiteralBody raw value) :
      LiteralBody ('\\' :: '"' :: raw) ('"' :: value)
  | backslash {raw value : List Char} (h : LiteralBody raw value) :
      LiteralBody ('\\' :: '\\' :: raw) ('\\' :: value)
  | lineBreak {raw value : List Char} (h : LiteralBody raw value) :
      LiteralBody ('\\' :: 'n' :: raw) ('\n' :: value)
  | other {c : Char} {raw value : List Char} (hquote : c ≠ '"') (hslash : c ≠ '\\')
      (hletter : c ≠ 'n') (hbreak : c ≠ '\n') (h : LiteralBody raw value) :
      LiteralBody ('\\' :: c :: raw) ('\\' :: c :: value)

/-- The texts of each shape. -/
inductive Shape.Matches : Shape → List Char → Prop
  | blank {c : Char} {cs : List Char} (hgap : ∀ d ∈ c :: cs, isGap d = true) :
      Matches .blank (c :: cs)
  | comment {cs : List Char} (hbreak : '\n' ∉ cs) : Matches .comment ('/' :: '/' :: cs)
  | digits {c : Char} {cs : List Char} (hdigits : ∀ d ∈ c :: cs, d.isDigit = true) :
      Matches .digits (c :: cs)
  | literal {raw value : List Char} (hbody : LiteralBody raw value) :
      Matches .literal ('"' :: (raw ++ ['"']))
  | name {c : Char} {cs : List Char} (hstart : isNameStart c = true)
      (hparts : ∀ d ∈ cs, isNamePart d = true) : Matches .name (c :: cs)
  | mark {c : Char} (hmark : isMark c = true) : Matches .mark [c]
  | doubleMark {c d : Char} (hmark : isDoubleMark c d = true) : Matches .mark [c, d]

/-! ## String literals -/

/-- A body ends at the first quote that has no backslash of its own before it. -/
theorem closing_of_body {raw value : List Char} (h : LiteralBody raw value) (rest : List Char) :
    closing (raw ++ '"' :: rest) = some (raw.length + 1) := by
  induction h with
  | nil => rfl
  | @plain c raw value hquote hslash h ih =>
      rw [List.cons_append, closing, ih]
      · rfl
      all_goals grind
  | quote h ih | backslash h ih | lineBreak h ih =>
      simp [closing, ih]
  | other hquote hslash hletter hbreak h ih =>
      rw [List.cons_append, List.cons_append, closing, ih]
      · rfl
      · grind

/-- What stands before a closing quote is a body. -/
theorem body_of_closing (cs : List Char) :
    ∀ n, closing cs = some n → ∃ raw value rest,
      cs = raw ++ '"' :: rest ∧ n = raw.length + 1 ∧ LiteralBody raw value := by
  fun_induction closing cs with
  | case1 => simp
  | case2 cs =>
      rintro n ⟨⟩
      exact ⟨[], [], cs, rfl, rfl, .nil⟩
  | case3 => simp
  | case4 c cs hbreak ih =>
      intro n h
      obtain ⟨m, hm, rfl⟩ := Option.map_eq_some_iff.1 h
      obtain ⟨raw, value, rest, rfl, rfl, hbody⟩ := ih m hm
      by_cases hquote : c = '"'
      · subst hquote
        exact ⟨_, _, rest, rfl, rfl, .quote hbody⟩
      by_cases hslash : c = '\\'
      · subst hslash
        exact ⟨_, _, rest, rfl, rfl, .backslash hbody⟩
      by_cases hletter : c = 'n'
      · subst hletter
        exact ⟨_, _, rest, rfl, rfl, .lineBreak hbody⟩
      exact ⟨_, _, rest, rfl, rfl, .other hquote hslash hletter (fun he => hbreak he) hbody⟩
  | case5 c cs hquote hbreak hslash ih =>
      intro n h
      obtain ⟨m, hm, rfl⟩ := Option.map_eq_some_iff.1 h
      obtain ⟨raw, value, rest, rfl, rfl, hbody⟩ := ih m hm
      refine ⟨c :: raw, c :: value, rest, rfl, rfl, .plain hquote (fun he => ?_) hbody⟩
      cases raw with
      | nil => exact hslash '"' rest he rfl
      | cons d raw => exact hslash d (raw ++ '"' :: rest) he rfl

theorem unescape_of_body {raw value : List Char} (h : LiteralBody raw value) :
    unescape raw = value := by
  induction h with
  | nil => rfl
  | plain hquote hslash h ih =>
      rw [unescape, ih]
      all_goals grind
  | quote h ih | backslash h ih | lineBreak h ih => simp [unescape, ih]
  | other hquote hslash hletter hbreak h ih =>
      rw [unescape, ih]
      all_goals grind

/-! ## Reach -/

theorem length_le_takeWhile {p : Char → Bool} {cs : List Char} (h : ∀ c ∈ cs, p c = true)
    (rest : List Char) : cs.length ≤ ((cs ++ rest).takeWhile p).length := by
  rw [List.takeWhile_append_of_pos h, List.length_append]
  exact Nat.le_add_right _ _

theorem take_takeWhile_length (p : Char → Bool) (cs : List Char) :
    cs.take (cs.takeWhile p).length = cs.takeWhile p :=
  (List.prefix_iff_eq_take.1 (List.takeWhile_prefix p)).symm

theorem Shape.slashes_of_reach {cs : List Char} {n : Nat}
    (h : Shape.comment.reach cs = n + 1) : ∃ note, cs = '/' :: '/' :: note := by
  unfold Shape.reach at h
  split at h
  all_goals first | contradiction | exact ⟨_, rfl⟩

theorem Shape.closing_of_reach {cs : List Char} {n : Nat}
    (h : Shape.literal.reach cs = n + 1) : ∃ rest, cs = '"' :: rest ∧ closing rest = some n := by
  unfold Shape.reach at h
  split at h
  all_goals try contradiction
  next rest _ =>
    refine ⟨rest, rfl, ?_⟩
    cases hclosing : closing rest with
    | none => simp [hclosing] at h
    | some m => simpa [hclosing] using h

/-- What a shape reaches is a text of the shape. -/
theorem Shape.matches_of_reach {shape : Shape} {cs : List Char} {n : Nat}
    (h : shape.reach cs = n + 1) : shape.Matches (cs.take (n + 1)) := by
  cases shape with
  | blank =>
      rw [← h, Shape.reach, take_takeWhile_length]
      obtain ⟨c, gap, hgap⟩ := List.exists_cons_of_length_eq_add_one h
      rw [hgap]
      exact .blank (hgap ▸ List.all_eq_true.1 List.all_takeWhile)
  | comment =>
      obtain ⟨cs, rfl⟩ := Shape.slashes_of_reach h
      have hn : n = (cs.takeWhile (· != '\n')).length + 1 := by
        simp only [Shape.reach] at h
        omega
      rw [hn, List.take_succ_cons, List.take_succ_cons, take_takeWhile_length]
      refine .comment fun hmem => ?_
      simpa using List.all_eq_true.1 List.all_takeWhile _ hmem
  | digits =>
      rw [← h, Shape.reach, take_takeWhile_length]
      obtain ⟨c, digits, hdigits⟩ := List.exists_cons_of_length_eq_add_one h
      rw [hdigits]
      exact .digits (hdigits ▸ List.all_eq_true.1 List.all_takeWhile)
  | literal =>
      obtain ⟨cs, rfl, hclosing⟩ := Shape.closing_of_reach h
      obtain ⟨raw, value, rest, rfl, rfl, hbody⟩ := body_of_closing cs n hclosing
      have htake : (raw ++ '"' :: rest).take (raw.length + 1) = raw ++ ['"'] := by
        rw [List.append_cons, List.take_left' (by simp)]
      rw [List.take_succ_cons, htake]
      exact .literal hbody
  | name =>
      cases cs with
      | nil => cases h
      | cons c cs =>
          simp only [Shape.reach] at h
          split at h
          · next hstart =>
              have hn : n = (cs.takeWhile isNamePart).length := by omega
              rw [hn, List.take_succ_cons, take_takeWhile_length]
              exact .name hstart (List.all_eq_true.1 List.all_takeWhile)
          · cases h
  | mark =>
      cases cs with
      | nil => cases h
      | cons c cs =>
          cases cs with
          | nil =>
              simp only [Shape.reach] at h
              split at h
              · cases h
                exact .mark ‹_›
              · cases h
          | cons d cs =>
              simp only [Shape.reach] at h
              split at h
              · cases h
                exact .doubleMark ‹_›
              · split at h
                · cases h
                  exact .mark ‹_›
                · cases h

/-- A shape reaches past each of its texts. -/
theorem Shape.Matches.length_le_reach {shape : Shape} {slice : List Char}
    (h : shape.Matches slice) (rest : List Char) :
    slice.length ≤ shape.reach (slice ++ rest) := by
  cases h with
  | blank hgap => exact length_le_takeWhile hgap rest
  | @comment cs hbreak =>
      have hnote : ∀ c ∈ cs, (c != '\n') = true :=
        fun c hmem => bne_iff_ne.2 fun he => hbreak (he ▸ hmem)
      have := length_le_takeWhile hnote rest
      simp only [List.length_cons, List.cons_append, Shape.reach]
      omega
  | digits hdigits => exact length_le_takeWhile hdigits rest
  | literal hbody =>
      simp [Shape.reach, closing_of_body hbody]
  | name hstart hparts =>
      have := length_le_takeWhile hparts rest
      simp only [List.length_cons, List.cons_append, Shape.reach, if_pos hstart]
      omega
  | mark hmark =>
      cases rest with
      | nil => simp [Shape.reach, hmark]
      | cons d rest =>
        simp only [List.cons_append, List.nil_append, Shape.reach, hmark]
        split <;> simp
  | doubleMark hmark => simp [Shape.reach, hmark]

/-! ## The longest match -/

/-- The slice is a text of the shape at the start of the text, and no text of any shape there is
longer. -/
structure Longest (text : List Char) (shape : Shape) (slice : List Char) : Prop where
  /-- It has the shape. -/
  isMatch : shape.Matches slice
  /-- The text begins with it. -/
  isStart : slice <+: text
  /-- Nothing longer would do. -/
  longest : ∀ (other : Shape) longer, other.Matches longer → longer <+: text →
    longer.length ≤ slice.length

/-- The characters that the texts of a shape begin with. -/
def Shape.begins : Shape → Char → Bool
  | .blank, c => isGap c
  | .comment, c => c == '/'
  | .digits, c => c.isDigit
  | .literal, c => c == '"'
  | .name, c => isNameStart c
  | .mark, c => isMark c

theorem Shape.mem_all (shape : Shape) : shape ∈ Shape.all := by
  cases shape <;> decide

theorem Shape.Matches.exists_cons {shape : Shape} {slice : List Char} (h : shape.Matches slice) :
    ∃ c cs, slice = c :: cs ∧ shape.begins c = true := by
  cases h with
  | blank hgap => exact ⟨_, _, rfl, hgap _ List.mem_cons_self⟩
  | comment => exact ⟨_, _, rfl, rfl⟩
  | digits hdigits => exact ⟨_, _, rfl, hdigits _ List.mem_cons_self⟩
  | literal => exact ⟨_, _, rfl, rfl⟩
  | name hstart => exact ⟨_, _, rfl, hstart⟩
  | mark hmark => exact ⟨_, _, rfl, hmark⟩
  | doubleMark hmark => exact ⟨_, _, rfl, isMark_of_isDoubleMark hmark⟩

theorem isGap_cases {c : Char} (h : isGap c = true) :
    c = ' ' ∨ c = '\t' ∨ c = '\r' ∨ c = '\n' ∨ c = '\x0c' := by
  simpa [isGap, or_assoc] using h

/-- The gaps, the quote and the marks. -/
def signs : List Char := " \t\r\n\x0c\"!#$%&'()*+,-./:;<=>?@[\\]^`\x7b|\x7d~".toList

/-- A text that is neither a number nor a name begins with a sign. -/
theorem mem_signs {c : Char} {shape : Shape} (h : shape.begins c = true)
    (hshape : shape ≠ .digits ∧ shape ≠ .name) : c ∈ signs := by
  cases shape with
  | blank =>
      rcases isGap_cases h with rfl | rfl | rfl | rfl | rfl <;> decide
  | comment =>
      rw [eq_of_beq h]
      decide
  | literal =>
      rw [eq_of_beq h]
      decide
  | mark =>
      have hmarks : "!#$%&'()*+,-./:;<=>?@[\\]^`\x7b|\x7d~".toList.all signs.contains = true := by
        decide
      exact List.contains_iff_mem.1 (List.all_eq_true.1 hmarks c (List.contains_iff_mem.1 h))
  | digits => exact absurd rfl hshape.1
  | name => exact absurd rfl hshape.2

/-- Only a slash begins texts of two shapes, a comment and a mark. -/
theorem eq_of_begins {c : Char} {shape other : Shape} (h : shape.begins c = true)
    (ho : other.begins c = true) : shape = other ∨ c = '/' := by
  have htable : signs.all (fun c => ∀ shape ∈ Shape.all, ∀ other ∈ Shape.all,
      shape.begins c = true → other.begins c = true → shape = other ∨ c = '/') = true := by decide
  have hsigns := fun c hc => of_decide_eq_true (List.all_eq_true.1 htable c hc)
  by_cases hc : c ∈ signs
  · exact hsigns c hc shape shape.mem_all other other.mem_all h ho
  · cases shape with
    | digits =>
      cases other with
      | digits => exact .inl rfl
      | name => simp [Shape.begins, isNameStart_of_isDigit h] at ho
      | blank | comment | literal | mark => exact absurd (mem_signs ho (by decide)) hc
    | name =>
      cases other with
      | digits => simp [Shape.begins, isNameStart_of_isDigit ho] at h
      | name => exact .inl rfl
      | blank | comment | literal | mark => exact absurd (mem_signs ho (by decide)) hc
    | blank | comment | literal | mark => exact absurd (mem_signs h (by decide)) hc

/-- A mark is not the beginning of a comment. -/
theorem Shape.Matches.not_slashes {slice : List Char} (h : Shape.mark.Matches slice)
    (rest : List Char) : slice ≠ '/' :: '/' :: rest := by
  rintro rfl
  cases h with
  | doubleMark hmark => exact absurd hmark (by decide)

theorem Shape.Matches.exists_note {slice : List Char} (h : Shape.comment.Matches slice) :
    ∃ note, slice = '/' :: '/' :: note := by
  cases h with
  | comment => exact ⟨_, rfl⟩

/-- A literal is the body of a text between quotes. -/
theorem Shape.Matches.exists_body {slice : List Char} (h : Shape.literal.Matches slice) :
    ∃ raw value, slice = '"' :: (raw ++ ['"']) ∧ LiteralBody raw value := by
  cases h with
  | literal hbody => exact ⟨_, _, rfl, hbody⟩

theorem begins_slash {shape : Shape} (h : shape.begins '/' = true) :
    shape = .comment ∨ shape = .mark := by
  cases shape with
  | comment => exact .inl rfl
  | mark => exact .inr rfl
  | blank | digits | literal | name => cases h

/-- Whether a slice of the shape ends where the character comes next. -/
def Shape.breaks : Shape → List Char → Char → Bool
  | .blank, _, d => !isGap d
  | .comment, _, d => d == '\n'
  | .digits, _, d => !d.isDigit
  | .literal, _, _ => true
  | .name, _, d => !isNamePart d
  | .mark, [c], d => !isDoubleMark c d && !(c == '/' && d == '/')
  | .mark, _, _ => true

/-- A character that breaks a slice cannot be in a longer one. -/
theorem not_longer_self {shape : Shape} {slice rest : List Char} {d : Char}
    (h : shape.Matches slice) (hd : shape.breaks slice d = true) :
    ¬shape.Matches (slice ++ d :: rest) := by
  intro hlonger
  have hmem : d ∈ slice ++ d :: rest := List.mem_append_right _ List.mem_cons_self
  cases h with
  | blank =>
      cases hlonger with
      | blank hgap => simp [Shape.breaks, hgap d hmem] at hd
  | comment =>
      cases hlonger with
      | comment hbreak =>
          have hd : d = '\n' := eq_of_beq hd
          exact hbreak (hd ▸ List.mem_append_right _ List.mem_cons_self)
  | digits =>
      cases hlonger with
      | digits hdigits => simp [Shape.breaks, hdigits d hmem] at hd
  | @literal short _ hbody =>
      obtain ⟨raw, value, hlong, hbody'⟩ := hlonger.exists_body
      have hrest : short ++ '"' :: d :: rest = raw ++ ['"'] := by simpa using hlong
      have hclosing := closing_of_body hbody (d :: rest)
      rw [hrest, closing_of_body hbody' []] at hclosing
      have hlength := congrArg List.length hrest
      simp only [Option.some.injEq, List.length_append, List.length_cons, List.length_nil] at *
      omega
  | name hstart =>
      cases hlonger with
      | name _ hparts =>
          simp [Shape.breaks, hparts d (List.mem_append_right _ List.mem_cons_self)] at hd
  | mark =>
      cases hlonger with
      | doubleMark hmark => simp [Shape.breaks, hmark] at hd
  | doubleMark =>
      cases hlonger

/-- A slice that cannot go on is not the beginning of a longer text of any shape. -/
theorem Shape.Matches.not_longer {shape other : Shape} {slice rest : List Char} {d : Char}
    (h : shape.Matches slice) (hd : shape.breaks slice d = true) :
    ¬other.Matches (slice ++ d :: rest) := by
  intro hother
  by_cases he : other = shape
  · exact not_longer_self h hd (he ▸ hother)
  obtain ⟨c, cs, rfl, hbegins⟩ := h.exists_cons
  obtain ⟨c', cs', hcs', hbegins'⟩ := hother.exists_cons
  obtain ⟨rfl, -⟩ := List.cons.inj hcs'
  obtain rfl : c = '/' := (eq_of_begins hbegins' hbegins).resolve_left he
  rcases begins_slash hbegins with rfl | rfl <;> rcases begins_slash hbegins' with rfl | rfl
  · exact he rfl
  · obtain ⟨note, hnote⟩ := h.exists_note
    rw [hnote] at hother
    exact hother.not_slashes _ rfl
  · obtain ⟨note, hnote⟩ := hother.exists_note
    cases h with
    | mark =>
        obtain ⟨rfl, -⟩ := List.cons.inj (List.cons.inj hnote).2
        exact absurd hd (by decide)
    | doubleMark hmark =>
        obtain ⟨rfl, -⟩ := List.cons.inj (List.cons.inj hnote).2
        exact absurd hmark (by decide)
  · exact he rfl

/-- A slice that cannot go on is the longest one. A longer one would go on with the character after
it. -/
theorem Shape.Matches.longest {shape : Shape} {slice rest : List Char} (h : shape.Matches slice)
    (hrest : ∀ d ∈ rest.head?, shape.breaks slice d = true) :
    Longest (slice ++ rest) shape slice := by
  refine ⟨h, List.prefix_append slice rest, fun other longer hother hstart => ?_⟩
  refine Nat.le_of_not_lt fun hlt => ?_
  obtain ⟨more, rfl⟩ := List.prefix_of_prefix_length_le (List.prefix_append slice rest) hstart
    (Nat.le_of_lt hlt)
  cases more with
  | nil => simp at hlt
  | cons d more =>
      obtain ⟨rest', rfl⟩ := (List.prefix_append_right_inj slice).1 hstart
      exact h.not_longer (hrest d rfl) hother

/-! ## The furthest shape -/

theorem le_foldl_further (cuts : List (Shape × Nat)) (best : Shape × Nat) :
    best.2 ≤ (cuts.foldl further best).2 ∧
      ∀ cut ∈ cuts, cut.2 ≤ (cuts.foldl further best).2 := by
  induction cuts generalizing best with
  | nil => exact ⟨Nat.le_refl _, by simp⟩
  | cons cut cuts ih =>
      rw [List.foldl_cons, List.forall_mem_cons]
      obtain ⟨hbest, hcuts⟩ := ih (further best cut)
      have hfurther : best.2 ≤ (further best cut).2 ∧ cut.2 ≤ (further best cut).2 := by
        unfold further
        split <;> omega
      exact ⟨Nat.le_trans hfurther.1 hbest, Nat.le_trans hfurther.2 hbest, hcuts⟩

/-- No shape reaches farther than the cut. -/
theorem Shape.reach_le_furthest (shape : Shape) (cs : List Char) :
    shape.reach cs ≤ (furthest cs).2 := by
  have hmem : (shape, shape.reach cs) ∈ Shape.all.map fun shape => (shape, shape.reach cs) :=
    List.mem_map.2 ⟨shape, shape.mem_all, rfl⟩
  exact (le_foldl_further _ _).2 _ hmem

/-- No text of any shape at the start goes further than the furthest shape. -/
theorem Shape.Matches.length_le_furthest {shape : Shape} {slice cs : List Char}
    (h : shape.Matches slice) (hstart : slice <+: cs) : slice.length ≤ (furthest cs).2 := by
  obtain ⟨rest, rfl⟩ := hstart
  exact Nat.le_trans (h.length_le_reach rest) (shape.reach_le_furthest _)

/-- The furthest shape gives the longest match. -/
theorem longest_of_furthest {cs : List Char} {shape : Shape} {n : Nat}
    (h : furthest cs = (shape, n + 1)) : Longest cs shape (cs.take (n + 1)) := by
  refine ⟨Shape.matches_of_reach (reach_of_furthest h), List.take_prefix _ _, ?_⟩
  intro other longer hother hstart
  have hle := hother.length_le_furthest hstart
  rw [h] at hle
  rw [List.length_take]
  exact Nat.le_min.2 ⟨hle, hstart.length_le⟩

/-- A text has one shape at most. -/
theorem Shape.Matches.shape_eq {shape other : Shape} {slice : List Char} (h : shape.Matches slice)
    (ho : other.Matches slice) : shape = other := by
  obtain ⟨c, cs, rfl, hbegins⟩ := h.exists_cons
  obtain ⟨_, _, hcs, hbegins'⟩ := ho.exists_cons
  obtain ⟨rfl, rfl⟩ := List.cons.inj hcs
  rcases eq_of_begins hbegins hbegins' with he | rfl
  · exact he
  rcases begins_slash hbegins with rfl | rfl <;> rcases begins_slash hbegins' with rfl | rfl
  · rfl
  · obtain ⟨note, hnote⟩ := h.exists_note
    exact absurd hnote (ho.not_slashes note)
  · obtain ⟨note, hnote⟩ := ho.exists_note
    exact absurd hnote (h.not_slashes note)
  · rfl

/-- There is one longest match at most. -/
theorem Longest.unique {text slice slice' : List Char} {shape shape' : Shape}
    (h : Longest text shape slice) (h' : Longest text shape' slice') :
    shape = shape' ∧ slice = slice' := by
  have hlength : slice.length = slice'.length :=
    Nat.le_antisymm (h'.longest shape slice h.isMatch h.isStart)
      (h.longest shape' slice' h'.isMatch h'.isStart)
  have hstart : slice <+: slice' :=
    List.prefix_of_prefix_length_le h.isStart h'.isStart (Nat.le_of_eq hlength)
  obtain rfl := hstart.eq_of_length hlength
  exact ⟨h.isMatch.shape_eq h'.isMatch, rfl⟩

/-- The longest match is what the furthest shape gives. -/
theorem Longest.exists_furthest {slice rest : List Char} {shape : Shape}
    (h : Longest (slice ++ rest) shape slice) :
    ∃ n, furthest (slice ++ rest) = (shape, n + 1) ∧ (slice ++ rest).take (n + 1) = slice ∧
      (slice ++ rest).drop (n + 1) = rest := by
  have hle := h.isMatch.length_le_furthest h.isStart
  rcases hf : furthest (slice ++ rest) with ⟨shape', n⟩
  rw [hf] at hle
  cases n with
  | zero =>
      obtain ⟨c, cs, rfl, -⟩ := h.isMatch.exists_cons
      cases hle
  | succ n =>
      obtain ⟨rfl, hslice⟩ := h.unique (longest_of_furthest hf)
      have hdrop := List.take_append_drop (n + 1) (slice ++ rest)
      rw [← hslice] at hdrop
      exact ⟨n, rfl, hslice.symm, List.append_cancel_left hdrop⟩

/-! ## Tokens of slices -/

/-- The token that a slice stands for. -/
inductive Shape.Denotes : Shape → List Char → Kind → Prop
  | digits {slice : List Char} {value : Int64} (h : value.toInt = Text.digitsValue slice) :
      Denotes .digits slice (.number value)
  | literal {raw value : List Char} (h : LiteralBody raw value) :
      Denotes .literal ('"' :: (raw ++ ['"'])) (.string (String.ofList value))
  | name {slice : List Char} : Denotes .name slice (.word (String.ofList slice))
  | mark {slice : List Char} : Denotes .mark slice (.word (String.ofList slice))

theorem Shape.Denotes.piece_eq {shape : Shape} {slice : List Char} {kind : Kind}
    (h : shape.Denotes slice kind) : shape.piece slice = .kept kind := by
  cases h with
  | @digits slice value h =>
      have hlt : Text.digitsValue slice < numberLimit := by
        have := value.toInt_lt
        simp only [numberLimit]
        omega
      have hvalue : Int64.ofNat (Text.digitsValue slice) = value := by
        rw [← Int64.toInt_inj, Int64.toInt_ofNat_of_lt hlt, h]
      rw [Shape.piece, if_pos hlt, hvalue]
  | literal h =>
      rw [Shape.piece, List.drop_succ_cons, List.drop_zero, List.dropLast_concat,
        unescape_of_body h]
  | name => rfl
  | mark => rfl

/-! ## Scanning a slice -/

theorem not_longest_nil {shape : Shape} {slice : List Char} : ¬Longest [] shape slice := by
  intro h
  obtain ⟨c, cs, rfl, -⟩ := h.isMatch.exists_cons
  exact absurd (List.prefix_nil.1 h.isStart) (by simp)

theorem Longest.append_ne_nil {slice rest : List Char} {shape : Shape}
    (h : Longest (slice ++ rest) shape slice) : slice ++ rest ≠ [] := by
  intro hnil
  rw [hnil] at h
  exact not_longest_nil h

theorem Longest.scan_skipped {slice rest : List Char} {shape : Shape}
    (h : Longest (slice ++ rest) shape slice) (hpiece : shape.piece slice = .skipped)
    (line : Nat) : scan line (slice ++ rest) = scan line rest := by
  obtain ⟨n, hf, htake, hdrop⟩ := h.exists_furthest
  rw [scan_of_skipped line h.append_ne_nil hf (by rw [htake, hpiece]), hdrop]

/-- The longest slice is cut off first, and the token that it denotes is kept. -/
theorem Longest.scan_kept {slice rest : List Char} {shape : Shape} {kind : Kind}
    (h : Longest (slice ++ rest) shape slice) (hkind : shape.Denotes slice kind) (line : Nat) :
    scan line (slice ++ rest) = (scan line rest).map (⟨kind, line⟩ :: ·) := by
  obtain ⟨n, hf, htake, hdrop⟩ := h.exists_furthest
  rw [scan_of_kept line h.append_ne_nil hf (by rw [htake, hkind.piece_eq]), hdrop]

end Token

end TreeScript
