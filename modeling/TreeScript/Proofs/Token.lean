import TreeScript.Token.Scanner

/-!
# Tokens of a scanned line

A token of a line comes from one piece of it, cut off with the shape that goes furthest
there. So what holds of every such piece holds of every token (`forall_mem_of_scan`), and
a line has no more tokens than characters. A word is never the text that names the end of
a line (`Plain`), a name is made of the characters of names, and a number has no sign
(`Legible`).
-/

namespace TreeScript

namespace Token

/-! ## The furthest shape -/

/-- The furthest cut is one of those that were tried. -/
theorem foldl_further_mem (cuts : List (Shape × Nat)) :
    ∀ best, cuts.foldl further best = best ∨ cuts.foldl further best ∈ cuts := by
  induction cuts with
  | nil => exact fun best => .inl rfl
  | cons cut cuts ih =>
      intro best
      rw [List.foldl_cons]
      have hf : further best cut = best ∨ further best cut = cut := by
        unfold further
        split
        · exact .inr rfl
        · exact .inl rfl
      rcases ih (further best cut) with h | h
      · rw [h]
        rcases hf with hf | hf
        · exact .inl hf
        · exact .inr (by rw [hf]; exact List.mem_cons_self)
      · exact .inr (List.mem_cons_of_mem _ h)

/-- A cut that takes something goes as far as its shape reaches. -/
theorem reach_of_furthest {cs : List Char} {shape : Shape} {n : Nat}
    (h : furthest cs = (shape, n + 1)) : shape.reach cs = n + 1 := by
  unfold furthest at h
  rcases foldl_further_mem (Shape.all.map fun shape => (shape, shape.reach cs)) (.blank, 0) with
    hb | hm
  · rw [h] at hb
    simp at hb
  · rw [h, List.mem_map] at hm
    obtain ⟨shape', -, he⟩ := hm
    obtain ⟨rfl, hr⟩ := Prod.mk.inj he
    exact hr

theorem foldl_further_of_le {cuts : List (Shape × Nat)} {best : Shape × Nat}
    (h : ∀ cut ∈ cuts, cut.2 ≤ best.2) : cuts.foldl further best = best := by
  induction cuts with
  | nil => rfl
  | cons cut cuts ih =>
      obtain ⟨hcut, hcuts⟩ := List.forall_mem_cons.1 h
      rw [List.foldl_cons, further, if_neg (Nat.not_lt.2 hcut)]
      exact ih hcuts

/-- A cut that goes further than all others is taken. -/
theorem foldl_further_of_lt {cuts : List (Shape × Nat)} {best cut : Shape × Nat}
    (hmem : cut ∈ cuts) (hbest : best.2 < cut.2)
    (h : ∀ other ∈ cuts, other = cut ∨ other.2 < cut.2) : cuts.foldl further best = cut := by
  induction cuts generalizing best with
  | nil => cases hmem
  | cons first cuts ih =>
      obtain ⟨hfirst, hcuts⟩ := List.forall_mem_cons.1 h
      rw [List.foldl_cons]
      rcases hfirst with rfl | hlt
      · rw [further, if_pos hbest]
        refine foldl_further_of_le fun other hother => ?_
        rcases hcuts other hother with rfl | hlt
        · exact Nat.le_refl _
        · exact Nat.le_of_lt hlt
      · have hne : cut ≠ first := fun he => Nat.lt_irrefl _ (he ▸ hlt)
        refine ih (List.mem_of_ne_of_mem hne hmem) ?_ hcuts
        rw [further]
        split
        · exact hlt
        · exact hbest

/-- The shape that reaches farther than all others makes the cut. -/
theorem furthest_of_lt {cs : List Char} {shape : Shape} {n : Nat} (h : shape.reach cs = n)
    (hn : 0 < n) (hothers : ∀ other, other ≠ shape → other.reach cs < n) :
    furthest cs = (shape, n) := by
  subst h
  have hall : ∀ shape, shape ∈ Shape.all := by
    intro shape
    cases shape <;> decide
  refine foldl_further_of_lt (List.mem_map.2 ⟨shape, hall shape, rfl⟩) hn fun cut hmem => ?_
  obtain ⟨other, -, rfl⟩ := List.mem_map.1 hmem
  by_cases he : other = shape
  · exact .inl (by rw [he])
  · exact .inr (hothers other he)

/-! ## Blanks and comments -/

/-- A gap is cut off as a whole. -/
theorem furthest_gap {c : Char} (h : isGap c = true) (cs : List Char) :
    furthest (c :: cs) = (.blank, ((c :: cs).takeWhile isGap).length) := by
  have hc : c = ' ' ∨ c = '\t' ∨ c = '\r' ∨ c = '\n' ∨ c = '\x0c' := by
    simpa [isGap, or_assoc] using h
  have hpos : 0 < ((c :: cs).takeWhile isGap).length := by
    rw [List.takeWhile_cons_of_pos h, List.length_cons]
    exact Nat.succ_pos _
  refine furthest_of_lt rfl hpos fun other hne => ?_
  have hzero : other.reach (c :: cs) = 0 := by
    cases other with
    | blank => exact absurd rfl hne
    | mark => cases cs <;> rcases hc with rfl | rfl | rfl | rfl | rfl <;> rfl
    | comment | digits | literal | name => rcases hc with rfl | rfl | rfl | rfl | rfl <;> rfl
  rw [hzero]
  exact hpos

/-- A gap is skipped as a whole. -/
theorem scan_gap (line : Nat) {gap rest : List Char} (hgap : ∀ c ∈ gap, isGap c = true)
    (hrest : rest.takeWhile isGap = []) : scan line (gap ++ rest) = scan line rest := by
  cases gap with
  | nil => rfl
  | cons c gap =>
      have hreach : ((c :: gap ++ rest).takeWhile isGap).length = gap.length + 1 := by
        rw [List.takeWhile_append_of_pos hgap, hrest, List.append_nil, List.length_cons]
      have hcut := furthest_gap (hgap c List.mem_cons_self) (gap ++ rest)
      rw [← List.cons_append, hreach] at hcut
      rw [scan_of_skipped line (by simp) hcut rfl, List.cons_append, List.drop_succ_cons,
        List.drop_left]

/-- A gap at the start does not count, whatever comes after it. -/
theorem scan_gap_append (line : Nat) {gap : List Char} (hgap : ∀ c ∈ gap, isGap c = true)
    (rest : List Char) : scan line (gap ++ rest) = scan line rest := by
  have hmore : ∀ c ∈ rest.takeWhile isGap, isGap c = true := List.all_eq_true.1 List.all_takeWhile
  have hstop : (rest.dropWhile isGap).takeWhile isGap = [] := by
    cases hrest : rest.dropWhile isGap with
    | nil => rfl
    | cons c cs =>
        have hc := List.head?_dropWhile_not isGap rest
        rw [hrest] at hc
        exact List.takeWhile_cons_of_neg (by simpa using hc)
  have hcut := List.takeWhile_append_dropWhile (p := isGap) (l := rest)
  calc scan line (gap ++ rest)
    _ = scan line (gap ++ rest.takeWhile isGap ++ rest.dropWhile isGap) := by
        rw [List.append_assoc, hcut]
    _ = scan line (rest.dropWhile isGap) :=
        scan_gap line (List.forall_mem_append.2 ⟨hgap, hmore⟩) hstop
    _ = scan line (rest.takeWhile isGap ++ rest.dropWhile isGap) :=
        (scan_gap line hmore hstop).symm
    _ = scan line rest := by rw [hcut]

/-- A line of nothing but gaps has no tokens. -/
theorem scan_of_isGap (line : Nat) {gap : List Char} (hgap : ∀ c ∈ gap, isGap c = true) :
    scan line gap = .ok [] := by
  have hscan : scan line (gap ++ []) = scan line [] := scan_gap line hgap rfl
  rwa [List.append_nil, scan_nil] at hscan

/-- A comment is cut off up to the end of the line. -/
theorem furthest_comment (cs : List Char) :
    furthest ('/' :: '/' :: cs) = (.comment, 2 + (cs.takeWhile (· != '\n')).length) := by
  refine furthest_of_lt rfl (by omega) fun other hne => ?_
  cases other with
  | comment => exact absurd rfl hne
  | mark => show 1 < _; omega
  | blank | digits | literal | name => show 0 < _; omega

/-- A comment is skipped up to the end of its line. -/
theorem scan_comment (line : Nat) {note : List Char} (hnote : '\n' ∉ note) (rest : List Char) :
    scan line ('/' :: '/' :: note ++ '\n' :: rest) = scan line ('\n' :: rest) := by
  have hreach : (note ++ '\n' :: rest).takeWhile (· != '\n') = note := by
    rw [List.takeWhile_append_of_pos, List.takeWhile_cons_of_neg (by simp), List.append_nil]
    intro c hmem
    exact bne_iff_ne.2 fun he => hnote (he ▸ hmem)
  have hcut := furthest_comment (note ++ '\n' :: rest)
  rw [hreach, Nat.add_comm] at hcut
  show scan line ('/' :: '/' :: (note ++ '\n' :: rest)) = _
  rw [scan_of_skipped line (by simp) hcut rfl, List.drop_succ_cons, List.drop_succ_cons,
    List.drop_left]

/-! ## Pieces -/

/-- What holds of every piece that is kept holds of every token. -/
theorem forall_mem_of_scan {P : Token → Prop} (line : Nat)
    (kept : ∀ cs shape n kind, furthest cs = (shape, n + 1) →
      shape.piece (cs.take (n + 1)) = .kept kind → P ⟨kind, line⟩) (cs : List Char) :
    ∀ tokens, scan line cs = .ok tokens → ∀ token ∈ tokens, P token := by
  fun_induction scan line cs with
  | case1 => simp
  | case2 => simp
  | case3 c cs shape n hf hp ih => exact ih
  | case4 => simp
  | case5 c cs shape n hf kind hp ih =>
      intro tokens h
      cases hs : scan line ((c :: cs).drop (n + 1)) with
      | error fault =>
          simp only [hs, Except.map] at h
          cases h
      | ok rest =>
          simp only [hs, Except.map, Except.ok.injEq] at h
          subst h
          intro token ht
          rcases List.mem_cons.1 ht with rfl | ht
          · exact kept _ shape n kind hf hp
          · exact ih rest hs token ht

/-- A line has no more tokens than characters. -/
theorem length_le_of_scan (line : Nat) (cs : List Char) :
    ∀ tokens, scan line cs = .ok tokens → tokens.length ≤ cs.length := by
  fun_induction scan line cs with
  | case1 => simp
  | case2 => simp
  | case3 c cs shape n hf hp ih =>
      intro tokens h
      have := ih tokens h
      simp only [List.length_drop, List.length_cons] at this ⊢
      omega
  | case4 => simp
  | case5 c cs shape n hf kind hp ih =>
      intro tokens h
      cases hs : scan line ((c :: cs).drop (n + 1)) with
      | error fault =>
          simp only [hs, Except.map] at h
          cases h
      | ok rest =>
          simp only [hs, Except.map, Except.ok.injEq] at h
          subst h
          have := ih rest hs
          simp only [List.length_drop, List.length_cons] at this ⊢
          omega

theorem length_le_utf8ByteSize (cs : List Char) :
    cs.length ≤ (String.ofList cs).utf8ByteSize := by
  induction cs with
  | nil => simp
  | cons c cs ih =>
      rw [← List.singleton_append, String.ofList_append, String.utf8ByteSize_append,
        List.length_append]
      have hpos := c.utf8Size_pos
      have hc : (String.ofList [c]).utf8ByteSize = c.utf8Size := by
        rw [← String.utf8ByteSize_singleton]
        rfl
      simp only [List.length_singleton]
      omega

/-- A line has no more tokens than bytes. -/
theorem length_le_of_tokenize {content : String} {line : Nat} {tokens : List Token}
    (h : tokenize content line = .ok tokens) : tokens.length ≤ content.utf8ByteSize := by
  have h₁ := length_le_of_scan line content.toList tokens h
  have h₂ := length_le_utf8ByteSize content.toList
  rw [String.ofList_toList] at h₂
  omega

/-! ## Words -/

/-- The token cannot be taken for the end of a line, unless it is that, or of the source. -/
structure Plain (token : Token) : Prop where
  /-- It is not a word with the text of the end of a line. -/
  ne_endOfLineText : token.kind ≠ .word endOfLineText
  /-- It is not the end of the source. -/
  ne_endOfFile : token.kind ≠ .endOfFile

theorem Plain.isEndOfFile_eq {token : Token} (h : token.Plain) : token.isEndOfFile = false := by
  obtain ⟨kind, line⟩ := token
  cases kind with
  | endOfFile => exact absurd rfl h.ne_endOfFile
  | word text => rfl
  | number value => rfl
  | string value => rfl
  | endOfLine => rfl

theorem append_drop_of_ofList_take {cs : List Char} {n : Nat}
    (h : String.ofList (cs.take n) = endOfLineText) : cs = '\\' :: 'n' :: cs.drop n := by
  have ht : cs.take n = ['\\', 'n'] := by
    rw [← String.toList_ofList (l := cs.take n), h]
    rfl
  calc cs = cs.take n ++ cs.drop n := (List.take_append_drop n cs).symm
    _ = _ := by rw [ht]; rfl

/-- Every token of a line is plain, since a backslash is a mark of its own. -/
theorem plain_of_tokenize {content : String} {line : Nat} {tokens : List Token}
    (h : tokenize content line = .ok tokens) : ∀ token ∈ tokens, token.Plain := by
  refine forall_mem_of_scan line ?_ content.toList tokens h
  intro cs shape n kind hf hp
  have hr := reach_of_furthest hf
  cases shape with
  | blank => cases hp
  | comment => cases hp
  | digits =>
      simp only [Shape.piece] at hp
      split at hp <;> cases hp
      exact ⟨by simp, by simp⟩
  | literal =>
      cases hp
      exact ⟨by simp, by simp⟩
  | name =>
      cases hp
      refine ⟨fun hk => ?_, by simp⟩
      rw [append_drop_of_ofList_take (Kind.word.inj hk)] at hr
      simp [Shape.reach, isNameStart] at hr
  | mark =>
      cases hp
      refine ⟨fun hk => ?_, by simp⟩
      have hcs := append_drop_of_ofList_take (Kind.word.inj hk)
      rw [hcs] at hr
      have hn : n = 0 := by simpa [Shape.reach, isDoubleMark, isMark] using hr.symm
      have ht := Kind.word.inj hk
      rw [hn, hcs, List.take_succ_cons, List.take_zero] at ht
      exact absurd ht (by decide)

/-- The text of the token shows what it is: a name is made of the characters of names, and a number
has no sign. -/
structure Legible (token : Token) : Prop where
  /-- All characters of a name are such that a name goes on with them. -/
  name : token.isName = true → ∀ c ∈ token.toText.toList, isNamePart c = true
  /-- A number is not negative. -/
  number : ∀ value, token.kind = .number value → 0 ≤ value.toInt

theorem isNameStart_of_isMark : ∀ c ∈ "!#$%&'()*+,-./:;<=>?@[\\]^`\x7b|\x7d~".toList,
    isNameStart c = false := by
  have hall : "!#$%&'()*+,-./:;<=>?@[\\]^`\x7b|\x7d~".toList.all (!isNameStart ·) = true := by
    decide
  simpa using hall

theorem isNameStart_of_isDigit {c : Char} (h : c.isDigit = true) : isNameStart c = false := by
  by_cases hc : c = '_'
  · subst hc
    exact absurd h (by decide)
  · have hdigit : (c.val ≥ 48 && c.val ≤ 57) = true := h
    have hupper : c.isUpper = decide (c.val ≥ 65 ∧ c.val ≤ 90) := rfl
    have hlower : c.isLower = (c.val ≥ 97 && c.val ≤ 122) := rfl
    have halpha : c.isAlpha = (c.isUpper || c.isLower) := rfl
    rw [isNameStart, halpha, hupper, hlower]
    grind

theorem isMark_of_isDoubleMark {c d : Char} (h : isDoubleMark c d = true) : isMark c = true := by
  have hall : ∀ pair ∈ [('=', '='), ('<', '='), ('>', '='), ('&', '&'), ('|', '|')],
      isMark pair.1 = true := by decide
  exact hall (c, d) (List.contains_iff_mem.1 h)

/-- A mark does not begin like a name. -/
theorem isNameStart_of_reach_mark {c : Char} {cs : List Char} {n : Nat}
    (h : Shape.mark.reach (c :: cs) = n + 1) : isNameStart c = false := by
  have hmark : isMark c = true := by
    cases cs with
    | nil =>
        simp only [Shape.reach] at h
        split at h
        · assumption
        · cases h
    | cons d cs =>
        simp only [Shape.reach] at h
        split at h
        · exact isMark_of_isDoubleMark ‹_›
        · split at h
          · assumption
          · cases h
  exact isNameStart_of_isMark c (List.contains_iff_mem.1 hmark)

/-- Every token of a line is legible. -/
theorem legible_of_tokenize {content : String} {line : Nat} {tokens : List Token}
    (h : tokenize content line = .ok tokens) : ∀ token ∈ tokens, token.Legible := by
  refine forall_mem_of_scan line ?_ content.toList tokens h
  intro cs shape n kind hf hp
  have hr := reach_of_furthest hf
  cases shape with
  | blank => cases hp
  | comment => cases hp
  | digits =>
      simp only [Shape.piece] at hp
      split at hp <;> cases hp
      refine ⟨fun hn => (by cases hn), fun value hv => ?_⟩
      cases hv
      rw [Int64.toInt_ofNat_of_lt ‹_›]
      exact Int.natCast_nonneg _
  | literal =>
      cases hp
      exact ⟨fun hn => (by cases hn), fun _ hv => (by cases hv)⟩
  | name =>
      cases hp
      refine ⟨fun _ d hd => ?_, fun _ hv => (by cases hv)⟩
      rw [toText, Kind.toText, String.toList_ofList] at hd
      cases cs with
      | nil => cases hd
      | cons c cs =>
          simp only [Shape.reach] at hr
          split at hr
          · next hstart =>
              have hn : n = (cs.takeWhile isNamePart).length := by omega
              rw [List.take_succ_cons, hn,
                ← List.prefix_iff_eq_take.1 (List.takeWhile_prefix isNamePart)] at hd
              rcases List.mem_cons.1 hd with rfl | hd
              · exact Bool.or_eq_true_iff.2 (.inl hstart)
              · exact List.all_eq_true.1 List.all_takeWhile d hd
          · cases hr
  | mark =>
      cases hp
      refine ⟨fun hn => ?_, fun _ hv => (by cases hv)⟩
      cases cs with
      | nil => cases hr
      | cons c cs =>
          have hstart : isNameStart c = true := by simpa [isName] using hn
          rw [isNameStart_of_reach_mark hr] at hstart
          cases hstart

end Token

end TreeScript
