import Mathlib.Data.List.Chain
import TreeScript.Proofs.Source
import TreeScript.Proofs.Token.Munch
import TreeScript.Proofs.TokenStream

/-!
# Where a token stands in the text

A token does not know where it was spelled, only on which line. But the tokens before it do tell: it
stands where the text has given just these (`Placed`). The text up to there is a number of whole
lines, and then the beginning of a line that scans as the tokens before it on that line. A slice is
the longest match, so it does not change if the text is cut off behind it (`Cuts.take`), and the
beginning of the line scans by itself.

So the line of a token is one more than the number of line breaks before it (`exists_placed`). And a
token that does not end a line is followed by one on its line (`isChain_sourceItems`).
-/

namespace TreeScript

/-! ## Whole lines -/

namespace Source

variable {α : Type} [DecidableEq α] {mark : α}

/-- A list is cut after its first mark, if it has one. -/
theorem cut_cases (mark : α) (xs : List α) :
    (mark ∉ xs ∧ (cut mark xs = [] ∨ cut mark xs = [xs])) ∨
      ∃ ys zs, mark ∉ ys ∧ xs = ys ++ mark :: zs ∧ cut mark xs = (ys ++ [mark]) :: cut mark zs := by
  by_cases hmem : mark ∈ xs
  · obtain ⟨ys, zs, hxs, hys⟩ := List.eq_append_cons_of_mem hmem
    subst hxs
    refine .inr ⟨ys, zs, hys, rfl, ?_⟩
    have hfirst : cut mark (ys ++ [mark]) = [[].reverse ++ ys ++ [mark]] := cutFrom_of_notMem hys []
    rw [cut_append_mark, hfirst]
    rfl
  · refine .inl ⟨hmem, ?_⟩
    have hjoin := cutFrom_append_of_notMem hmem [] []
    rw [List.append_nil, List.append_nil] at hjoin
    rw [cut, hjoin, cutFrom]
    cases hempty : xs.reverse.isEmpty with
    | true => exact .inl rfl
    | false => exact .inr (by simp)

/-- The list ends with its only mark. -/
def IsLine (mark : α) (line : List α) : Prop := ∃ ys, line = ys ++ [mark] ∧ mark ∉ ys

/-- Lines that have another one behind them end with a mark. No line has a mark before its end. -/
theorem isLine_of_cut {xs line : List α} {front back : List (List α)}
    (h : cut mark xs = front ++ line :: back) :
    (∀ other ∈ front, IsLine mark other) ∧ mark ∉ line.dropLast := by
  induction front generalizing xs with
  | nil =>
      refine ⟨nofun, ?_⟩
      cases cut_cases mark xs with
      | inl hnone =>
          obtain ⟨hxs, hcut | hcut⟩ := hnone
          · rw [h] at hcut
            cases hcut
          · rw [h] at hcut
            cases hcut
            exact fun hmem => hxs ((List.dropLast_sublist _).subset hmem)
      | inr hsome =>
          obtain ⟨ys, zs, hys, -, hcut⟩ := hsome
          rw [h] at hcut
          cases hcut
          rw [List.dropLast_concat]
          exact hys
  | cons first front ih =>
      cases cut_cases mark xs with
      | inl hnone =>
          obtain ⟨-, hcut | hcut⟩ := hnone
          · rw [h] at hcut
            cases hcut
          · rw [h] at hcut
            exact absurd hcut (by simp)
      | inr hsome =>
          obtain ⟨ys, zs, hys, -, hcut⟩ := hsome
          rw [h] at hcut
          obtain ⟨hfirst, hrest⟩ := List.cons_eq_cons.1 hcut
          obtain ⟨hfront, hline⟩ := ih hrest.symm
          exact ⟨List.forall_mem_cons.2 ⟨⟨ys, hfirst, hys⟩, hfront⟩, hline⟩

variable {lines : List (List α)}

/-- Whole lines are cut where they were put together. -/
theorem cut_flatten (h : ∀ line ∈ lines, IsLine mark line) : cut mark lines.flatten = lines := by
  induction lines with
  | nil => rfl
  | cons line lines ih =>
      obtain ⟨⟨ys, hline, hys⟩, hlines⟩ := List.forall_mem_cons.1 h
      have hfirst : cut mark (ys ++ [mark]) = [[].reverse ++ ys ++ [mark]] :=
        cutFrom_of_notMem hys []
      rw [hline, List.flatten_cons, List.append_assoc, List.singleton_append, cut_append_mark,
        hfirst, ih hlines]
      rfl

/-- Each line has one mark, at its end. -/
theorem count_flatten (h : ∀ line ∈ lines, IsLine mark line) :
    lines.flatten.count mark = lines.length := by
  induction lines with
  | nil => rfl
  | cons line lines ih =>
      obtain ⟨⟨ys, hline, hys⟩, hlines⟩ := List.forall_mem_cons.1 h
      rw [hline, List.flatten_cons, List.count_append, List.count_append,
        List.count_eq_zero_of_not_mem hys, ih hlines, List.count_singleton_self, List.length_cons]
      omega

omit [DecidableEq α] in
theorem getLast?_flatten (h : ∀ line ∈ lines, IsLine mark line) :
    lines.flatten = [] ∨ lines.flatten.getLast? = some mark := by
  cases List.eq_nil_or_concat lines with
  | inl hnil =>
      subst hnil
      exact .inl rfl
  | inr hlast =>
      obtain ⟨others, line, hlines⟩ := hlast
      subst hlines
      obtain ⟨ys, hline, -⟩ := h line (by simp)
      subst hline
      refine .inr ?_
      rw [List.concat_eq_append, List.flatten_concat, ← List.append_assoc, List.getLast?_concat]

end Source

/-! ## The beginning of a line -/

namespace Token

variable {text rest : List Char} {slices more : List (Shape × List Char)} {tokens : List Token}
  {line : Nat}

/-- The first slices are those of the text that they cover. -/
theorem Cuts.take (h : Cuts text (slices ++ more) rest) :
    ∃ behind, text = (slices.map Prod.snd).flatten ++ behind ∧ Cuts behind more rest ∧
      Cuts (slices.map Prod.snd).flatten slices [] := by
  induction slices generalizing text with
  | nil => exact ⟨text, rfl, h, .covered⟩
  | cons cut slices ih =>
      obtain ⟨shape, slice⟩ := cut
      cases h with
      | @slice _ _ text _ _ hslice hfits h =>
          obtain ⟨behind, htext, hbehind, hcuts⟩ := ih h
          subst htext
          refine ⟨behind, (List.append_assoc _ _ _).symm, hbehind, .slice ?_ hfits hcuts⟩
          refine ⟨hslice.isMatch, List.prefix_append _ _, ?_⟩
          intro other longer hother hstart
          apply hslice.longest other longer hother
          rw [← List.append_assoc]
          exact hstart.trans (List.prefix_append _ _)

/-- A text that is covered by slices scans as their tokens. -/
theorem Cuts.scan_of_yields (h : Cuts text slices rest) (hrest : rest = [])
    (hyields : Yields line slices tokens) : scan line text = .ok tokens := by
  induction h generalizing tokens with
  | covered =>
      cases hyields
      exact scan_nil line
  | stuck hstuck =>
      subst hrest
      exact absurd hstuck not_stuck_nil
  | @slice shape slice text rest slices hslice hfits _ ih =>
      cases hyields with
      | skipped hshape hyields =>
          have hpiece : shape.piece slice = .skipped := by
            cases hshape with
            | inl hshape => rw [hshape]; rfl
            | inr hshape => rw [hshape]; rfl
          rw [hslice.scan_skipped hpiece, ih hrest hyields]
      | kept hkind hyields =>
          rw [hslice.scan_kept hkind, ih hrest hyields]
          rfl

theorem Yields.append {slices' : List (Shape × List Char)} {tokens' : List Token}
    (h : Yields line slices tokens) (h' : Yields line slices' tokens') :
    Yields line (slices ++ slices') (tokens ++ tokens') := by
  induction h with
  | nil => exact h'
  | skipped hshape _ ih => exact .skipped hshape ih
  | kept hkind _ ih => exact .kept hkind ih

/-- A token is that of a slice, and the slices before it have the tokens before it. -/
theorem Yields.exists_slice {token : Token} {tokens' : List Token}
    (h : Yields line slices (tokens ++ token :: tokens')) :
    ∃ before shape slice after, slices = before ++ (shape, slice) :: after ∧
      Yields line before tokens ∧ shape.Denotes slice token.kind ∧ token.line = line := by
  generalize hall : tokens ++ token :: tokens' = all at h
  induction h generalizing tokens with
  | nil => exact absurd hall (by simp)
  | @skipped shape slice slices _ hshape _ ih =>
      obtain ⟨before, shape', slice', after, hslices, hyields, hkind, hline⟩ := ih hall
      subst hslices
      exact ⟨(shape, slice) :: before, shape', slice', after, rfl, .skipped hshape hyields, hkind,
        hline⟩
  | @kept shape slice kind slices _ hkept _ ih =>
      cases tokens with
      | nil =>
          obtain ⟨htoken, -⟩ := List.cons_eq_cons.1 hall
          subst htoken
          exact ⟨[], shape, slice, slices, rfl, .nil, hkept, rfl⟩
      | cons first tokens =>
          obtain ⟨hfirst, hrest⟩ := List.cons_eq_cons.1 hall
          subst hfirst
          obtain ⟨before, shape', slice', after, hslices, hyields, hkind, hline⟩ := ih hrest
          subst hslices
          exact ⟨(shape, slice) :: before, shape', slice', after, rfl, .kept hkept hyields, hkind,
            hline⟩

/-- In a line, a token is spelled behind a beginning of the line that scans as the tokens before
it. -/
theorem exists_spelled {content : List Char} {token : Token} {tokens' : List Token}
    (h : tokenize (String.ofList content) line = .ok (tokens ++ token :: tokens')) :
    ∃ start spelled behind shape, content = start ++ spelled ++ behind ∧ spelled ≠ [] ∧
      Shape.Denotes shape spelled token.kind ∧ token.line = line ∧
      tokenize (String.ofList start) line = .ok tokens ∧
      tokenize (String.ofList (start ++ spelled)) line = .ok (tokens ++ [token]) := by
  rw [tokenize, String.toList_ofList] at h
  obtain ⟨slices, rest, hcuts⟩ := exists_cuts content
  obtain ⟨hcovered, hstuck⟩ := hcuts.scan_eq line
  have hrest : rest = [] := by
    false_or_by_contra
    rename_i hrest
    rw [hstuck hrest] at h
    cases h
  obtain ⟨all, hyields, hscan⟩ := hcovered hrest
  rw [h] at hscan
  cases hscan
  obtain ⟨before, shape, spelled, after, hslices, hbefore, hkind, hline⟩ := hyields.exists_slice
  subst hslices
  obtain ⟨behind, hcontent, hbehind, hstart⟩ := hcuts.take
  have hspelled : spelled ≠ [] := by
    cases hbehind with
    | slice hslice =>
        obtain ⟨c, cs, hcons, -⟩ := hslice.isMatch.exists_cons
        rw [hcons]
        exact List.cons_ne_nil c cs
  rw [← List.singleton_append, ← List.append_assoc] at hcuts
  obtain ⟨behind', hcontent', -, hwhole⟩ := hcuts.take
  have hflatten : ((before ++ [(shape, spelled)]).map Prod.snd).flatten =
      (before.map Prod.snd).flatten ++ spelled := by simp
  rw [hflatten] at hcontent' hwhole
  have htoken : Yields line [(shape, spelled)] [token] := by
    have hmk : token = ⟨token.kind, line⟩ := by rw [← hline]
    rw [hmk]
    exact .kept hkind .nil
  refine ⟨_, spelled, behind', shape, hcontent', hspelled, hkind, hline, ?_, ?_⟩
  · rw [tokenize, String.toList_ofList]
    exact hstart.scan_of_yields rfl hbefore
  · rw [tokenize, String.toList_ofList]
    exact hwhole.scan_of_yields rfl (hbefore.append htoken)

end Token

/-! ## The items of a text -/

namespace TokenStream

variable {token : Token}

/-- An element of two lists in a row is one of the first, or all of the first come before it. -/
theorem append_cons_cases {α : Type} {xs ys before after : List α} {x : α}
    (h : xs ++ ys = before ++ x :: after) :
    (∃ others, xs = before ++ x :: others) ∨
      ∃ others, before = xs ++ others ∧ ys = others ++ x :: after := by
  cases List.append_eq_append_iff.1 h with
  | inl hbehind => exact .inr hbehind
  | inr hhere =>
      obtain ⟨others, hxs, hothers⟩ := hhere
      cases others with
      | nil =>
          rw [List.append_nil] at hxs
          exact .inr ⟨[], by rw [hxs, List.append_nil], hothers.symm⟩
      | cons y others =>
          obtain ⟨hy, -⟩ := List.cons_eq_cons.1 hothers
          subst hy
          exact .inl ⟨others, hxs⟩

/-- The source with the given lines. -/
def ofLines (lines : List (List Char)) : Source := lines.map fun line => .text (String.ofList line)

/-- What comes out of a line in front of a token that does not end it are tokens of the line. -/
theorem exists_of_lineItems {content : String} {number : Nat} {consumed rest : List Item}
    (htoken : token.isEndOfLine = false)
    (h : lineItems number (.text content) = consumed ++ .ok token :: rest) :
    ∃ tokens tokens', consumed = tokens.map .ok ∧
      Token.tokenize content (number + 1) = .ok (tokens ++ token :: tokens') := by
  rw [lineItems] at h
  cases hline : Token.tokenize content (number + 1) with
  | error fault =>
      rw [hline] at h
      cases consumed with
      | nil => cases h
      | cons first consumed => exact absurd h (by simp)
  | ok all =>
      simp only [hline] at h
      obtain ⟨tokens, behind, hall, hconsumed, hbehind⟩ := List.map_eq_append_iff.1 h
      obtain ⟨token', tokens', hcons, htoken', -⟩ := List.map_eq_cons_iff.1 hbehind
      cases htoken'
      subst hcons
      cases append_cons_cases hall with
      | inl hhere =>
          obtain ⟨tokens', hall⟩ := hhere
          exact ⟨tokens, tokens', hconsumed.symm, by rw [hall]⟩
      | inr hlast =>
          obtain ⟨others, -, hend⟩ := hlast
          have hmem : token ∈ [Token.mk .endOfLine (number + 1)] := by
            rw [hend]
            exact List.mem_append_right _ List.mem_cons_self
          rw [List.mem_singleton.1 hmem] at htoken
          cases htoken

/-- A token that ends no line is one of a line, and the items before it are those of the lines and
tokens before it. -/
theorem exists_line {lines : List (List Char)} {number : Nat} {consumed rest : List Item}
    (htoken : token.isEndOfLine = false)
    (h : sourceItems number (ofLines lines) = consumed ++ .ok token :: rest) :
    ∃ front line back tokens tokens', lines = front ++ line :: back ∧
      consumed = sourceItems number (ofLines front) ++ tokens.map .ok ∧
      Token.tokenize (String.ofList line) (number + front.length + 1) =
        .ok (tokens ++ token :: tokens') := by
  induction lines generalizing number consumed with
  | nil => exact absurd h (by simp [ofLines, sourceItems])
  | cons line lines ih =>
      have hitems : lineItems number (.text (String.ofList line)) ++
          sourceItems (number + 1) (ofLines lines) = consumed ++ .ok token :: rest := h
      cases append_cons_cases hitems with
      | inl hhere =>
          obtain ⟨others, hline⟩ := hhere
          obtain ⟨tokens, tokens', hconsumed, htokens⟩ := exists_of_lineItems htoken hline
          exact ⟨[], line, lines, tokens, tokens', rfl, hconsumed, htokens⟩
      | inr hbehind =>
          obtain ⟨others, hconsumed, hothers⟩ := hbehind
          obtain ⟨front, line', back, tokens, tokens', hlines, hfront, htokens⟩ := ih hothers
          subst hlines
          refine ⟨line :: front, line', back, tokens, tokens', rfl, ?_, ?_⟩
          · rw [hconsumed, hfront, ← List.append_assoc]
            rfl
          · rw [List.length_cons, ← htokens]
            congr 1
            omega

/-- The token is spelled in the text behind the given characters, and up to there the text has given
the items. The characters are whole lines and then the beginning of the line of the token. -/
inductive Placed (text : String) (token : Token) : List Item → List Char → Prop where
  | intro {lines start spelled behind : List Char} {tokens : List Token} {shape : Token.Shape}
      (htext : text.toList = lines ++ start ++ spelled ++ behind)
      (hlines : lines = [] ∨ lines.getLast? = some '\n') (hstart : '\n' ∉ start)
      (htokens : Token.tokenize (String.ofList start) token.line = .ok tokens)
      (hspelled : shape.Denotes spelled token.kind)
      (hwhole : Token.tokenize (String.ofList (start ++ spelled)) token.line =
        .ok (tokens ++ [token])) :
      Placed text token ((ofSource (.ofText (String.ofList lines))).items ++ tokens.map .ok)
        (lines ++ start)

/-- The line of a token is one more than the number of line breaks before it. -/
theorem exists_placed {text : String} {consumed rest : List Item}
    (htoken : token.isEndOfLine = false)
    (h : (ofSource (.ofText text)).items = consumed ++ .ok token :: rest) :
    ∃ before, Placed text token consumed before ∧ token.line = before.count '\n' + 1 := by
  rw [items_ofSource] at h
  obtain ⟨front, line, back, tokens, tokens', hlines, hconsumed, hline⟩ := exists_line htoken h
  obtain ⟨hfront, hlast⟩ := Source.isLine_of_cut hlines
  obtain ⟨start, spelled, behind, shape, hcontent, hne, hspelled, hnumber, hstart, hwhole⟩ :=
    Token.exists_spelled hline
  have htext : text.toList = front.flatten ++ start ++ spelled ++ (behind ++ back.flatten) := by
    have hflatten := Source.flatten_cut '\n' text.toList
    rw [hlines, List.flatten_append, List.flatten_cons, hcontent] at hflatten
    rw [← hflatten]
    simp only [List.append_assoc]
  have hbreak : '\n' ∉ start := by
    intro hmem
    apply hlast
    rw [hcontent, List.append_assoc, List.dropLast_append_of_ne_nil (by simp [hne])]
    exact List.mem_append_left _ hmem
  have hitems : consumed =
      (ofSource (.ofText (String.ofList front.flatten))).items ++ tokens.map .ok := by
    rw [items_ofSource, Source.ofText, String.toList_ofList, Source.cut_flatten hfront]
    exact hconsumed
  rw [← hnumber] at hstart hwhole
  refine ⟨front.flatten ++ start, ?_, ?_⟩
  · rw [hitems]
    exact .intro htext (Source.getLast?_flatten hfront) hbreak hstart hspelled hwhole
  · rw [hnumber, List.count_append, Source.count_flatten hfront,
      List.count_eq_zero_of_not_mem hbreak]
    omega

/-! ## Tokens on one line -/

/-- If the first item is a token that does not end its line, a token after it is on that line. -/
def SameLine (item next : Item) : Prop :=
  ∀ token token', item = .ok token → next = .ok token' → token.isEndOfLine = false →
    token'.line = token.line

theorem line_of_tokenize {content : String} {line : Nat} {tokens : List Token}
    (h : Token.tokenize content line = .ok tokens) : ∀ token ∈ tokens, token.line = line :=
  Token.forall_mem_of_scan line (fun _ _ _ _ _ _ => rfl) content.toList tokens h

/-- The tokens of a line have its number. -/
theorem line_of_mem_lineItems {number : Nat} {line : Line} {token : Token}
    (h : .ok token ∈ lineItems number line) : token.line = number + 1 := by
  cases line with
  | garbled => simp [lineItems] at h
  | text content =>
      rw [lineItems] at h
      cases hline : Token.tokenize content (number + 1) with
      | error fault => simp [hline] at h
      | ok tokens =>
          simp only [hline, List.mem_map, List.mem_append, List.mem_singleton] at h
          obtain ⟨_, hmem | hend, hok⟩ := h
          · cases hok
            exact line_of_tokenize hline token hmem
          · cases hok
            rw [hend]

theorem isChain_lineItems (number : Nat) (line : Line) :
    (lineItems number line).IsChain SameLine := by
  apply List.Pairwise.isChain
  apply List.pairwise_of_forall_mem_list
  intro first hfirst second hsecond token token' htoken htoken' _
  cases htoken
  cases htoken'
  rw [line_of_mem_lineItems hfirst, line_of_mem_lineItems hsecond]

/-- The line number changes only after the end of a line. -/
theorem isChain_sourceItems (source : Source) (number : Nat) :
    (sourceItems number source).IsChain SameLine := by
  induction source generalizing number with
  | nil => exact .nil
  | cons line source ih =>
      refine (isChain_lineItems number line).append (ih _) ?_
      intro item hlast next _ token token' hitem _ htoken
      subst hitem
      have hend := isEndOfLine_of_getLast_lineItems hlast
      rw [htoken] at hend
      cases hend

/-- Up to the end of a line all tokens are on one line. -/
theorem line_eq_of_isChain {first last : Token} {lead : List Token} {rest : List Item}
    (h : (.ok first :: (lead.map .ok ++ .ok last :: rest)).IsChain SameLine)
    (hfirst : first.isEndOfLine = false) (hlead : ∀ token ∈ lead, token.isEndOfLine = false) :
    last.line = first.line := by
  induction lead generalizing first with
  | nil => exact h.rel first last rfl rfl hfirst
  | cons second lead ih =>
      obtain ⟨hsecond, hlead⟩ := List.forall_mem_cons.1 hlead
      rw [ih h.tail hsecond hlead]
      exact h.rel first second rfl rfl hfirst

end TokenStream

end TreeScript
