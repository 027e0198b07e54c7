import TreeScript.Proofs.Grammar.FirstUnfit
import TreeScript.Proofs.Language.Viable
import TreeScript.Proofs.Token.Spelling

/-!
# The earliest token

A syntax error is reported at the earliest token (`syntax_error_earliest`). What comes before the
token can be completed to a statement, with tokens that can be written on a line. With the token it
cannot: whatever follows, the error is the same.

The second part holds for every rule of every grammar, since a rule that stops at a token has not
looked further. The first part is about the rules of the full language: with a fault in place of the
token, the rule of a program meets the fault, so it wants for a token, and what it has read can be
completed.
-/

namespace TreeScript

namespace Language

open Grammar TreeScript.Derivation TokenStream

/-! ## Fillers on a line -/

/-- Each filler can be written. -/
theorem exists_spelled {kind : Token.Kind} (h : kind ∈ fillers) : ∃ cs, Token.Spelled kind cs := by
  simp only [fillers, List.mem_cons, List.not_mem_nil, or_false] at h
  rcases h with rfl | rfl | rfl | rfl | rfl | rfl | rfl | rfl | rfl | rfl
  · exact ⟨_, .number (by decide) 0⟩
  · exact ⟨"x".toList, .name (by decide) (List.all_eq_true.1 (by decide))⟩
  · exact ⟨"while".toList, .name (by decide) (List.all_eq_true.1 (by decide))⟩
  · exact ⟨"else".toList, .name (by decide) (List.all_eq_true.1 (by decide))⟩
  all_goals exact ⟨_, .mark (by decide)⟩

/-- Every list of fillers is spelled by some text of one line. -/
theorem exists_spread (kinds : List Token.Kind) (h : ∀ kind ∈ kinds, kind ∈ fillers) :
    ∃ body, Token.Spread kinds body := by
  induction kinds with
  | nil => exact ⟨[], .nil⟩
  | cons kind kinds ih =>
      obtain ⟨cs, hcs⟩ := exists_spelled (h kind (List.mem_cons_self ..))
      obtain ⟨body, hbody⟩ := ih fun kind hkind => h kind (List.mem_cons_of_mem _ hkind)
      cases kinds with
      | nil => exact ⟨cs, .last hcs⟩
      | cons next kinds =>
          have hgap : ∀ c ∈ [' '], Token.isGap c = true := List.all_eq_true.1 (by decide)
          exact ⟨_, .cons hcs (List.cons_ne_nil ' ' []) hgap hbody⟩

/-- What something is completed with are the tokens of a text. -/
theorem Filling.exists_text {number : Nat} {tokens : List Token} (h : Filling number tokens) :
    ∃ text, Token.tokenize text number = .ok tokens := by
  obtain ⟨body, hbody⟩ := exists_spread (tokens.map Token.kind)
    (List.forall_mem_map.2 fun token hmem => (h token hmem).2)
  have htokens : (tokens.map Token.kind).map (⟨·, number⟩) = tokens := by
    rw [List.map_map]
    refine (List.map_congr_left fun token hmem => ?_).trans (List.map_id tokens)
    obtain rfl := (h token hmem).1
    rfl
  have htrail : Token.Trailer [] := .gap (by simp)
  have hscan := hbody.scan_append htrail.gapFirst number
  rw [List.append_nil, htokens, htrail.scan_eq] at hscan
  refine ⟨String.ofList body, ?_⟩
  rw [Token.tokenize, String.toList_ofList, hscan]
  show Except.ok (tokens ++ []) = .ok tokens
  rw [List.append_nil]

/-! ## Completed statements -/

/-- What the rule of a program has read when it wants for a token can be completed to a statement,
which ends with a separator. -/
theorem exists_completion {number : Nat} {tokens : List Token}
    (h : Viable number programId tokens) :
    ∃ more tree, Filling number more ∧
      ∀ rest, Meaning full.program (tokens ++ more ++ rest) tree rest := by
  have hseparator : Separator ⟨.word ";", number⟩ := .inl rfl
  have hfilling : Filling number [⟨.word ";", number⟩] := by simp [Filling, fillers]
  have hends : ∀ {t : List Token} {tree : Tree}, Compound t tree ∨ Expr t tree →
      ∀ rest, Meaning full.program (t ++ ⟨.word ";", number⟩ :: rest) tree rest := by
    rintro t tree (ht | ht) rest
    · exact .inl (.inr ⟨_, hseparator, ⟨t, rfl, ht⟩, fun _ _ _ => hseparator.isLiteral_else⟩)
    · exact .inr (.inl ⟨_, hseparator, ⟨t, rfl, ht⟩, hseparator.isLiteral_paren,
        hseparator.ofToken?_eq⟩)
  rcases h with rfl | ⟨more, hmore, tree, ht⟩ | ⟨more, hmore, tree, ht⟩
  · exact ⟨_, _, hfilling, fun rest => .inr (.inr ⟨rfl, _, hseparator, rfl⟩)⟩
  · exact ⟨_, tree, hmore.append hfilling, fun rest => by simpa using hends (.inl ht) rest⟩
  · exact ⟨_, tree, hmore.append hfilling, fun rest => by simpa using hends (.inr ht) rest⟩

/-- If a statement meets the fault after the tokens, they can be completed. -/
theorem viable_of_stops_faulted {p : List Token} {t : TokenStream} (hp : AllPlain p)
    (hstops : (full.grammar.parse full.program).Stops (faulted p) (.read .garbled) t)
    (number : Nat) : Viable number programId p := by
  have hensures := ensures_parse fun n => ensures_parseWithin closed_understood
    (failureClosed_pending number) n full.program (faulted p) p (shows_faulted p)
  generalize herror : ParseError.read .garbled = error at hstops
  cases hensures.of_stops hstops with
  | unexpected =>
      unfold ParseError.ofToken at herror
      split at herror <;> cases herror
  | unread hf => exact hf (by simp) rfl hp
  | shape => cases herror

/-! ## The first token that does not fit -/

/-- If a statement of the full language stops at a token that does not fit, it is the token `x`
after the tokens `p` of the statement. Some text completes `p`: with its tokens `c`, a statement is
read up to the end of `c`, on every line and whatever follows. On every stream that begins with `p`
and `x` the error is the same. -/
theorem syntax_error_earliest (stream stream' : TokenStream) (h : stream.Reachable)
    (text : String) (line : Nat) (message : String)
    (hstops : full.statement.Stops stream (.unexpected text line message) stream') :
    ∃ p x rest, stream.items = p.map .ok ++ .ok x :: rest ∧
      (stream'.items = .ok x :: rest ∨ stream'.items = rest) ∧
      ParseError.ofToken x message = .unexpected text line message ∧
      (∀ number, ∃ written c tree, Token.tokenize written number = .ok c ∧
        ∀ s r, s.items = (p ++ c ++ r).map .ok →
          ∃ s', full.statement.Gives s tree s' ∧ s'.items = r.map .ok) ∧
      ∀ s others, s.items = p.map .ok ++ .ok x :: others →
        ∃ s', full.statement.Stops s (.unexpected text line message) s' := by
  obtain ⟨tokens, tail, hs⟩ := stream.exists_shows
  have hp := h.plainQueue.plain_of_shows hs
  obtain ⟨p, x, rest, rfl, herror, ⟨t₀, hfault⟩, hsame⟩ :=
    exists_first_unfit (ranked_full.ends_parse full.program) hs hstops
  refine ⟨p, x, rest.map .ok ++ tail, by simpa using hs.1, ?_, herror.symm, ?_, ?_⟩
  · obtain ⟨t', hstops', ht'⟩ := hsame stream rest tail hs
    obtain ⟨-, rfl⟩ := hstops.unique hstops'
    exact ht'.imp (fun ht' => by simpa using ht'.1) (fun ht' => ht'.1)
  · intro number
    have hplain : AllPlain p := fun token hmem => hp token (List.mem_append_left _ hmem)
    obtain ⟨c, tree, hc, hmeaning⟩ :=
      exists_completion (viable_of_stops_faulted hplain hfault number)
    obtain ⟨written, hwritten⟩ := hc.exists_text
    refine ⟨written, c, tree, hwritten, fun s r hitems => ?_⟩
    obtain ⟨s', hgives, hs'⟩ :=
      exists_gives_of_meaning (shows_of_items_eq hitems) (hmeaning r) (.inr rfl)
    exact ⟨s', hgives, by simpa using hs'.1⟩
  · intro s others hitems
    obtain ⟨rest', tail', rfl, htail⟩ := exists_tokens_append others
    have hs' : s.Shows (p ++ x :: rest') tail' := ⟨by simpa using hitems, htail⟩
    obtain ⟨s', hstops', -⟩ := hsame s rest' tail' hs'
    exact ⟨s', hstops'⟩

/-- After `else` a block is wanted, and a name is not one. -/
theorem syntax_error_earliest_else :
    let stream := ofSource (.ofText "if a \x7b f(1) \x7d else b\n")
    let error := ParseError.unexpected "b" 1 "\"\x7b\" expected."
    stream.Reachable ∧ ∃ stream', full.statement.Stops stream error stream' ∧
      ∃ p x rest, stream.items = p.map .ok ++ .ok x :: rest ∧ x.toText = "b" ∧
        (∃ written c tree, Token.tokenize written 1 = .ok c ∧
          ∀ s r, s.items = (p ++ c ++ r).map .ok →
            ∃ s', full.statement.Gives s tree s' ∧ s'.items = r.map .ok) ∧
        ∀ s others, s.items = p.map .ok ++ .ok x :: others →
          ∃ s', full.statement.Stops s error s' := by
  intro stream error
  have herror : (full.statement stream).error?.map Prod.fst = some error := by decide +kernel
  obtain ⟨⟨_, stream'⟩, hsome, rfl⟩ := Option.map_eq_some_iff.1 herror
  have hstops : full.statement.Stops stream error stream' := Action.stops_of_error? hsome
  obtain ⟨p, x, rest, hitems, -, hx, hcompletes, hsame⟩ :=
    syntax_error_earliest stream stream' (.ofSource _) _ _ _ hstops
  refine ⟨.ofSource _, stream', hstops, p, x, rest, hitems, ?_, hcompletes 1, hsame⟩
  unfold ParseError.ofToken at hx
  split at hx
  · cases hx
  · injection hx

end Language

end TreeScript
