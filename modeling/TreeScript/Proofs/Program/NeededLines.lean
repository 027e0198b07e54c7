import TreeScript.Proofs.Grammar.LastLine
import TreeScript.Proofs.Program.Progress
import TreeScript.Proofs.TokenStream.Place

/-!
# Lines that a statement needs

Parsing a statement at the top takes no line after the one on which the statement ends, although
every choice and every repetition looks ahead. The last look of a statement is on the line of its
last token. A compound statement ends with a brace, and to ask for an `else` or a separator after it
costs no line, as no brace ends one. The other statements end with the separator itself, and nothing
is asked after it (`endPace`).

So after any number of statements the lines that were taken are those up to the line of the last
token, and the queue has the rest of this line. Any other lines could follow, or none
(`statement_takes_needed_lines`). Someone who types statements is answered when the statement is
complete, and a line with a fault is reported only once its turn comes.
-/

namespace TreeScript

/-! ## Where the rules end -/

namespace Language

open Grammar

/-- How far the rules of a table have looked when they end. -/
def endPace (size : Nat) (id : RuleId) : Pace :=
  if size ≤ id then .ahead
  else if braced true id then .within
  else if
    [separatorId, compoundStatementId, simpleStatementId, nullStatementId, programId].contains id
  then .atEnd
  else .ahead

theorem keepsPace_of_table {grammar : Grammar} {size : Nat}
    (htable : ∀ id < size, (grammar.rule id).elements.foldl (Element.pace (endPace size)) .ahead ≤
      endPace size id) : grammar.KeepsPace (endPace size) := by
  intro id
  rcases Nat.lt_or_ge id size with hid | hid
  · exact htable id hid
  · rw [show endPace size id = .ahead from if_pos hid]
    exact Pace.le_ahead _

/-- No rule of the full language ends later than the table says. -/
theorem keepsPace_full : full.grammar.KeepsPace (endPace fullSize) :=
  keepsPace_of_table (by decide +kernel)

/-- No rule of the basic language ends later than the table says. -/
theorem keepsPace_basic : basic.grammar.KeepsPace (endPace basicSize) :=
  keepsPace_of_table (by decide +kernel)

end Language

namespace Program

open Grammar TokenStream TreeScript.Language

/-! ## One statement after the other -/

/-- The first statements of a source are parsed, one after the other, and a stream is left. -/
inductive ReadsTo (language : Language) (source : Source) : List Tree → TokenStream → Prop where
  /-- Nothing was parsed yet. -/
  | start : ReadsTo language source [] (ofSource source)
  /-- One more statement is parsed. -/
  | more {trees : List Tree} {tree : Tree} {s t : TokenStream} :
      ReadsTo language source trees s → language.statement.Gives s tree t →
      ReadsTo language source (trees ++ [tree]) t

section Languages

variable {language : Language} {source : Source} {s t : TokenStream} {trees : List Tree}
  {tree : Tree} (hl : language = full ∨ language = basic)
include hl

/-- A statement ends at the end of a line at the latest, so it has looked no farther. -/
theorem heeds_statement :
    Heeds Eq .ahead .atEnd AnyStream language.statement language.statement := by
  cases hl with
  | inl hl =>
      subst hl
      exact heeds_parse keepsPace_full full.grammar.overlooks_eq full.program
  | inr hl =>
      subst hl
      exact heeds_parse keepsPace_basic basic.grammar.overlooks_eq basic.program

/-- The line that is open after a statement is the one of its last token, and the lines after it
are not touched. -/
theorem exists_last_of_statement (hs : Stands source s) (h : language.statement.Gives s tree t) :
    ∃ consumed last passed, s.items = consumed ++ .ok last :: t.items ∧
      OnLine source (passed ++ [last]) t ∧ TakesLines (language.statement.Gives · tree ·) s t := by
  obtain ⟨glances, hreplies, hpace, hother⟩ := (heeds_statement hl s trivial).of_gives h
  obtain ⟨consumed, last, passed, hitems, honline, htakes⟩ := hreplies.last hs hpace
  refine ⟨consumed, last, passed, hitems, honline, htakes.mono fun s' t' hreplies' => ?_⟩
  exact hother s' glances t' (likes_self glances) hreplies'

/-- After some statements the stream stands in the source. -/
theorem ReadsTo.stands (h : ReadsTo language source trees s) : Stands source s := by
  induction h with
  | start => exact stands_ofSource source
  | more _ hg ih =>
      obtain ⟨_, _, passed, -, honline, -⟩ := exists_last_of_statement hl ih hg
      exact .inr ⟨_, honline⟩

/-- The statements are parsed alike if other lines come after those that were taken. -/
theorem ReadsTo.exists_taken (h : ReadsTo language source trees s) :
    ∃ lines, source = lines ++ s.pending ∧
      ∀ more, ReadsTo language (lines ++ more) trees { s with pending := more } := by
  induction h with
  | start => exact ⟨[], rfl, fun more => .start⟩
  | more hparsed hg ih =>
      obtain ⟨lines, hsource, hlater⟩ := ih
      obtain ⟨_, _, _, -, -, lines', hlines', hstatement⟩ :=
        exists_last_of_statement hl (hparsed.stands hl) hg
      refine ⟨lines ++ lines', by rw [hsource, hlines', List.append_assoc], fun more => ?_⟩
      rw [List.append_assoc]
      exact (hlater (lines' ++ more)).more (hstatement more)

/-- If statements of a source were parsed and one more is, the lines taken so far are those up to
the line of the last token that was consumed, and the queue holds the tokens of this line that come
after it. With any other lines after this one, the same statements are parsed and the same is left,
up to those lines. -/
theorem statement_takes_needed_lines (hparsed : ReadsTo language source trees s)
    (h : language.statement.Gives s tree t) :
    ∃ lines content consumed last passed,
      source = lines ++ .text content :: t.pending ∧
      s.items = (consumed ++ [last]).map .ok ++ t.items ∧
      lineItems (textLines lines) (.text content) = (passed ++ last :: t.queue).map .ok ∧
      last.line = textLines lines + 1 ∧ t.line = textLines lines + 1 ∧
      ∀ more, ReadsTo language (lines ++ .text content :: more) (trees ++ [tree])
        { t with pending := more } := by
  obtain ⟨before, last, passed, hitems, honline, -⟩ :=
    exists_last_of_statement hl (hparsed.stands hl) h
  obtain ⟨lines, content, hsource, hline, hlast⟩ := honline
  rw [List.append_assoc, List.singleton_append] at hlast
  obtain ⟨tokens, -, htokens⟩ := exists_consumed_of_rule hl (.inl rfl) h
  have hconsumed : tokens.map .ok = before ++ [.ok last] := by
    rw [htokens, ← List.singleton_append, ← List.append_assoc] at hitems
    exact List.append_cancel_right hitems
  obtain ⟨consumed, ends, rfl, -, hends⟩ := List.map_eq_append_iff.1 hconsumed
  obtain ⟨token, rfl, htoken⟩ := List.map_eq_singleton_iff.1 hends
  cases htoken
  refine ⟨lines, content, consumed, last, passed, hsource, htokens, hlast, ?_, hline, ?_⟩
  · apply @line_of_mem_lineItems _ (.text content)
    rw [hlast]
    simp
  · intro more
    obtain ⟨taken, htaken, hother⟩ := (hparsed.more h).exists_taken hl
    have hsame : taken = lines ++ [.text content] := by
      rw [hsource, ← List.singleton_append, ← List.append_assoc] at htaken
      exact (List.append_cancel_right htaken).symm
    have hmore := hother more
    rw [hsame, List.append_assoc, List.singleton_append] at hmore
    exact hmore

end Languages

/-- Two statements end on the third line, and the fault on the fourth one waits. -/
theorem needed_lines_before_fault :
    let taken := Source.ofText "if x \x7b\n  y = 1\n\x7d z = 2\n"
    let source := Source.ofText "if x \x7b\n  y = 1\n\x7d z = 2\n\"\n"
    ∃ tree s tree' t, full.statement.Gives (ofSource source) tree s ∧
      full.statement.Gives s tree' t ∧ t = ⟨[], [.text "\"\n"], 3⟩ ∧
      (∃ error u, full.statement.Stops t error u) ∧
      ∀ more, ReadsTo full (taken ++ more) [tree, tree'] { t with pending := more } := by
  intro taken source
  have hfirst : (full.statement (ofSource source)).value?.isSome = true := by decide +kernel
  obtain ⟨⟨tree, s⟩, hs⟩ := Option.isSome_iff_exists.1 hfirst
  have hsecond : ((full.statement (ofSource source)).value?.bind fun found =>
      (full.statement found.2).value?).map Prod.snd = some ⟨[], [.text "\"\n"], 3⟩ := by
    decide +kernel
  rw [hs, Option.bind_some] at hsecond
  obtain ⟨⟨tree', t⟩, ht, hleft⟩ := Option.map_eq_some_iff.1 hsecond
  have hthird : (full.statement ⟨[], [.text "\"\n"], 3⟩).error?.isSome = true := by decide +kernel
  obtain ⟨⟨error, u⟩, herror⟩ := Option.isSome_iff_exists.1 hthird
  have hleft : t = ⟨[], [.text "\"\n"], 3⟩ := hleft
  have hgives := Action.gives_of_value? hs
  have hgives' := Action.gives_of_value? ht
  refine ⟨tree, s, tree', t, hgives, hgives', hleft, ⟨error, u, ?_⟩, fun more => ?_⟩
  · rw [hleft]
    exact Action.stops_of_error? herror
  · obtain ⟨lines, content, _, _, _, hsource, -, -, -, -, hmore⟩ :=
      statement_takes_needed_lines (.inl rfl) (ReadsTo.start.more hgives) hgives'
    have hlines : lines ++ [.text content] = taken := by
      rw [hleft, ← List.singleton_append, ← List.append_assoc] at hsource
      have hcut : source = taken ++ [.text "\"\n"] := by decide +kernel
      exact (List.append_cancel_right (hcut.symm.trans hsource)).symm
    have hparsed := hmore more
    rw [← List.singleton_append, ← List.append_assoc, hlines] at hparsed
    exact hparsed

end Program

end TreeScript
