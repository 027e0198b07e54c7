import TreeScript.Proofs.Grammar.Heeds
import TreeScript.Proofs.TokenStream.Requests

/-!
# The line of the last token

A glance takes a line only where the queue is empty, and then it takes one (`refills_iff`). If the
glances of a parser end at a pace that is not ahead, the last line that was taken is the one of the
last token, and the queue holds the rest of this line. No line after it was touched, so any other
lines could stand there (`Replies.last`).
-/

namespace TreeScript

namespace TokenStream

/-! ## Filling the queue for one token -/

/-- What filling for one token comes to, and the stream that is left. -/
inductive Refills : TokenStream → Except ReadError Unit → TokenStream → Prop where
  /-- There is nothing to fill it with. -/
  | ended {s : TokenStream} : s.Ended → Refills s (.ok ()) s
  /-- There is a token already. -/
  | ready {s : TokenStream} : s.queue ≠ [] → Refills s (.ok ()) s
  /-- One line is taken. -/
  | line {content : String} {lines : Source} {number : Nat} {tokens : List Token} :
      Token.tokenize content (number + 1) = .ok tokens →
      Refills ⟨[], .text content :: lines, number⟩ (.ok ())
        ⟨tokens ++ [⟨.endOfLine, number + 1⟩], lines, number + 1⟩
  /-- One line is taken that cannot be cut. -/
  | fault {line : Line} {lines : Source} {number : Nat} {cause : ReadError} :
      lineItems number line = [.error cause] →
      Refills ⟨[], line :: lines, number⟩ (.error cause) ⟨[], lines, lineNumber number line⟩

/-- Filling always comes to something: a line with a token, a fault or the end. -/
theorem exists_refills (s : TokenStream) : ∃ result t, Refills s result t := by
  obtain ⟨queue, pending, line⟩ := s
  cases queue with
  | cons token queue => exact ⟨_, _, .ready (List.cons_ne_nil _ _)⟩
  | nil =>
      cases pending with
      | nil => exact ⟨_, _, .ended ⟨rfl, rfl⟩⟩
      | cons first lines =>
          cases first with
          | garbled => exact ⟨_, _, .fault rfl⟩
          | text content =>
              cases ht : Token.tokenize content (line + 1) with
              | ok tokens => exact ⟨_, _, .line ht⟩
              | error fault => exact ⟨_, _, .fault (by rw [lineItems, ht])⟩

/-- The relation says what filling does. -/
theorem Refills.result?_eq {s t : TokenStream} {result : Except ReadError Unit}
    (h : Refills s result t) : (fill 0 s).result? = some (result, t) := by
  cases h with
  | ended hs => rw [fill_of_pending_nil hs.2]; rfl
  | ready hqueue => rw [fill_of_lt (List.length_pos_iff.2 hqueue)]; rfl
  | @line content lines number tokens ht =>
      let filled : TokenStream := ⟨tokens ++ [⟨.endOfLine, number + 1⟩], lines, number + 1⟩
      have hfilled : fill 0 filled = .value () filled [] := fill_of_lt (by simp [filled])
      simp only [fill, filled] at hfilled ⊢
      simp only [fillFrom, List.length_nil, Nat.lt_irrefl, if_false, ht, List.nil_append, hfilled,
        Outcome.result?_after]
      rfl
  | @fault line lines number cause hline =>
      cases line with
      | garbled =>
          cases hline
          rfl
      | text content =>
          simp only [lineItems] at hline
          cases ht : Token.tokenize content (number + 1) with
          | ok tokens =>
              rw [ht] at hline
              have hmem : .ok (Token.mk .endOfLine (number + 1)) ∈ [Except.error cause] := by
                rw [← hline]
                simp
              simp at hmem
          | error fault =>
              rw [ht] at hline
              cases hline
              simp [fill, fillFrom, ht, Outcome.result?, lineNumber]

theorem refills_iff {s t : TokenStream} {result : Except ReadError Unit} :
    Refills s result t ↔ (fill 0 s).result? = some (result, t) := by
  refine ⟨Refills.result?_eq, fun h => ?_⟩
  obtain ⟨result', t', hrefills⟩ := exists_refills s
  rw [hrefills.result?_eq] at h
  cases h
  exact hrefills

/-- The first token of a queue that was filled is taken off. -/
theorem pop_eq (s : TokenStream) : s.queue = [] ∧ s.pop = (s.endOfFile, s) ∨
    ∃ token queue, s.queue = token :: queue ∧ s.pop = (token, { s with queue }) := by
  obtain ⟨queue, pending, line⟩ := s
  cases queue with
  | nil => exact .inl ⟨rfl, rfl⟩
  | cons token queue => exact .inr ⟨token, queue, rfl, rfl⟩

/-! ## Lines that are not touched -/

/-- Lines are taken on the way from `s` to `t`, and any others may come after them. -/
def TakesLines (happens : TokenStream → TokenStream → Prop) (s t : TokenStream) : Prop :=
  ∃ lines, s.pending = lines ++ t.pending ∧
    ∀ more, happens { s with pending := lines ++ more } { t with pending := more }

section TakesLines

variable {first second both : TokenStream → TokenStream → Prop} {s t u : TokenStream}

/-- Lines are taken on the way to a stream and on the way from it. -/
theorem TakesLines.trans (h : TakesLines first s t) (h' : TakesLines second t u)
    (hboth : ∀ s t u, first s t → second t u → both s u) : TakesLines both s u := by
  obtain ⟨lines, hlines, hfirst⟩ := h
  obtain ⟨lines', hlines', hsecond⟩ := h'
  refine ⟨lines ++ lines', by rw [hlines, hlines', List.append_assoc], fun more => ?_⟩
  have hs := hfirst (lines' ++ more)
  rw [← List.append_assoc] at hs
  exact hboth _ _ _ hs (hsecond more)

theorem TakesLines.mono (h : TakesLines first s t) (hboth : ∀ s t, first s t → both s t) :
    TakesLines both s t := by
  obtain ⟨lines, hlines, hfirst⟩ := h
  exact ⟨lines, hlines, fun more => hboth _ _ (hfirst more)⟩

/-- No line is taken. -/
theorem takesLines_of_pending_eq (hpending : t.pending = s.pending)
    (h : ∀ more, first { s with pending := more } { t with pending := more }) :
    TakesLines first s t := ⟨[], hpending.symm, h⟩

/-- Unless the source has ended, filling does not touch the lines after the one that it takes. -/
theorem Refills.takesLines {result : Except ReadError Unit} (h : Refills s result t) :
    s.Ended ∧ t = s ∨ TakesLines (Refills · result ·) s t := by
  cases h with
  | ended hs => exact .inl ⟨hs, rfl⟩
  | ready hqueue => exact .inr (takesLines_of_pending_eq rfl fun _ => .ready hqueue)
  | line ht => exact .inr ⟨[_], rfl, fun _ => .line ht⟩
  | fault hline => exact .inr ⟨[_], rfl, fun _ => .fault hline⟩

end TakesLines

/-! ## The line that is open -/

/-- The stream is in the middle of a line of the source. It has handed out the tokens `passed` of
this line, the others wait in the queue. -/
def OnLine (source : Source) (passed : List Token) (s : TokenStream) : Prop :=
  ∃ lines content, source = lines ++ .text content :: s.pending ∧
    s.line = textLines lines + 1 ∧
    lineItems (textLines lines) (.text content) = (passed ++ s.queue).map .ok

/-- The stream stands where a line begins or in the middle of one. -/
def Stands (source : Source) (s : TokenStream) : Prop :=
  (∃ lines, source = lines ++ s.pending ∧ s.line = textLines lines ∧ s.queue = []) ∨
    ∃ passed, OnLine source passed s

section Stands

variable {source : Source} {passed : List Token} {s t : TokenStream}

theorem stands_ofSource (source : Source) : Stands source (ofSource source) :=
  .inl ⟨[], rfl, rfl, rfl⟩

@[simp] theorem textLines_append (source source' : Source) :
    textLines (source ++ source') = textLines source + textLines source' := List.countP_append

/-- The lines that were taken are the first ones of the source. -/
theorem Stands.exists_lines (h : Stands source s) :
    ∃ lines, source = lines ++ s.pending ∧ s.line = textLines lines := by
  rcases h with ⟨lines, hsource, hline, -⟩ | ⟨passed, lines, content, hsource, hline, -⟩
  · exact ⟨lines, hsource, hline⟩
  · refine ⟨lines ++ [.text content], by simp [hsource], ?_⟩
    rw [hline, textLines_append]
    rfl

/-- After filling, the stream still stands in the source. -/
theorem Stands.refills {result : Except ReadError Unit} (h : Stands source s)
    (hrefills : Refills s result t) : Stands source t := by
  cases hrefills with
  | ended | ready => exact h
  | @line content lines number tokens ht =>
      obtain ⟨before, hsource, hline⟩ := h.exists_lines
      refine .inr ⟨[], before, content, hsource, congrArg Nat.succ hline, ?_⟩
      have hline : number = textLines before := hline
      rw [← hline, lineItems, ht, List.nil_append]
  | @fault line lines number cause hfault =>
      obtain ⟨before, hsource, hline⟩ := h.exists_lines
      refine .inl ⟨before ++ [line], by simp [hsource], ?_, rfl⟩
      have hline : number = textLines before := hline
      rw [textLines_append, ← hline]
      cases line with
      | garbled | text => rfl

/-- A token of the open line is handed out. -/
theorem Stands.onLine_of_pop {token : Token} {queue : List Token} (h : Stands source s)
    (hqueue : s.queue = token :: queue) :
    ∃ passed, OnLine source (passed ++ [token]) { s with queue } := by
  rcases h with ⟨_, -, -, hnil⟩ | ⟨passed, lines, content, hsource, hline, hitems⟩
  · rw [hqueue] at hnil
    cases hnil
  · refine ⟨passed, lines, content, hsource, hline, ?_⟩
    rw [hitems, hqueue, List.append_assoc, List.singleton_append]

/-- As long as no end of a line was handed out, the line has more tokens. -/
theorem OnLine.queue_ne_nil {token : Token} (h : OnLine source (passed ++ [token]) s)
    (htoken : token.isEndOfLine = false) : s.queue ≠ [] := by
  obtain ⟨lines, content, -, -, hitems⟩ := h
  intro hnil
  have hlast : (lineItems (textLines lines) (.text content)).getLast? = some (.ok token) := by
    rw [hitems, hnil, List.append_nil, List.map_append]
    exact List.getLast?_concat
  rw [isEndOfLine_of_getLast_lineItems hlast] at htoken
  cases htoken

end Stands

end TokenStream

namespace Grammar

open TokenStream

variable {s t u : TokenStream} {source : Source} {glance : Glance} {glances : List Glance}
  {token : Token} {cause : ReadError}

/-! ## One glance -/

theorem gives_fill_iff : (fill 0).Gives s () t ↔ Refills s (.ok ()) t := by
  rw [refills_iff, Action.gives_iff]

theorem stops_fill_iff : (fill 0).Stops s cause t ↔ Refills s (.error cause) t := by
  rw [refills_iff, Action.stops_iff]

/-- What is seen is the first token of the queue after filling. -/
theorem step_saw_iff : (Glance.saw token).Step s t ↔
    Refills s (.ok ()) t ∧ token = t.queue[0]?.getD t.endOfFile := by
  rw [glances_peek.step_iff, Grammar.peek, TokenStream.peek]
  constructor
  · intro h
    obtain ⟨_, u, hfill, hview⟩ := h.of_mapError.of_bind
    obtain ⟨journal, hview⟩ := hview
    cases hview
    exact ⟨gives_fill_iff.1 hfill, rfl⟩
  · intro h
    obtain ⟨hrefills, htoken⟩ := h
    subst htoken
    exact ((gives_fill_iff.2 hrefills).bind ⟨[], rfl⟩).mapError _

/-- What is taken is the first token of the queue after filling. -/
theorem step_took_iff : (Glance.took token).Step s t ↔
    ∃ u, Refills s (.ok ()) u ∧ u.pop = (token, t) := by
  rw [glances_next.step_iff, Grammar.next, TokenStream.read]
  constructor
  · intro h
    obtain ⟨_, u, hfill, hpop⟩ := h.of_mapError.of_bind
    obtain ⟨journal, hpop⟩ := hpop
    refine ⟨u, gives_fill_iff.1 hfill, ?_⟩
    cases hpop
    rfl
  · intro h
    obtain ⟨u, hrefills, hpop⟩ := h
    have htransition : (Action.transition pop : Action _ ReadError _).Gives u token t := by
      refine ⟨[], ?_⟩
      rw [Action.transition, hpop]
    exact ((gives_fill_iff.2 hrefills).bind htransition).mapError _

theorem step_missed_iff : (Glance.missed cause).Step s t ↔ Refills s (.error cause) t := by
  rw [← stops_fill_iff]
  refine ⟨fun h => ?_, .missed⟩
  cases h with
  | missed hstops => exact hstops

/-! ## Many glances -/

/-- Once the source has ended, a glance finds its end. -/
theorem Glance.Step.eq_of_ended (h : glance.Step s t) (hs : s.Ended) :
    t = s ∧ (glance = .saw s.endOfFile ∨ glance = .took s.endOfFile) := by
  have hfilled : ∀ result u, Refills s result u → u = s ∧ result = .ok () := by
    intro result u hrefills
    have hresult := hrefills.result?_eq
    rw [(Refills.ended hs).result?_eq] at hresult
    cases hresult
    exact ⟨rfl, rfl⟩
  cases glance with
  | saw token =>
      obtain ⟨hrefills, htoken⟩ := step_saw_iff.1 h
      obtain ⟨rfl, -⟩ := hfilled _ _ hrefills
      rw [hs.1] at htoken
      exact ⟨rfl, .inl (congrArg _ htoken)⟩
  | took token =>
      obtain ⟨u, hrefills, hpop⟩ := step_took_iff.1 h
      obtain ⟨rfl, -⟩ := hfilled _ _ hrefills
      rw [pop, hs.1] at hpop
      cases hpop
      exact ⟨rfl, .inr rfl⟩
  | missed cause =>
      obtain ⟨-, hresult⟩ := hfilled _ _ (step_missed_iff.1 h)
      cases hresult

/-- Unless the source has ended, a glance does not touch the lines after those that it takes. -/
theorem Glance.Step.takesLines (h : glance.Step s t) :
    s.Ended ∨ TakesLines glance.Step s t := by
  cases glance with
  | saw token =>
      obtain ⟨hrefills, htoken⟩ := step_saw_iff.1 h
      rcases hrefills.takesLines with ⟨hs, -⟩ | ⟨lines, hlines, hmore⟩
      · exact .inl hs
      · exact .inr ⟨lines, hlines, fun more => step_saw_iff.2 ⟨hmore more, htoken⟩⟩
  | took token =>
      obtain ⟨u, hrefills, hpop⟩ := step_took_iff.1 h
      rcases hrefills.takesLines with ⟨hs, -⟩ | ⟨lines, hlines, hmore⟩
      · exact .inl hs
      · refine .inr ⟨lines, ?_, fun more => step_took_iff.2 ⟨_, hmore more, ?_⟩⟩
        · rcases pop_eq u with ⟨-, hu⟩ | ⟨_, _, -, hu⟩
          · rw [hu] at hpop
            cases hpop
            exact hlines
          · rw [hu] at hpop
            cases hpop
            exact hlines
        · rcases pop_eq u with ⟨hqueue, hu⟩ | ⟨_, _, hqueue, hu⟩
          · rw [hu] at hpop
            cases hpop
            rw [pop, hqueue]
            rfl
          · rw [hu] at hpop
            cases hpop
            rw [pop, hqueue]
  | missed cause =>
      rcases (step_missed_iff.1 h).takesLines with ⟨hs, -⟩ | htakes
      · exact .inl hs
      · exact .inr (htakes.mono fun _ _ => step_missed_iff.2)

/-- After the end of the source no glance changes anything. -/
theorem Replies.eq_of_ended (h : Replies s glances t) (hs : s.Ended) : t = s := by
  induction h with
  | nil => rfl
  | cons hstep _ ih =>
      obtain ⟨rfl, -⟩ := hstep.eq_of_ended hs
      exact ih hs

/-- The same holds of glances up to a token. -/
theorem Replies.takesLines (h : Replies s glances t) :
    t.Ended ∨ TakesLines (Replies · glances ·) s t := by
  induction h with
  | nil s => exact .inr (takesLines_of_pending_eq rfl fun _ => .nil _)
  | cons hstep hrest ih =>
      rcases ih with hended | hlater
      · exact .inl hended
      · rcases hstep.takesLines with hs | hfirst
        · obtain ⟨rfl, -⟩ := hstep.eq_of_ended hs
          obtain rfl := hrest.eq_of_ended hs
          exact .inl hs
        · exact .inr (hfirst.trans hlater fun _ _ _ => .cons)

/-- A glance takes one token at most, so the stream stands in the same line or at the beginning of
another one. -/
theorem Glance.Step.stands (h : glance.Step s t) (hs : Stands source s) : Stands source t := by
  cases glance with
  | saw token => exact hs.refills (step_saw_iff.1 h).1
  | took token =>
      obtain ⟨u, hrefills, hpop⟩ := step_took_iff.1 h
      have hu := hs.refills hrefills
      rcases pop_eq u with ⟨-, heq⟩ | ⟨_, _, hqueue, heq⟩
      · rw [heq] at hpop
        cases hpop
        exact hu
      · rw [heq] at hpop
        cases hpop
        obtain ⟨passed, honline⟩ := hu.onLine_of_pop hqueue
        exact .inr ⟨_, honline⟩
  | missed cause => exact hs.refills (step_missed_iff.1 h)

theorem Replies.stands (h : Replies s glances t) (hs : Stands source s) : Stands source t := by
  induction h with
  | nil => exact hs
  | cons hstep _ ih => exact ih (hstep.stands hs)

/-- A token that is taken is one of the line that is open then. -/
theorem onLine_of_took (h : (Glance.took token).Step s t) (hs : Stands source s)
    (htoken : token.isEndOfFile = false) : ∃ passed, OnLine source (passed ++ [token]) t := by
  obtain ⟨u, hrefills, hpop⟩ := step_took_iff.1 h
  rcases pop_eq u with ⟨-, heq⟩ | ⟨_, _, hqueue, heq⟩
  · rw [heq] at hpop
    cases hpop
    cases htoken
  · rw [heq] at hpop
    cases hpop
    exact (hs.refills hrefills).onLine_of_pop hqueue

/-- It is the first item of the stream. -/
theorem items_of_took (h : (Glance.took token).Step s t) (htoken : token.isEndOfFile = false) :
    s.items = .ok token :: t.items := by
  rcases looks_next.gives_cases (glances_next.step_iff.1 h) with ⟨rest, hs, ht⟩ | ⟨-, hend, -⟩
  · rw [ht, hs, List.tail_cons]
  · rw [htoken] at hend
    cases hend

/-- If the source had ended, there would have been none to take. -/
theorem not_ended_of_took (h : (Glance.took token).Step s t)
    (htoken : token.isEndOfFile = false) : ¬ s.Ended := by
  intro hended
  have hitems := items_of_took h htoken
  rw [hended.items_eq] at hitems
  cases hitems

/-- As long as the queue has tokens, to see them changes nothing and touches no line. -/
theorem takesLines_of_looks (h : Replies s glances t) (hqueue : s.queue ≠ [])
    (hlooks : ∀ glance ∈ glances, ∃ token, glance = .saw token) :
    t = s ∧ TakesLines (Replies · glances ·) s t := by
  induction h with
  | nil s => exact ⟨rfl, takesLines_of_pending_eq rfl fun _ => .nil _⟩
  | @cons _ _ s _ t hstep _ ih =>
      obtain ⟨⟨token, rfl⟩, hothers⟩ := List.forall_mem_cons.1 hlooks
      obtain ⟨hrefills, htoken⟩ := step_saw_iff.1 hstep
      have hresult := hrefills.result?_eq
      rw [(Refills.ready hqueue).result?_eq] at hresult
      cases hresult
      have hfirst : TakesLines (Glance.saw token).Step s s :=
        takesLines_of_pending_eq rfl fun _ => step_saw_iff.2 ⟨.ready hqueue, htoken⟩
      obtain ⟨heq, hlater⟩ := ih hqueue hothers
      exact ⟨heq, hfirst.trans hlater fun _ _ _ => .cons⟩

/-! ## The last token -/

/-- If nothing was seen on another line since, the last glances are a token that was taken, and
looks at tokens on its line. -/
theorem exists_took_of_paceAfter (h : paceAfter glances .ahead ≤ .atEnd) :
    ∃ before token looks, glances = before ++ .took token :: looks ∧ token.isEndOfFile = false ∧
      (looks = [] ∨ token.isEndOfLine = false) ∧ ∀ look ∈ looks, ∃ seen, look = .saw seen := by
  induction glances using List.reverseRecOn with
  | nil => exact absurd h (by decide)
  | append_singleton glances glance ih =>
      rw [paceAfter_append] at h
      cases glance with
      | missed =>
          have hmissed : Pace.ahead ≤ .atEnd := h
          exact absurd hmissed (by decide)
      | took token =>
          exact ⟨glances, token, [], rfl, Pace.isEndOfFile_of_taken_le h, .inl rfl, by simp⟩
      | saw seen =>
          have hwithin : paceAfter glances .ahead = .within := Pace.eq_within_of_look_le h
          obtain ⟨before, token, looks, rfl, hend, hline, hlooks⟩ := ih (by rw [hwithin]; decide)
          refine ⟨before, token, looks ++ [.saw seen], by simp, hend, .inr ?_, ?_⟩
          · rcases hline with rfl | hline
            · rw [paceAfter_append] at hwithin
              exact Pace.isEndOfLine_of_taken_eq hwithin
            · exact hline
          · intro look hmem
            rcases List.mem_append.1 hmem with hmem | hmem
            · exact hlooks look hmem
            · exact ⟨seen, List.mem_singleton.1 hmem⟩

/-- If the glances end at a pace that is not ahead, the line that is open is the one of the last
token that was taken, and no line after it was touched. -/
theorem Replies.last (h : Replies s glances t) (hs : Stands source s)
    (hpace : paceAfter glances .ahead ≤ .atEnd) :
    ∃ consumed last passed, s.items = consumed ++ .ok last :: t.items ∧
      OnLine source (passed ++ [last]) t ∧ TakesLines (Replies · glances ·) s t := by
  obtain ⟨before, last, looks, rfl, hend, hline, hlooks⟩ := exists_took_of_paceAfter hpace
  obtain ⟨u, hbefore, hrest⟩ := replies_append_iff.1 h
  cases hrest with
  | @cons _ _ _ v _ htook hafter =>
      obtain ⟨passed, honline⟩ := onLine_of_took htook (hbefore.stands hs) hend
      have hv : v = t ∧ TakesLines (Replies · looks ·) v t := by
        rcases hline with rfl | hline
        · cases hafter
          exact ⟨rfl, takesLines_of_pending_eq rfl fun _ => .nil _⟩
        · obtain ⟨rfl, htakes⟩ := takesLines_of_looks hafter (honline.queue_ne_nil hline) hlooks
          exact ⟨rfl, htakes⟩
      obtain ⟨rfl, htakes⟩ := hv
      have hopen := not_ended_of_took htook hend
      have hfirst := hbefore.takesLines.resolve_left hopen
      have hsecond := htook.takesLines.resolve_left hopen
      refine ⟨s.items.take (used before), last, passed, ?_, honline, ?_⟩
      · rw [← items_of_took htook hend, hbefore.items_eq, List.take_append_drop]
      · have hlast : TakesLines (Replies · (.took last :: looks) ·) u v :=
          hsecond.trans htakes fun _ _ _ => .cons
        exact hfirst.trans hlast fun _ _ _ => Replies.append

end Grammar

end TreeScript
