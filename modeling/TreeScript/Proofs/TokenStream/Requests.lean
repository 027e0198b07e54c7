import TreeScript.Proofs.TokenStream

/-!
# What a stream answers

A stream is asked to hand out its next token or to look ahead, in any order and as often as one
likes. An answer is a token or an error, and after an error one may go on asking.

However one asks, the lines that were taken account for all that came of it (`Draws`): their tokens
were handed out or wait in the queue, in order, and each line that has none was reported once. A
look ahead tells what will be handed out. The end is answered only where no line is left and no
token as far ahead, and after the end there is nothing but the end (`requests_answered`). Whether
the queue was filled early makes no difference to any answer (`Primed.exists_answers`).
-/

namespace TreeScript

namespace TokenStream

/-! ## Requests -/

/-- What can be asked of a stream. -/
inductive Request where
  /-- To hand out the next token. -/
  | read
  /-- To look at the token that is `n` tokens ahead. -/
  | peek (n : Nat)
deriving DecidableEq, Repr

/-- What the stream does when it is asked. -/
def Request.ask : Request → Action TokenStream ReadError Token
  | .read => TokenStream.read
  | .peek n => TokenStream.peek n

/-- How many tokens stand before the one that is asked for. -/
def Request.ahead : Request → Nat
  | .read => 0
  | .peek n => n

/-- Asks one thing after another and keeps the answers, errors too. -/
def askAll : List Request → Action TokenStream ReadError (List Item)
  | [] => pure []
  | request :: requests => do
      let answer ← request.ask.attempt
      return answer :: (← askAll requests)
termination_by structural requests => requests

/-- The tokens among items. -/
def tokensIn (items : List Item) : List Token := items.filterMap Except.toOption

/-- The errors among items. -/
def faultsIn (items : List Item) : List ReadError :=
  items.filterMap fun
    | .ok _ => none
    | .error cause => some cause

/-- The token that an answer hands out. To look ahead hands out nothing, and nor does the end. -/
def Request.handed : Request → Item → List Token
  | .read, .ok token => if token.isEndOfFile then [] else [token]
  | _, _ => []

/-- The tokens that the answers to requests hand out. -/
def handedOut (requests : List Request) (answers : List Item) : List Token :=
  (List.zipWith Request.handed requests answers).flatten

/-- How many lines of a source are text. -/
def textLines (source : Source) : Nat := source.countP (· != .garbled)

theorem foldl_lineNumber (source : Source) (number : Nat) :
    source.foldl lineNumber number = number + textLines source := by
  induction source generalizing number with
  | nil => rfl
  | cons line lines ih =>
      rw [List.foldl_cons, ih, textLines, textLines, List.countP_cons]
      cases line with
      | garbled => rfl
      | text content => exact Nat.succ_add_eq_add_succ number _

@[simp] theorem tokensIn_append (items items' : List Item) :
    tokensIn (items ++ items') = tokensIn items ++ tokensIn items' := List.filterMap_append

@[simp] theorem faultsIn_append (items items' : List Item) :
    faultsIn (items ++ items') = faultsIn items ++ faultsIn items' := List.filterMap_append

@[simp] theorem tokensIn_map_ok (tokens : List Token) : tokensIn (tokens.map .ok) = tokens := by
  rw [tokensIn, List.filterMap_map]
  exact List.filterMap_some

@[simp] theorem faultsIn_map_ok (tokens : List Token) : faultsIn (tokens.map .ok) = [] := by
  simp [faultsIn]

@[simp] theorem tokensIn_error (cause : ReadError) : tokensIn [.error cause] = [] := rfl

@[simp] theorem faultsIn_error (cause : ReadError) : faultsIn [.error cause] = [cause] := rfl

/-! ## Lines account for tokens and errors -/

/-- From `stream` to `stream'` some lines were taken, `handed` was handed out and `faults` were
reported. The lines account for it. -/
def Draws (stream : TokenStream) (handed : List Token) (faults : List ReadError)
    (stream' : TokenStream) : Prop :=
  ∃ taken, stream.pending = taken ++ stream'.pending ∧
    stream'.line = taken.foldl lineNumber stream.line ∧
    handed ++ stream'.queue = stream.queue ++ tokensIn (sourceItems stream.line taken) ∧
    faults = faultsIn (sourceItems stream.line taken)

section Draws

variable {s t u : TokenStream} {handed handed' : List Token} {faults faults' : List ReadError}

theorem draws_refl (s : TokenStream) : Draws s [] [] s :=
  ⟨[], rfl, rfl, (List.append_nil _).symm, rfl⟩

/-- What is handed out and the faults that are met add up. -/
theorem Draws.trans (h : Draws s handed faults t) (h' : Draws t handed' faults' u) :
    Draws s (handed ++ handed') (faults ++ faults') u := by
  obtain ⟨taken, hpending, hline, hqueue, rfl⟩ := h
  obtain ⟨taken', hpending', hline', hqueue', rfl⟩ := h'
  refine ⟨taken ++ taken', ?_, ?_, ?_, ?_⟩
  · rw [hpending, hpending', List.append_assoc]
  · rw [hline', hline, List.foldl_append]
  · rw [List.append_assoc, hqueue', ← List.append_assoc, hqueue, sourceItems_append, ← hline,
      tokensIn_append, List.append_assoc]
  · rw [sourceItems_append, ← hline, faultsIn_append]

/-- The first token of the queue is handed out. -/
theorem draws_pop {token : Token} {queue : List Token} (h : s.queue = token :: queue) :
    Draws s [token] [] { s with queue } :=
  ⟨[], rfl, rfl, by rw [h]; exact (List.append_nil _).symm, rfl⟩

/-- One line is taken. -/
theorem draws_line (queue : List Token) (line : Line) (rest : Source) (number : Nat) :
    Draws ⟨queue, line :: rest, number⟩ [] (faultsIn (lineItems number line))
      ⟨queue ++ tokensIn (lineItems number line), rest, lineNumber number line⟩ := by
  have hitems : sourceItems number [line] = lineItems number line := List.append_nil _
  exact ⟨[line], rfl, rfl, by rw [hitems]; rfl, by rw [hitems]⟩

end Draws

/-! ## Filling the queue -/

/-- The queue is long enough to look `n` tokens ahead, or there is no line to fill it. -/
def Filled (n : Nat) (stream : TokenStream) : Prop :=
  n < stream.queue.length ∨ stream.pending = []

theorem ends_fillFrom (n : Nat) : ∀ (source : Source) (queue : List Token) (line : Nat),
    fillFrom n source queue line ≠ .unfinished
  | [], _, _ => by simp [fillFrom]
  | .garbled :: rest, queue, line => by
      rw [fillFrom]
      split <;> simp
  | .text content :: rest, queue, line => by
      rw [fillFrom]
      cases ht : Token.tokenize content (line + 1) with
      | error fault => split <;> simp
      | ok tokens =>
          split
          · simp
          · exact fun hn => ends_fillFrom n rest _ (line + 1) (Outcome.eq_unfinished_of_after hn)

theorem ends_fill (n : Nat) (stream : TokenStream) : (fill n).Ends stream :=
  ends_fillFrom n stream.pending stream.queue stream.line

/-- Lines are taken until the queue is long enough, or up to the first that cannot be cut. -/
theorem draws_fillFrom (n : Nat) : ∀ (source : Source) (queue : List Token) (line : Nat),
    Action.Ensures (fun _ => fillFrom n source queue line) ⟨queue, source, line⟩
      (fun _ filled => Draws ⟨queue, source, line⟩ [] [] filled ∧ Filled n filled)
      fun cause filled => Draws ⟨queue, source, line⟩ [] [cause] filled
  | [], queue, line => ⟨draws_refl _, .inr rfl⟩
  | first :: rest, queue, line => by
      by_cases hn : n < queue.length
      · simp only [Action.Ensures, fillFrom, if_pos hn]
        exact ⟨draws_refl _, .inl hn⟩
      have htaken := draws_line queue first rest line
      cases first with
      | garbled =>
          simp only [Action.Ensures, fillFrom, if_neg hn]
          simpa only [lineItems, tokensIn_error, faultsIn_error, List.append_nil,
            lineNumber] using htaken
      | text content =>
          cases ht : Token.tokenize content (line + 1) with
          | error fault =>
              simp only [Action.Ensures, fillFrom, if_neg hn, ht]
              simpa only [lineItems, ht, tokensIn_error, faultsIn_error, List.append_nil,
                lineNumber] using htaken
          | ok tokens =>
              simp only [lineItems, ht, tokensIn_map_ok, faultsIn_map_ok, lineNumber,
                ← List.append_assoc] at htaken
              have ih := draws_fillFrom n rest (queue ++ tokens ++ [⟨.endOfLine, line + 1⟩])
                (line + 1)
              simp only [Action.Ensures, fillFrom, if_neg hn, ht] at ih ⊢
              cases hf : fillFrom n rest (queue ++ tokens ++ [⟨.endOfLine, line + 1⟩])
                (line + 1) with
              | value _ filled journal =>
                  rw [hf] at ih
                  exact ⟨htaken.trans ih.1, ih.2⟩
              | error cause filled journal =>
                  rw [hf] at ih
                  exact htaken.trans ih
              | unfinished => trivial

/-- Filling hands out nothing, and reaches the depth or meets a fault. -/
theorem draws_fill (n : Nat) (stream : TokenStream) :
    (fill n).Ensures stream (fun _ filled => Draws stream [] [] filled ∧ Filled n filled)
      fun cause filled => Draws stream [] [cause] filled :=
  draws_fillFrom n stream.pending stream.queue stream.line

/-! ## One request -/

theorem gives_fill {n : Nat} {stream : TokenStream} (h : Filled n stream) :
    (fill n).Gives stream () stream := by
  rcases h with h | h
  · exact ⟨[], fill_of_lt h⟩
  · exact ⟨[], fill_of_pending_nil h⟩

/-- A queue that is filled to the depth answers at once. -/
theorem gives_peek {n : Nat} {stream : TokenStream} (h : Filled n stream) :
    (peek n).Gives stream (stream.queue[n]?.getD stream.endOfFile) stream :=
  (gives_fill h).bind ⟨[], rfl⟩

theorem gives_read {stream : TokenStream} (h : Filled 0 stream) :
    read.Gives stream stream.pop.1 stream.pop.2 := (gives_fill h).bind ⟨[], rfl⟩

theorem Request.ends_ask (request : Request) (stream : TokenStream) :
    request.ask.Ends stream := by
  cases request with
  | read => exact (ends_fill 0 stream).bind fun _ _ => Action.ends_transition _
  | peek n => exact (ends_fill n stream).bind fun _ _ => Action.ends_view _

/-- After a look ahead that succeeds, the token stands in the queue or the source has ended. -/
theorem ensures_peek_filled (n : Nat) (stream : TokenStream) :
    (peek n).Ensures stream (fun token filled => Draws stream [] [] filled ∧ Filled n filled ∧
      token = filled.queue[n]?.getD filled.endOfFile) fun cause filled =>
        Draws stream [] [cause] filled := by
  rw [peek, Action.ensures_bind]
  exact (draws_fill n stream).mono (fun _ _ h => ⟨h.1, h.2, rfl⟩) fun _ _ h => h

/-- A request hands out the next token if it asks for that, and reports an error if it fails. -/
theorem Request.draws_ask (request : Request) {stream : TokenStream} (hp : stream.PlainQueue) :
    request.ask.Ensures stream
      (fun token stream' => Draws stream (request.handed (.ok token)) [] stream' ∧
        stream'.PlainQueue)
      fun cause stream' => Draws stream [] [cause] stream' ∧ stream'.PlainQueue := by
  cases request with
  | peek n =>
      rw [Request.ask, TokenStream.peek, Action.ensures_bind]
      refine ((draws_fill n stream).and (hp.ensures_fill n)).mono ?_ fun _ _ h => h
      rintro _ filled ⟨⟨hdraws, -⟩, hplain⟩
      exact ⟨hdraws, hplain⟩
  | read =>
      rw [Request.ask, TokenStream.read, Action.ensures_bind]
      refine ((draws_fill 0 stream).and (hp.ensures_fill 0)).mono ?_ fun _ _ h => h
      rintro _ filled ⟨⟨hdraws, -⟩, hplain⟩
      rw [Action.ensures_transition, pop]
      cases hq : filled.queue with
      | nil => exact ⟨hdraws, hplain⟩
      | cons token queue =>
          have hmem : token ∈ filled.queue := by rw [hq]; exact List.mem_cons_self
          have hend : token.isEndOfFile = false := (hplain token hmem).isEndOfFile_eq
          simp only [Request.handed, hend, Bool.false_eq_true, if_false]
          refine ⟨hdraws.trans (draws_pop hq), fun other ho => hplain other ?_⟩
          rw [hq]
          exact List.mem_cons_of_mem _ ho

/-- The end is answered only if no line is left and the queue is too short. -/
theorem Request.ended_of_gives (request : Request) {stream stream' : TokenStream} {token : Token}
    (hp : stream.PlainQueue) (h : request.ask.Gives stream token stream')
    (hend : token.isEndOfFile = true) :
    stream'.pending = [] ∧ stream'.queue.length ≤ request.ahead := by
  have hplain : ∀ {filled : TokenStream} {n : Nat} {other : Token}, filled.PlainQueue →
      filled.queue[n]? = some other → other.isEndOfFile = false :=
    fun hp hfound => (hp _ (List.mem_of_getElem? hfound)).isEndOfFile_eq
  cases request with
  | peek n =>
      obtain ⟨-, hfilled, htoken⟩ := (ensures_peek_filled n stream).of_gives h
      have hqueue := ((Request.peek n).draws_ask hp).of_gives h |>.2
      cases hfound : stream'.queue[n]? with
      | some other =>
          rw [htoken, hfound, Option.getD_some, hplain hqueue hfound] at hend
          cases hend
      | none =>
          have hshort := List.getElem?_eq_none_iff.1 hfound
          exact ⟨hfilled.resolve_left (Nat.not_lt_of_le hshort), hshort⟩
  | read =>
      obtain ⟨_, filled, hfill, journal, hpop⟩ := h.of_bind
      have htaken : filled.pop = (token, stream') := by
        cases hpop
        rfl
      have hfilled := ((draws_fill 0 stream).of_gives hfill).2
      have hqueue := (hp.ensures_fill 0).of_gives hfill
      cases hq : filled.queue with
      | nil =>
          rw [pop, hq] at htaken
          cases htaken
          rw [Filled, hq] at hfilled
          exact ⟨hfilled.resolve_left (Nat.not_lt_zero 0), by rw [hq]; exact Nat.zero_le _⟩
      | cons other queue =>
          rw [pop, hq] at htaken
          cases htaken
          have hfound : filled.queue[0]? = some token := by rw [hq]; rfl
          rw [hplain hqueue hfound] at hend
          cases hend

/-- What is handed out are the first tokens of a stream. -/
theorem Draws.tokensIn_items {s t : TokenStream} {handed : List Token} {faults : List ReadError}
    (h : Draws s handed faults t) : tokensIn s.items = handed ++ tokensIn t.items := by
  obtain ⟨taken, hpending, hline, hqueue, -⟩ := h
  simp only [items, tokensIn_append, tokensIn_map_ok]
  rw [hpending, sourceItems_append, ← hline, tokensIn_append, ← List.append_assoc, ← hqueue,
    List.append_assoc]

theorem Request.suffix_of_leads (request : Request) {s t : TokenStream} (hp : s.PlainQueue)
    (h : request.ask.Leads s t) : tokensIn t.items <:+ tokensIn s.items := by
  have hensures : request.ask.Ensures s (fun _ t => tokensIn t.items <:+ tokensIn s.items)
      fun _ t => tokensIn t.items <:+ tokensIn s.items :=
    (request.draws_ask hp).mono (fun _ _ hdraws => ⟨_, hdraws.1.tokensIn_items.symm⟩)
      fun _ _ hdraws => ⟨_, hdraws.1.tokensIn_items.symm⟩
  exact hensures.of_leads h

/-- The tokens of a stream are the last ones of its source. -/
theorem Reachable.exists_source {stream : TokenStream} (h : stream.Reachable) :
    ∃ source, tokensIn stream.items <:+ tokensIn (sourceItems 0 source) := by
  induction h with
  | ofSource source => exact ⟨source, List.suffix_rfl⟩
  | @peek n _ _ hr hleads ih =>
      obtain ⟨source, hsuffix⟩ := ih
      exact ⟨source, ((Request.peek n).suffix_of_leads hr.plainQueue hleads).trans hsuffix⟩
  | read hr hleads ih =>
      obtain ⟨source, hsuffix⟩ := ih
      exact ⟨source, (Request.read.suffix_of_leads hr.plainQueue hleads).trans hsuffix⟩

/-! ## Many requests -/

/-- Every sequence of requests is answered, and the lines that were taken account for it. -/
theorem exists_gives_askAll (requests : List Request) :
    ∀ {stream : TokenStream}, stream.PlainQueue → ∃ answers final,
      (askAll requests).Gives stream answers final ∧ answers.length = requests.length ∧
        Draws stream (handedOut requests answers) (faultsIn answers) final ∧ final.PlainQueue := by
  induction requests with
  | nil =>
      intro stream hp
      exact ⟨[], stream, Action.gives_pure _, rfl, draws_refl stream, hp⟩
  | cons request requests ih =>
      intro stream hp
      have hask := request.draws_ask hp
      rcases (request.ends_ask stream).gives_or_stops with ⟨token, middle, hx⟩ | ⟨cause, middle, hx⟩
      · obtain ⟨hdraws, hplain⟩ := hask.of_gives hx
        obtain ⟨answers, final, hall, hlength, hrest, hfinal⟩ := ih hplain
        refine ⟨.ok token :: answers, final, ?_, by rw [List.length_cons, hlength]; rfl,
          hdraws.trans hrest, hfinal⟩
        exact hx.attempt.bind (hall.bind (Action.gives_pure _))
      · obtain ⟨hdraws, hplain⟩ := hask.of_stops hx
        obtain ⟨answers, final, hall, hlength, hrest, hfinal⟩ := ih hplain
        refine ⟨.error cause :: answers, final, ?_, by rw [List.length_cons, hlength]; rfl, ?_,
          hfinal⟩
        · exact hx.attempt.bind (hall.bind (Action.gives_pure _))
        · have hnone : request.handed (.error cause) = [] := by cases request <;> rfl
          rw [handedOut, List.zipWith_cons_cons, List.flatten_cons, hnone]
          exact hdraws.trans hrest

/-! ## Filling the queue early -/

/-- The second stream is the first one, or what filling for one token makes of it. -/
def Primed (s t : TokenStream) : Prop := t = s ∨ (fill 0).Gives s () t

section Primed

variable {s t u : TokenStream}

theorem Primed.trans (h : Primed s t) (h' : Primed t u) : Primed s u := by
  rcases h with rfl | h
  · exact h'
  · rcases h' with rfl | h'
    · exact .inr h
    · have hfilled := ((draws_fill 0 s).of_gives h).2
      obtain ⟨-, rfl⟩ := h'.unique (gives_fill hfilled)
      exact .inr h

theorem Primed.items_eq (h : Primed s t) : t.items = s.items := by
  rcases h with rfl | ⟨journal, h⟩
  · rfl
  · rcases fill_zero s with ⟨-, hf⟩ | ⟨_, _, -, hf⟩ | ⟨_, _, hf, hi, -⟩
    · rw [hf] at h
      cases h
      rfl
    · rw [hf] at h
      cases h
    · rw [hf] at h
      cases h
      exact hi

/-- Filling for one token takes the line that any filling takes first. -/
theorem result?_fill_of_gives (h : (fill 0).Gives s () t) (n : Nat) :
    (fill n t).result? = (fill n s).result? := by
  obtain ⟨journal, h⟩ := h
  obtain ⟨queue, pending, line⟩ := s
  cases queue with
  | cons token queue =>
      rw [fill_of_lt (by simp)] at h
      cases h
      rfl
  | nil =>
      cases pending with
      | nil =>
          rw [fill_of_pending_nil rfl] at h
          cases h
          rfl
      | cons first rest =>
          cases first with
          | garbled => cases h
          | text content =>
              cases htokens : Token.tokenize content (line + 1) with
              | error fault => simp [fill, fillFrom, htokens] at h
              | ok tokens =>
                  have hone : fill 0 ⟨tokens ++ [⟨.endOfLine, line + 1⟩], rest, line + 1⟩ =
                      .value () ⟨tokens ++ [⟨.endOfLine, line + 1⟩], rest, line + 1⟩ [] :=
                    fill_of_lt (by simp)
                  simp only [fill] at hone
                  simp only [fill, fillFrom, htokens, List.length_nil, Nat.lt_irrefl, if_false,
                    List.nil_append, hone, Outcome.after] at h
                  cases h
                  simp [fill, fillFrom, htokens]

/-- A request does the same after the queue was filled for one token. -/
theorem Primed.result?_ask (h : Primed s t) (request : Request) :
    (request.ask t).result? = (request.ask s).result? := by
  rcases h with rfl | h
  · rfl
  · cases request with
    | read => exact Action.result?_bind_of_eq (result?_fill_of_gives h 0)
    | peek n => exact Action.result?_bind_of_eq (result?_fill_of_gives h n)

/-- Any requests are answered, one after the other. -/
theorem exists_answers (requests : List Request) (s : TokenStream) :
    ∃ answers u, (askAll requests).Gives s answers u := by
  induction requests generalizing s with
  | nil => exact ⟨[], s, Action.gives_pure _⟩
  | cons request requests ih =>
      rcases (request.ends_ask s).gives_or_stops with ⟨token, t, hx⟩ | ⟨cause, t, hx⟩
      · obtain ⟨answers, u, hall⟩ := ih t
        exact ⟨_, u, hx.attempt.bind (hall.bind (Action.gives_pure _))⟩
      · obtain ⟨answers, u, hall⟩ := ih t
        exact ⟨_, u, hx.attempt.bind (hall.bind (Action.gives_pure _))⟩

/-- No sequence of requests can tell whether the queue was filled for one token before. -/
theorem Primed.exists_answers (h : Primed s t) (requests : List Request) :
    ∃ answers u v, (askAll requests).Gives s answers u ∧ (askAll requests).Gives t answers v := by
  cases requests with
  | nil => exact ⟨[], s, t, Action.gives_pure _, Action.gives_pure _⟩
  | cons request requests =>
      have hresult := h.result?_ask request
      rcases (request.ends_ask s).gives_or_stops with ⟨token, middle, hs⟩ | ⟨cause, middle, hs⟩
      · have ht := Action.gives_iff.2 (hresult.trans (Action.gives_iff.1 hs))
        obtain ⟨answers, u, hall⟩ := TokenStream.exists_answers requests middle
        exact ⟨_, u, u, hs.attempt.bind (hall.bind (Action.gives_pure _)),
          ht.attempt.bind (hall.bind (Action.gives_pure _))⟩
      · have ht := Action.stops_iff.2 (hresult.trans (Action.stops_iff.1 hs))
        obtain ⟨answers, u, hall⟩ := TokenStream.exists_answers requests middle
        exact ⟨_, u, u, hs.attempt.bind (hall.bind (Action.gives_pure _)),
          ht.attempt.bind (hall.bind (Action.gives_pure _))⟩

end Primed

/-- Tokens that wait in the queue are handed out in order, and then the end if no line is left. -/
theorem gives_reads (k : Nat) : ∀ stream : TokenStream,
    (k ≤ stream.queue.length ∨ stream.pending = []) →
    (askAll (List.replicate k .read)).Gives stream
      ((List.range k).map fun i => .ok (stream.queue[i]?.getD stream.endOfFile))
      { stream with queue := stream.queue.drop k } := by
  induction k with
  | zero => exact fun _ _ => Action.gives_pure _
  | succ k ih =>
      intro stream h
      have hfilled : Filled 0 stream := h.imp_left (Nat.lt_of_lt_of_le (Nat.succ_pos k))
      have hread := gives_read hfilled
      rw [List.replicate_succ, List.range_succ_eq_map, List.map_cons, List.map_map]
      cases hq : stream.queue with
      | nil =>
          have hpop : stream.pop = (stream.endOfFile, stream) := by rw [pop, hq]
          have hpending : stream.pending = [] := by
            rcases h with h | h
            · rw [hq] at h
              cases h
            · exact h
          rw [hpop] at hread
          refine hread.attempt.bind (Action.Gives.bind (ih stream (.inr hpending)) ?_)
          rw [hq, List.drop_nil, List.drop_nil]
          exact Action.gives_pure _
      | cons token queue =>
          have hpop : stream.pop = (token, { stream with queue }) := by rw [pop, hq]
          have hqueue : k ≤ queue.length ∨ stream.pending = [] := by
            rw [hq] at h
            exact h.imp_left Nat.le_of_succ_le_succ
          rw [hpop] at hread
          exact hread.attempt.bind ((ih { stream with queue } hqueue).bind (Action.gives_pure _))

/-- A look ahead tells what reading up to there will hand out. -/
theorem exists_reads_of_peek {n : Nat} {stream stream' : TokenStream} {token : Token}
    (h : (peek n).Gives stream token stream') :
    ∃ later final, (askAll (List.replicate (n + 1) .read)).Gives stream' later final ∧
      later[n]? = some (.ok token) := by
  obtain ⟨-, hfilled, rfl⟩ := (ensures_peek_filled n stream).of_gives h
  refine ⟨_, _, gives_reads (n + 1) stream' hfilled, ?_⟩
  simp

/-- After the end every answer is the end. -/
theorem Ended.gives_askAll {stream : TokenStream} (h : stream.Ended) (requests : List Request) :
    (askAll requests).Gives stream (requests.map fun _ => .ok stream.endOfFile) stream := by
  induction requests with
  | nil => exact Action.gives_pure _
  | cons request requests ih =>
      have hask : request.ask.Gives stream stream.endOfFile stream := by
        cases request with
        | read =>
            have hread := gives_read (.inr h.2 : Filled 0 stream)
            rwa [pop, h.1] at hread
        | peek n =>
            have hpeek := gives_peek (.inr h.2 : Filled n stream)
            rwa [h.1] at hpeek
      exact hask.attempt.bind (ih.bind (Action.gives_pure _))

/-- However a stream of bytes is asked, nothing is lost, repeated or out of order. What was handed
out and what waits in the queue are the tokens of the lines taken so far, each line with the number
of lines of text up to it. Each line that has none is reported by one answer. A look ahead tells
what will be read. The end is answered only where no line is left and the queue does not reach as
far, and after the end every answer is the end, at the last line. -/
theorem requests_answered (bytes : ByteArray) (requests : List Request) :
    let source := Source.ofBytes bytes
    ∃ answers stream pulled,
      (askAll requests).Gives (ofSource source) answers stream ∧
      answers.length = requests.length ∧
      source = pulled ++ stream.pending ∧
      handedOut requests answers ++ stream.queue = tokensIn (sourceItems 0 pulled) ∧
      faultsIn answers = faultsIn (sourceItems 0 pulled) ∧
      (∀ n token stream', (peek n).Gives stream token stream' →
        ∃ later final, (askAll (List.replicate (n + 1) .read)).Gives stream' later final ∧
          later[n]? = some (.ok token)) ∧
      (∀ (request : Request) token stream', request.ask.Gives stream token stream' →
        token.isEndOfFile = true →
          stream'.pending = [] ∧ stream'.queue.length ≤ request.ahead) ∧
      (stream.Ended → ∀ more, (askAll more).Gives stream
        (more.map fun _ => .ok ⟨.endOfFile, textLines source⟩) stream) := by
  intro source
  have hplain := (Reachable.ofSource source).plainQueue
  obtain ⟨answers, stream, hall, hlength, ⟨pulled, hsource, hline, htokens, hfaults⟩, hfinal⟩ :=
    exists_gives_askAll requests hplain
  refine ⟨answers, stream, pulled, hall, hlength, hsource, htokens, hfaults,
    fun n token stream' h => exists_reads_of_peek h,
    fun request token stream' h hend => request.ended_of_gives hfinal h hend,
    fun hended more => ?_⟩
  have hpulled : source = pulled := by
    have hsplit : source = pulled ++ stream.pending := hsource
    rwa [hended.2, List.append_nil] at hsplit
  have hend : stream.endOfFile = ⟨.endOfFile, textLines source⟩ := by
    rw [endOfFile, hline, foldl_lineNumber, hpulled]
    exact congrArg _ (Nat.zero_add _)
  rw [← hend]
  exact hended.gives_askAll more

end TokenStream

end TreeScript
