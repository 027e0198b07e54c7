import TreeScript.Grammar.Parse
import TreeScript.Proofs.Action
import TreeScript.Proofs.Token

/-!
# What a token stream holds

A stream is lazy, but what it will hand out is fixed: `items` lists it, a token or a
fault at a time, and nothing after the last line. Looking ahead does not change this
list, taking a token takes its head, and a fault is its head and is used up when it is
met.

A parser never gets past a fault. So it sees the tokens before the first fault, and
then either the fault or the end of the source. `Shows` splits the list there.
`Sees` is what the parser sees next, where the end of the source counts as a token.
-/

namespace TreeScript

namespace TokenStream

/-! ## Items -/

/-- A token, or why there is none. -/
abbrev Item := Except ReadError Token

/-- What comes out of a line, after `number` lines that were text. -/
def lineItems (number : Nat) : Line → List Item
  | .garbled => [.error .garbled]
  | .text content =>
      match Token.tokenize content (number + 1) with
      | .error fault => [.error (.badToken fault)]
      | .ok tokens => (tokens ++ [Token.mk .endOfLine (number + 1)]).map .ok

/-- The number of lines that were text, after one more line. -/
def lineNumber (number : Nat) : Line → Nat
  | .garbled => number
  | .text _ => number + 1

/-- What comes out of a source, after `number` lines that were text. -/
def sourceItems (number : Nat) : Source → List Item
  | [] => []
  | line :: lines => lineItems number line ++ sourceItems (lineNumber number line) lines
termination_by structural lines => lines

/-- What the stream will hand out. -/
def items (stream : TokenStream) : List Item :=
  stream.queue.map .ok ++ sourceItems stream.line stream.pending

/-- Nothing is left in the stream. -/
def Ended (stream : TokenStream) : Prop := stream.queue = [] ∧ stream.pending = []

theorem Ended.items_eq {stream : TokenStream} (h : stream.Ended) : stream.items = [] := by
  simp [items, h.1, h.2, sourceItems]

/-! ## Filling the queue -/

/-- Filling for one token stops at once, meets the end, or takes one line. -/
theorem fill_zero (stream : TokenStream) :
    (stream.Ended ∧ fill 0 stream = .value () stream []) ∨
    (∃ fault rest, stream.items = .error fault :: rest.items ∧
      fill 0 stream = .error fault rest []) ∨
    (∃ filled journal, fill 0 stream = .value () filled journal ∧
      filled.items = stream.items ∧ filled.queue ≠ []) := by
  obtain ⟨queue, pending, line⟩ := stream
  cases queue with
  | cons token queue =>
      refine .inr (.inr ⟨_, [], fill_of_lt (by simp), rfl, by simp⟩)
  | nil =>
      cases pending with
      | nil => exact .inl ⟨⟨rfl, rfl⟩, fill_of_pending_nil rfl⟩
      | cons first rest =>
          cases first with
          | garbled =>
              refine .inr (.inl ⟨.garbled, ⟨[], rest, line⟩, ?_, ?_⟩)
              · simp [items, sourceItems, lineItems, lineNumber]
              · simp [fill, fillFrom]
          | text content =>
              cases ht : Token.tokenize content (line + 1) with
              | error fault =>
                  refine .inr (.inl ⟨.badToken fault, ⟨[], rest, line + 1⟩, ?_, ?_⟩)
                  · simp [items, sourceItems, lineItems, lineNumber, ht]
                  · simp [fill, fillFrom, ht]
              | ok tokens =>
                  let filled : TokenStream := ⟨tokens ++ [⟨.endOfLine, line + 1⟩], rest, line + 1⟩
                  have hf : fill 0 filled = .value () filled [] := fill_of_lt (by simp [filled])
                  simp only [fill, filled] at hf
                  refine .inr (.inr ⟨filled, [.scanned (line + 1) tokens.length], ?_, ?_, ?_⟩)
                  · simp only [fill, fillFrom, ht, List.length_nil, Nat.lt_irrefl, if_false,
                      List.nil_append, hf, Outcome.after, Outcome.joined, filled]
                  · simp [items, sourceItems, lineItems, lineNumber, ht, filled]
                  · simp [filled]

/-- Filling takes one line after the other, so it ends. -/
theorem ends_fill_zero (stream : TokenStream) : (fill 0).Ends stream := by
  unfold Action.Ends
  rcases fill_zero stream with ⟨-, hf⟩ | ⟨fault, rest, -, hf⟩ | ⟨filled, journal, hf, -⟩
  · simp [hf]
  · simp [hf]
  · simp [hf]

/-! ## Tokens before the first fault -/

/-- The stream shows `tokens`, and after them it has ended or meets a fault. -/
def Shows (stream : TokenStream) (tokens : List Token) (tail : List Item) : Prop :=
  stream.items = tokens.map .ok ++ tail ∧ ∀ token rest, tail ≠ .ok token :: rest

theorem exists_tokens_append (items : List Item) : ∃ (tokens : List Token) (tail : List Item),
    items = tokens.map .ok ++ tail ∧ ∀ token rest, tail ≠ .ok token :: rest := by
  induction items with
  | nil => exact ⟨[], [], rfl, by simp⟩
  | cons item items ih =>
      cases item with
      | error fault => exact ⟨[], .error fault :: items, rfl, by simp⟩
      | ok token =>
          obtain ⟨tokens, tail, hi, ht⟩ := ih
          exact ⟨token :: tokens, tail, by simp [hi], ht⟩

/-- Every stream shows some tokens, up to a fault or the end. -/
theorem exists_shows (stream : TokenStream) : ∃ tokens tail, stream.Shows tokens tail :=
  exists_tokens_append stream.items

theorem shows_of_items_eq {stream : TokenStream} {tokens : List Token}
    (h : stream.items = tokens.map .ok) : stream.Shows tokens [] :=
  ⟨by simpa using h, by simp⟩

theorem Shows.tokens_eq {stream : TokenStream} {tokens tokens' : List Token} {tail : List Item}
    (h : stream.Shows tokens tail) (h' : stream.Shows tokens' tail) : tokens = tokens' := by
  have hitems := List.append_cancel_right (h.1.symm.trans h'.1)
  exact (List.map_inj_right fun _ _ he => Except.ok.inj he).1 hitems

/-- After the tokens comes the end or a fault. -/
theorem Shows.tail_cases {stream : TokenStream} {tokens : List Token} {tail : List Item}
    (h : stream.Shows tokens tail) : tail = [] ∨ ∃ fault rest, tail = .error fault :: rest := by
  cases tail with
  | nil => exact .inl rfl
  | cons item rest =>
      cases item with
      | error fault => exact .inr ⟨fault, rest, rfl⟩
      | ok token => exact absurd rfl (h.2 token rest)

/-- The next token of a parser that still has `tokens` before it. -/
def Sees (tokens : List Token) (token : Token) : Prop :=
  (∃ rest, tokens = token :: rest) ∨ (tokens = [] ∧ ∃ line, token = ⟨.endOfFile, line⟩)

/-- After filling for one token the queue has one, unless the stream has ended. -/
theorem ensures_fill_zero {stream : TokenStream} {tokens : List Token} {tail : List Item}
    (h : stream.Shows tokens tail) :
    (fill 0).Ensures stream
      (fun _ filled => filled.Shows tokens tail ∧ (tokens = [] → tail = []) ∧
        (filled.queue = [] → tokens = []))
      (fun cause _ => tokens = [] ∧ ∃ rest, tail = .error cause :: rest) := by
  obtain ⟨hi, ht⟩ := h
  unfold Action.Ensures
  rcases fill_zero stream with ⟨he, hf⟩ | ⟨cause, rest, hs, hf⟩ | ⟨filled, journal, hf, hs, hq⟩
  · rw [hf]
    rw [he.items_eq] at hi
    obtain ⟨h₁, rfl⟩ := List.append_eq_nil_iff.1 hi.symm
    obtain rfl := List.map_eq_nil_iff.1 h₁
    exact ⟨⟨he.items_eq, ht⟩, fun _ => rfl, fun _ => rfl⟩
  · rw [hf]
    rw [hs] at hi
    cases tokens with
    | nil => exact ⟨rfl, _, hi.symm⟩
    | cons token tokens => simp at hi
  · rw [hf]
    refine ⟨⟨hs.trans hi, ht⟩, ?_, fun hn => absurd hn hq⟩
    rintro rfl
    cases hqueue : filled.queue with
    | nil => exact absurd hqueue hq
    | cons token queue =>
        rw [← hs, items, hqueue] at hi
        exact absurd hi.symm (ht token _)

/-- No more comes out of a line than its bound allows. -/
theorem length_lineItems_le (number : Nat) (line : Line) :
    (lineItems number line).length ≤ lineBound line := by
  cases line with
  | garbled => simp [lineItems, lineBound]
  | text content =>
      simp only [lineItems, lineBound]
      cases ht : Token.tokenize content (number + 1) with
      | error fault => simp
      | ok tokens => simpa using Token.length_le_of_tokenize ht

theorem length_sourceItems_le (number : Nat) (source : Source) :
    (sourceItems number source).length ≤ sourceBound source := by
  induction source generalizing number with
  | nil => exact Nat.le_refl _
  | cons line lines ih =>
      have hl := length_lineItems_le number line
      have hs := ih (lineNumber number line)
      simp only [sourceItems, sourceBound, List.length_append]
      omega

/-- The bound counts all tokens that may still come. -/
theorem length_items_le_bound (stream : TokenStream) : stream.items.length ≤ stream.bound := by
  have hs := length_sourceItems_le stream.line stream.pending
  simp only [items, bound, List.length_append, List.length_map]
  omega

theorem Shows.length_le_bound {stream : TokenStream} {tokens : List Token} {tail : List Item}
    (h : stream.Shows tokens tail) : tokens.length ≤ stream.bound := by
  have hi := congrArg List.length h.1
  have hb := length_items_le_bound stream
  simp only [List.length_append, List.length_map] at hi
  omega

/-- The head of the queue is the first token that is shown. The queue is not empty, so the items
begin with a token. -/
theorem Shows.sees_queue_head {stream : TokenStream} {tokens : List Token} {tail : List Item}
    (h : stream.Shows tokens tail) {token : Token} {queue : List Token}
    (hq : stream.queue = token :: queue) : ∃ rest, tokens = token :: rest := by
  obtain ⟨hi, ht⟩ := h
  rw [items, hq] at hi
  cases tokens with
  | nil => exact absurd hi.symm (ht token _)
  | cons token' rest =>
      simp only [List.map_cons, List.cons_append, List.cons.injEq, Except.ok.injEq] at hi
      exact ⟨rest, by rw [hi.1]⟩

theorem Shows.pop {stream : TokenStream} {tokens : List Token} {tail : List Item}
    (h : stream.Shows tokens tail) {token : Token} {queue : List Token}
    (hq : stream.queue = token :: queue) :
    ({ stream with queue } : TokenStream).Shows tokens.tail tail := by
  obtain ⟨rest, rfl⟩ := h.sees_queue_head hq
  obtain ⟨hi, ht⟩ := h
  rw [items, hq] at hi
  simp only [List.map_cons, List.cons_append, List.cons.injEq] at hi
  exact ⟨hi.2, ht⟩

/-! ## Sources -/

/-- The items of more lines come after the others, under the line numbers that follow. -/
theorem sourceItems_append (source more : Source) (number : Nat) :
    sourceItems number (source ++ more) =
      sourceItems number source ++ sourceItems (source.foldl lineNumber number) more := by
  induction source generalizing number with
  | nil => rfl
  | cons line lines ih => simp [sourceItems, ih]

theorem items_ofSource (source : Source) : (ofSource source).items = sourceItems 0 source := rfl

/-- The last thing that comes out of a line is its end, or a fault. -/
theorem isEndOfLine_of_getLast_lineItems {number : Nat} {line : Line} {token : Token}
    (h : (lineItems number line).getLast? = some (.ok token)) : token.isEndOfLine = true := by
  cases line with
  | garbled => simp [lineItems] at h
  | text content =>
      simp only [lineItems] at h
      cases ht : Token.tokenize content (number + 1) with
      | error fault => simp [ht] at h
      | ok tokens =>
          simp only [ht, List.map_append, List.map_cons, List.map_nil, List.getLast?_concat,
            Option.some.injEq, Except.ok.injEq] at h
          rw [← h]
          rfl

/-- The last token of a line is the end of it. -/
theorem isEndOfLine_of_getLast_sourceItems {source : Source} {number : Nat} {token : Token}
    (h : (sourceItems number source).getLast? = some (.ok token)) : token.isEndOfLine = true := by
  induction source generalizing number with
  | nil => simp [sourceItems] at h
  | cons line lines ih =>
      rw [sourceItems, List.getLast?_append] at h
      cases hlast : (sourceItems (lineNumber number line) lines).getLast? with
      | none =>
          rw [hlast, Option.none_or] at h
          exact isEndOfLine_of_getLast_lineItems h
      | some item =>
          rw [hlast, Option.some_or] at h
          exact ih (hlast.trans h)

/-! ## Streams of sources -/

/-- The streams that one gets from a source by looking ahead and by taking tokens. -/
inductive Reachable : TokenStream → Prop where
  /-- The stream of a source. -/
  | ofSource (source : Source) : Reachable (ofSource source)
  /-- After a look ahead. -/
  | peek {n : Nat} {stream stream' : TokenStream} :
      Reachable stream → (TokenStream.peek n).Leads stream stream' → Reachable stream'
  /-- After a token is taken. -/
  | read {stream stream' : TokenStream} :
      Reachable stream → TokenStream.read.Leads stream stream' → Reachable stream'

/-- The tokens in the queue are plain. -/
def PlainQueue (stream : TokenStream) : Prop := ∀ token ∈ stream.queue, token.Plain

theorem plain_endOfLine (line : Nat) : Token.Plain ⟨.endOfLine, line⟩ := ⟨by simp, by simp⟩

/-- Scanned tokens are plain, and so are those in the queue. -/
theorem ensures_fillFrom (n : Nat) : ∀ (source : Source) (queue : List Token) (line : Nat),
    (∀ token ∈ queue, token.Plain) →
    Action.Ensures (fun _ => fillFrom n source queue line) ⟨queue, source, line⟩
      (fun _ filled => filled.PlainQueue) fun _ filled => filled.PlainQueue
  | [], _, _, h => h
  | .garbled :: rest, queue, line, h => by
      by_cases hn : n < queue.length
      · simp only [Action.Ensures, fillFrom, if_pos hn]
        exact h
      · simp only [Action.Ensures, fillFrom, if_neg hn]
        exact h
  | .text content :: rest, queue, line, h => by
      by_cases hn : n < queue.length
      · simp only [Action.Ensures, fillFrom, if_pos hn]
        exact h
      · cases ht : Token.tokenize content (line + 1) with
        | error fault =>
            simp only [Action.Ensures, fillFrom, if_neg hn, ht]
            exact h
        | ok tokens =>
            have hplain : ∀ token ∈ queue ++ tokens ++ [⟨.endOfLine, line + 1⟩], token.Plain := by
              intro token hmem
              simp only [List.mem_append, List.mem_singleton] at hmem
              rcases hmem with (hmem | hmem) | rfl
              · exact h token hmem
              · exact Token.plain_of_tokenize ht token hmem
              · exact plain_endOfLine _
            have ih := ensures_fillFrom n rest _ (line + 1) hplain
            simp only [Action.Ensures, fillFrom, if_neg hn, ht] at ih ⊢
            cases hf : fillFrom n rest (queue ++ tokens ++ [⟨.endOfLine, line + 1⟩]) (line + 1) with
            | value a filled journal =>
                rw [hf] at ih
                exact ih
            | error e filled journal =>
                rw [hf] at ih
                exact ih
            | unfinished => trivial

theorem PlainQueue.ensures_fill {stream : TokenStream} (h : stream.PlainQueue) (n : Nat) :
    (fill n).Ensures stream (fun _ filled => filled.PlainQueue) fun _ filled => filled.PlainQueue :=
  ensures_fillFrom n stream.pending stream.queue stream.line h

/-- No stream of a source holds a token that could be taken for the end of a line or of the
source. -/
theorem Reachable.plainQueue {stream : TokenStream} (h : stream.Reachable) : stream.PlainQueue := by
  induction h with
  | ofSource source =>
      intro token hmem
      cases hmem
  | @peek n stream stream' _ hleads ih =>
      refine Action.Ensures.of_leads ?_ hleads
      rw [TokenStream.peek, Action.ensures_bind]
      exact (ih.ensures_fill n).mono (fun _ _ hp => hp) (fun _ _ hp => hp)
  | @read stream stream' _ hleads ih =>
      refine Action.Ensures.of_leads ?_ hleads
      rw [TokenStream.read, Action.ensures_bind]
      refine (ih.ensures_fill 0).mono ?_ (fun _ _ hp => hp)
      intro _ filled hp
      rw [Action.ensures_transition, pop]
      cases hq : filled.queue with
      | nil => exact hp
      | cons first queue =>
          intro token hmem
          exact hp token (by rw [hq]; exact List.mem_cons_of_mem _ hmem)

/-- What holds of every token that is cut from a line, and of the ends of lines, holds of the tokens
of a source. -/
theorem forall_mem_sourceItems {P : Token → Prop}
    (hcut : ∀ content line tokens, Token.tokenize content line = .ok tokens →
      ∀ token ∈ tokens, P token)
    (hend : ∀ line, P ⟨.endOfLine, line⟩) {source : Source} {number : Nat} {token : Token}
    (h : .ok token ∈ sourceItems number source) : P token := by
  induction source generalizing number with
  | nil => cases h
  | cons line lines ih =>
      simp only [sourceItems, List.mem_append] at h
      rcases h with h | h
      · cases line with
        | garbled => simp [lineItems] at h
        | text content =>
            simp only [lineItems] at h
            cases ht : Token.tokenize content (number + 1) with
            | error fault => simp [ht] at h
            | ok tokens =>
                simp only [ht, List.mem_map, List.mem_append, List.mem_singleton] at h
                obtain ⟨_, hmem | rfl, hok⟩ := h
                · cases hok
                  exact hcut _ _ _ ht token hmem
                · cases hok
                  exact hend _
      · exact ih h

theorem plain_of_mem_sourceItems {source : Source} {number : Nat} {token : Token}
    (h : .ok token ∈ sourceItems number source) : token.Plain :=
  forall_mem_sourceItems (fun _ _ _ => Token.plain_of_tokenize) plain_endOfLine h

theorem PlainQueue.plain_of_shows {stream : TokenStream} (h : stream.PlainQueue)
    {tokens : List Token} {tail : List Item} (hs : stream.Shows tokens tail) :
    ∀ token ∈ tokens, token.Plain := by
  intro token hmem
  have hitem : .ok token ∈ stream.items := by
    rw [hs.1]
    exact List.mem_append_left _ (List.mem_map_of_mem hmem)
  rcases List.mem_append.1 hitem with hq | hp
  · obtain ⟨token', hq, hok⟩ := List.mem_map.1 hq
    cases hok
    exact h token hq
  · exact plain_of_mem_sourceItems hp

end TokenStream

namespace Grammar

open TokenStream

variable {stream : TokenStream} {tokens : List Token} {tail : List Item}
variable {Q : Token → TokenStream → Prop} {E : ParseError → TokenStream → Prop}

/-- A look at the next token leaves the stream as it is. -/
theorem ensures_peek (h : stream.Shows tokens tail)
    (seen : ∀ token stream', Sees tokens token → (tokens = [] → tail = []) →
      stream'.Shows tokens tail → Q token stream')
    (fault : ∀ cause rest stream', tokens = [] → tail = .error cause :: rest →
      E (.read cause) stream') :
    (peek 0).Ensures stream Q E := by
  rw [peek, TokenStream.peek, Action.ensures_mapError, Action.ensures_bind]
  refine (ensures_fill_zero h).mono ?_ ?_
  · rintro _ filled ⟨hs, htail, hqueue⟩
    rw [Action.ensures_view]
    cases hq : filled.queue with
    | nil =>
        obtain rfl := hqueue hq
        exact seen _ _ (.inr ⟨rfl, filled.line, rfl⟩) htail hs
    | cons token queue => exact seen _ _ (.inl (hs.sees_queue_head hq)) htail hs
  · rintro cause stream' ⟨hn, rest, ht⟩
    exact fault cause rest stream' hn ht

/-- Taking the next token leaves the rest. -/
theorem ensures_next (h : stream.Shows tokens tail)
    (seen : ∀ token stream', Sees tokens token → (tokens = [] → tail = []) →
      stream'.Shows tokens.tail tail → Q token stream')
    (fault : ∀ cause rest stream', tokens = [] → tail = .error cause :: rest →
      E (.read cause) stream') :
    next.Ensures stream Q E := by
  rw [next, TokenStream.read, Action.ensures_mapError, Action.ensures_bind]
  refine (ensures_fill_zero h).mono ?_ ?_
  · rintro _ filled ⟨hs, htail, hqueue⟩
    rw [Action.ensures_transition]
    cases hq : filled.queue with
    | nil =>
        obtain rfl := hqueue hq
        simp only [pop, hq]
        exact seen _ _ (.inr ⟨rfl, filled.line, rfl⟩) htail hs
    | cons token queue =>
        simp only [pop, hq]
        exact seen _ _ (.inl (hs.sees_queue_head hq)) htail (hs.pop hq)
  · rintro cause stream' ⟨hn, rest, ht⟩
    exact fault cause rest stream' hn ht

theorem ends_peek : (peek 0).Ends stream := by
  rw [peek, TokenStream.peek, Action.ends_mapError]
  exact (ends_fill_zero stream).bind fun _ _ => Action.ends_view _

theorem ends_next : next.Ends stream := by
  rw [next, TokenStream.read, Action.ends_mapError]
  exact (ends_fill_zero stream).bind fun _ _ => Action.ends_transition _

/-! ## Known outcomes -/

theorem exists_gives_peek {token : Token} {rest : List Token}
    (h : stream.Shows (token :: rest) tail) :
    ∃ stream', (peek 0).Gives stream token stream' ∧ stream'.Shows (token :: rest) tail := by
  have he : (peek 0).Ensures stream
      (fun token' stream' => token' = token ∧ stream'.Shows (token :: rest) tail)
      fun _ _ => False := by
    refine ensures_peek h ?_ (fun _ _ _ hn => by cases hn)
    rintro token' stream' (⟨rest', hr⟩ | ⟨hn, -⟩) _ hs
    · cases hr
      exact ⟨rfl, hs⟩
    · cases hn
  obtain ⟨_, stream', hg, rfl, hs⟩ := he.exists_gives ends_peek
  exact ⟨stream', hg, hs⟩

/-- At the end of a source a peek sees the end. -/
theorem exists_gives_peek_end (h : stream.Shows [] []) :
    ∃ line stream', (peek 0).Gives stream ⟨.endOfFile, line⟩ stream' := by
  have he : (peek 0).Ensures stream (fun token _ => ∃ line, token = ⟨.endOfFile, line⟩)
      fun _ _ => False := by
    refine ensures_peek h ?_ (fun _ _ _ _ ht => by cases ht)
    rintro token stream' (⟨rest, hr⟩ | ⟨-, line, hl⟩) _ _
    · cases hr
    · exact ⟨line, hl⟩
  obtain ⟨_, stream', hg, line, rfl⟩ := he.exists_gives ends_peek
  exact ⟨line, stream', hg⟩

theorem exists_gives_next {token : Token} {rest : List Token}
    (h : stream.Shows (token :: rest) tail) :
    ∃ stream', next.Gives stream token stream' ∧ stream'.Shows rest tail := by
  have he : next.Ensures stream (fun token' stream' => token' = token ∧ stream'.Shows rest tail)
      fun _ _ => False := by
    refine ensures_next h ?_ (fun _ _ _ hn => by cases hn)
    rintro token' stream' (⟨rest', hr⟩ | ⟨hn, -⟩) _ hs
    · cases hr
      exact ⟨rfl, hs⟩
    · cases hn
  obtain ⟨_, stream', hg, rfl, hs⟩ := he.exists_gives ends_next
  exact ⟨stream', hg, hs⟩

/-- A peek at a fault stops with it. -/
theorem exists_stops_peek {cause : ReadError} {others : List Item}
    (h : stream.Shows [] (.error cause :: others)) :
    ∃ stream', (peek 0).Stops stream (.read cause) stream' := by
  have he : (peek 0).Ensures stream (fun _ _ => False) fun e _ => e = .read cause := by
    refine ensures_peek h (fun _ _ _ hn _ => by cases hn rfl) ?_
    intro cause' rest stream' _ ht
    cases ht
    rfl
  rcases ends_peek.gives_or_stops with ⟨_, _, hg⟩ | ⟨e, stream', hs⟩
  · exact (he.of_gives hg).elim
  · obtain rfl := he.of_stops hs
    exact ⟨stream', hs⟩

theorem exists_stops_next {cause : ReadError} {others : List Item}
    (h : stream.Shows [] (.error cause :: others)) :
    ∃ stream', next.Stops stream (.read cause) stream' := by
  have he : next.Ensures stream (fun _ _ => False) fun e _ => e = .read cause := by
    refine ensures_next h (fun _ _ _ hn _ => by cases hn rfl) ?_
    intro cause' rest stream' _ ht
    cases ht
    rfl
  rcases ends_next.gives_or_stops with ⟨_, _, hg⟩ | ⟨e, stream', hs⟩
  · exact (he.of_gives hg).elim
  · obtain rfl := he.of_stops hs
    exact ⟨stream', hs⟩

end Grammar

end TreeScript
