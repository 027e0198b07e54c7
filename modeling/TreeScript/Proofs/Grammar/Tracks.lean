import TreeScript.Proofs.Grammar.Relined

/-!
# Parsers that track each other

A parser uses up items from the front of its stream and looks at one more. `Local` says so of what
happens from one stream to another: it also happens on every stream that begins with the same used
items and then shows the same next one.

`TracksOn` compares a parser with another one that works within a larger budget. Where the first one
ends, the second one does the same, locally. Conversely, on some streams the first one ends where
the second one does. These are the streams whose items are left over of `whole` and are fewer than
`k`, so that a repetition which takes an item in each turn ends within a budget of `k`. With `k = 0`
the converse says nothing.

The comparison goes up from the steps of a parser to its rules (`tracks_parseRule`). A turn of a
repetition that takes no item would be followed by another one for ever, so there is none where the
larger budget is enough.
-/

namespace TreeScript

namespace Grammar

open TokenStream

variable {α β : Type}

/-! ## Local events -/

/-- From `s` to `t` some items are used up. The same happens on every stream that begins with them
and then shows the next item of `t`, and it uses up no more. -/
def Local (happens : TokenStream → TokenStream → Prop) (s t : TokenStream) : Prop :=
  ∃ used, s.items = used ++ t.items ∧ ∀ s' rest, s'.items = used ++ rest →
    rest.head? = t.items.head? → ∃ t', happens s' t' ∧ t'.items = rest

section Local

variable {R S T : TokenStream → TokenStream → Prop} {s t u : TokenStream}

theorem local_refl (h : ∀ s, R s s) (s : TokenStream) : Local R s s :=
  ⟨[], rfl, fun s' _ hi _ => ⟨s', h s', hi⟩⟩

/-- What the first event looks at next is used up by the second, or is what that one looks at. -/
theorem Local.trans (h : Local R s t) (h' : Local S t u)
    (hT : ∀ s t u, R s t → S t u → T s u) : Local T s u := by
  obtain ⟨used, hi, h⟩ := h
  obtain ⟨used', hi', h'⟩ := h'
  refine ⟨used ++ used', by rw [hi, hi', List.append_assoc], fun s' rest hs' hrest => ?_⟩
  have hahead : (used' ++ rest).head? = t.items.head? := by
    rw [hi', List.head?_append, List.head?_append, hrest]
  obtain ⟨t', hR, ht'⟩ := h s' (used' ++ rest) (by rw [hs', List.append_assoc]) hahead
  obtain ⟨u', hS, hu'⟩ := h' t' rest ht' hrest
  exact ⟨u', hT s' t' u' hR hS, hu'⟩

theorem Local.mono (h : Local R s t) (hT : ∀ s t, R s t → T s t) : Local T s t :=
  h.trans (local_refl (fun _ => rfl) t) fun s t _ hR (htu : t = _) => htu ▸ hT s t hR

/-- What is left is a suffix. -/
theorem Local.suffix (h : Local R s t) : t.items <:+ s.items := by
  obtain ⟨used, hi, -⟩ := h
  exact ⟨used, hi.symm⟩

/-- What happens also happens on a stream that hands out the same. -/
theorem Local.of_items_eq (h : Local R s t) {s' : TokenStream} (hs : s'.items = s.items) :
    ∃ t', R s' t' ∧ t'.items = t.items := by
  obtain ⟨used, hi, h⟩ := h
  exact h s' t.items (hs.trans hi) rfl

end Local

/-! ## Parsers that track each other -/

/-- The items are left over of `whole`, and there are fewer than `k`. -/
def Within (whole : List Item) (k : Nat) (items : List Item) : Prop :=
  items <:+ whole ∧ items.length < k

theorem Within.suffix {whole items rest : List Item} {k : Nat} (h : Within whole k items)
    (hrest : rest <:+ items) : Within whole k rest :=
  ⟨hrest.trans h.1, Nat.lt_of_le_of_lt hrest.length_le h.2⟩

/-- From every stream whose items meet `C`, the second parser does what the first one does. Within
`whole` and `k` the first one ends where the second one does. -/
structure TracksOn (C : List Item → Prop) (whole : List Item) (k : Nat) (x y : Parser α) :
    Prop where
  /-- The second parser does what the first one does. -/
  does : ∀ s, C s.items → x.Ensures s (fun a => Local (fun s' t' => y.Gives s' a t') s)
    fun e => Local (fun s' t' => y.Stops s' e t') s
  /-- The first parser ends where the second one does. -/
  ends : ∀ s s', s'.items = s.items → C s.items → Within whole k s.items → y.Ends s' → x.Ends s

/-- The second parser tracks the first one on every stream. -/
abbrev Tracks (whole : List Item) (k : Nat) (x y : Parser α) : Prop :=
  TracksOn (fun _ => True) whole k x y

section Steps

variable {C : List Item → Prop} {whole : List Item} {k : Nat} {x y : Parser α}
variable {p q : α → Parser β} {s t : TokenStream}

theorem TracksOn.mono {C' : List Item → Prop} {k' : Nat} (h : TracksOn C whole k x y)
    (hC : ∀ items, C' items → C items) (hk : k' ≤ k) : TracksOn C' whole k' x y :=
  ⟨fun s hs => h.does s (hC _ hs), fun s s' hi hs hw =>
    h.ends s s' hi (hC _ hs) ⟨hw.1, Nat.lt_of_lt_of_le hw.2 hk⟩⟩

theorem Tracks.on (h : Tracks whole k x y) : TracksOn C whole k x y :=
  h.mono (fun _ _ => trivial) (Nat.le_refl k)

/-- A value of the first parser is a local event of the second one. -/
theorem TracksOn.of_gives {a : α} (h : TracksOn C whole k x y) (hs : C s.items)
    (hx : x.Gives s a t) : Local (fun s' t' => y.Gives s' a t') s t := (h.does s hs).of_gives hx

/-- An error of the first parser is a local event of the second one. -/
theorem TracksOn.of_stops {e : ParseError} (h : TracksOn C whole k x y) (hs : C s.items)
    (hx : x.Stops s e t) : Local (fun s' t' => y.Stops s' e t') s t := (h.does s hs).of_stops hx

/-- Where the first parser ends, so does the second one. -/
theorem TracksOn.ends_of_ends (h : TracksOn C whole k x y) (hs : C s.items) {s' : TokenStream}
    (hi : s'.items = s.items) (hx : x.Ends s) : y.Ends s' := by
  rcases hx.gives_or_stops with ⟨a, t, hx⟩ | ⟨e, t, hx⟩
  · obtain ⟨t', hy, -⟩ := (h.of_gives hs hx).of_items_eq hi
    exact hy.ends
  · obtain ⟨t', hy, -⟩ := (h.of_stops hs hx).of_items_eq hi
    exact hy.ends

/-- Where the first parser ends, it gives what the second one gives. -/
theorem TracksOn.exists_gives {a : α} (h : TracksOn C whole k x y) (hs : C s.items) (hx : x.Ends s)
    (hy : y.Gives s a t) : ∃ u, x.Gives s a u ∧ u.items = t.items := by
  rcases hx.gives_or_stops with ⟨b, u, hx⟩ | ⟨e, u, hx⟩
  · obtain ⟨t', hy', ht⟩ := (h.of_gives hs hx).of_items_eq rfl
    obtain ⟨rfl, rfl⟩ := hy.unique hy'
    exact ⟨u, hx, ht.symm⟩
  · obtain ⟨t', hy', -⟩ := (h.of_stops hs hx).of_items_eq rfl
    exact absurd hy' hy.not_stops

/-- Where the first parser ends, it stops with the error that the second one stops with. -/
theorem TracksOn.exists_stops {e : ParseError} (h : TracksOn C whole k x y) (hs : C s.items)
    (hx : x.Ends s) (hy : y.Stops s e t) : ∃ u, x.Stops s e u ∧ u.items = t.items := by
  rcases hx.gives_or_stops with ⟨b, u, hx⟩ | ⟨e', u, hx⟩
  · obtain ⟨t', hy', -⟩ := (h.of_gives hs hx).of_items_eq rfl
    exact absurd hy hy'.not_stops
  · obtain ⟨t', hy', ht⟩ := (h.of_stops hs hx).of_items_eq rfl
    obtain ⟨rfl, rfl⟩ := hy.unique hy'
    exact ⟨u, hx, ht.symm⟩

theorem tracks_pure (a : α) : Tracks whole k (pure a) (pure a) :=
  ⟨fun s _ => local_refl (fun _ => Action.gives_pure a) s, fun _ _ _ _ _ _ => Action.ends_pure a⟩

theorem tracks_fail (e : ParseError) :
    Tracks whole k (Action.fail e : Parser α) (Action.fail e) :=
  ⟨fun s _ => local_refl (fun _ => ⟨[], rfl⟩) s, fun _ _ _ _ _ _ => Action.ends_fail e⟩

theorem tracks_tell (event : Event) : Tracks whole k (Action.tell event) (Action.tell event) :=
  ⟨fun s _ => local_refl (fun _ => ⟨[event], rfl⟩) s, fun _ _ _ _ _ _ => Action.ends_tell event⟩

theorem tracks_ofExcept (r : Except ParseError α) :
    Tracks whole k (Action.ofExcept r) (Action.ofExcept r) := by
  cases r with
  | ok a => exact tracks_pure a
  | error e => exact tracks_fail e

/-- Without a budget nothing is given, and below the bound zero there are no items to end on. -/
theorem tracksOn_unfinished : TracksOn C whole 0 Action.unfinished y :=
  ⟨fun _ _ => trivial, fun _ _ _ _ hw => absurd hw.2 (Nat.not_lt_zero _)⟩

/-- What follows starts with fewer items, so the bound stays. -/
theorem TracksOn.bind (h : TracksOn C whole k x y) (hp : ∀ a, Tracks whole k (p a) (q a)) :
    TracksOn C whole k (x >>= p) (y >>= q) := by
  refine ⟨fun s hs => ?_, fun s s' hi hs hw hy => ?_⟩
  · rw [Action.ensures_bind]
    refine (h.does s hs).mono (fun a t hx => ?_) fun e t hx => ?_
    · refine ((hp a).does t trivial).mono (fun b u hp => ?_) fun e u hp => ?_
      · exact hx.trans hp fun _ _ _ hy hq => hy.bind hq
      · exact hx.trans hp fun _ _ _ hy hq => hy.bind_stops hq
    · exact hx.mono fun _ _ hy => hy.bind q
  · obtain ⟨hends, hrest⟩ := Action.ends_bind.1 hy
    refine Action.ends_bind.2 ⟨h.ends s s' hi hs hw hends, ?_⟩
    refine (h.does s hs).mono (fun a t hx => ?_) fun _ _ _ => trivial
    obtain ⟨t', hy', ht⟩ := hx.of_items_eq hi
    exact (hp a).ends t t' ht trivial (hw.suffix hx.suffix) (hrest.of_gives hy')

end Steps

/-! ## Tokens -/

section Tokens

variable {C : List Item → Prop} {whole : List Item} {k : Nat} {x : Parser Token}
variable {after : List Item → List Item} {p q : Token → Parser β} {s t : TokenStream}

/-- A fault is used up when it is met. -/
theorem Looks.local_stops (hx : Looks x after) {cause : ReadError} {rest : List Item}
    (hi : s.items = .error cause :: rest) (ht : t.items = rest) :
    Local (fun s' t' => x.Stops s' (.read cause) t') s t :=
  ⟨[.error cause], by rw [hi, ht]; rfl, fun _ _ hs' _ => hx.exists_stops hs'⟩

/-- A peek looks at the next item and uses up none. -/
theorem local_peek {token : Token} {rest : List Item} (hi : s.items = .ok token :: rest)
    (ht : t.items = s.items) : Local (fun s' t' => (peek 0).Gives s' token t') s t := by
  refine ⟨[], ht.symm, fun s' rest' hs' hahead => ?_⟩
  rw [ht, hi] at hahead
  obtain ⟨rest'', rfl⟩ : ∃ rest'', rest' = .ok token :: rest'' := by
    cases rest' with
    | nil => cases hahead
    | cons item rest'' =>
        cases hahead
        exact ⟨rest'', rfl⟩
  obtain ⟨t', hg, ht'⟩ := looks_peek.exists_gives hs'
  exact ⟨t', hg, ht'.trans hs'⟩

/-- Taking a token uses up one item and looks no further. -/
theorem local_next {token : Token} {rest : List Item} (hi : s.items = .ok token :: rest)
    (ht : t.items = s.items.tail) : Local (fun s' t' => next.Gives s' token t') s t := by
  refine ⟨[.ok token], by rw [ht, hi]; rfl, fun s' rest' hs' _ => ?_⟩
  obtain ⟨t', hg, ht'⟩ := looks_next.exists_gives hs'
  exact ⟨t', hg, by rw [ht', hs']; rfl⟩

/-- What happens after the end of the source is local if it does not matter at which line the end
is. -/
theorem Looks.local_of_end (hx : Looks x after) {R : TokenStream → TokenStream → Prop}
    {S : Nat → TokenStream → TokenStream → Prop} {u : TokenStream} (hi : s.items = [])
    (ht : t.items = []) (hS : ∀ line, Local (S line) t u)
    (hR : ∀ s line t u, x.Gives s ⟨.endOfFile, line⟩ t → S line t u → R s u) : Local R s u := by
  have hu : u.items = [] := List.suffix_nil.1 (ht ▸ (hS 0).suffix)
  refine ⟨[], by rw [hi, hu]; rfl, fun s' rest hs' hrest => ?_⟩
  rw [hu] at hrest
  obtain rfl := List.head?_eq_none_iff.1 hrest
  obtain ⟨line, t', hx', ht'⟩ := hx.exists_gives_end hs'
  obtain ⟨u', hu', hitems⟩ := (hS line).of_items_eq (ht'.trans ht.symm)
  exact ⟨u', hR s' line t' u' hx' hu', hitems.trans hu⟩

/-- After a token both parsers go on with it. At the end of the source they go on with ends whose
lines may differ, unless `C` rules this out. -/
theorem Looks.tracksOn_bind {k' : Nat} (hx : Looks x after)
    (hlocal : ∀ {s t token rest}, s.items = .ok token :: rest → t.items = after s.items →
      Local (fun s' t' => x.Gives s' token t') s t)
    (hk : ∀ {token rest}, Within whole k (.ok token :: rest) →
      Within whole k' (after (.ok token :: rest)))
    (hok : ∀ token, TracksOn (fun items => ∃ rest, items = after (.ok token :: rest)) whole k'
      (p token) (q token))
    (hend : C [] → ∀ line line',
      Tracks whole k (p ⟨.endOfFile, line⟩) (q ⟨.endOfFile, line'⟩)) :
    TracksOn C whole k (x >>= p) (x >>= q) := by
  refine ⟨fun s hs => ?_, fun s s' hi hs hw hy => ?_⟩
  · rw [Action.ensures_bind]
    rcases hx s with ⟨token, rest, t, hi, hg, ht⟩ | ⟨cause, rest, t, hi, hstops, ht⟩ |
      ⟨line, t, hi, hg, ht⟩
    · have hfirst := hlocal hi ht
      refine hg.ensures (((hok token).does t ⟨rest, by rw [ht, hi]⟩).mono (fun b u hp => ?_)
        fun e u hp => ?_)
      · exact hfirst.trans hp fun _ _ _ hx hq => hx.bind hq
      · exact hfirst.trans hp fun _ _ _ hx hq => hx.bind_stops hq
    · exact hstops.ensures ((hx.local_stops hi ht).mono fun _ _ hx => hx.bind q)
    · have hrest := fun line' => (hend (hi ▸ hs) line line').does t trivial
      refine hg.ensures (Action.ensures_iff.2 ⟨fun b u hp => ?_, fun e u hp => ?_⟩)
      · exact hx.local_of_end hi ht (fun line' => (hrest line').of_gives hp)
          fun _ _ _ _ hx hq => hx.bind hq
      · exact hx.local_of_end hi ht (fun line' => (hrest line').of_stops hp)
          fun _ _ _ _ hx hq => hx.bind_stops hq
  · rw [Action.ends_bind] at hy ⊢
    rcases hx s with ⟨token, rest, t, hi', hg, ht⟩ | ⟨cause, rest, t, hi', hstops, ht⟩ |
      ⟨line, t, hi', hg, ht⟩
    · obtain ⟨t', hg', ht'⟩ := hx.exists_gives (hi.trans hi')
      have hw' : Within whole k' t.items := by
        rw [ht, hi']
        exact hk (hi' ▸ hw)
      have hsame : t'.items = t.items := by rw [ht, ht', hi]
      exact ⟨hg.ends, hg.ensures ((hok token).ends t t' hsame ⟨rest, by rw [ht, hi']⟩ hw'
        (hy.2.of_gives hg'))⟩
    · exact ⟨hstops.ends, hstops.ensures trivial⟩
    · obtain ⟨line', t', hg', ht'⟩ := hx.exists_gives_end (hi.trans hi')
      have hw' : Within whole k t.items := by
        rw [ht, ← hi']
        exact hw
      exact ⟨hg.ends, hg.ensures ((hend (hi' ▸ hs) line line').ends t t' (ht'.trans ht.symm) trivial
        hw' (hy.2.of_gives hg'))⟩

/-- A look at a token finds a stream that has not ended. -/
theorem tracks_peek_bind (hok : ∀ token, TracksOn (· ≠ []) whole k (p token) (q token))
    (hend : ∀ line line', Tracks whole k (p ⟨.endOfFile, line⟩) (q ⟨.endOfFile, line'⟩)) :
    Tracks whole k (peek 0 >>= p) (peek 0 >>= q) := by
  refine looks_peek.tracksOn_bind local_peek (fun hw => hw) (fun token => ?_) fun _ => hend
  refine (hok token).mono ?_ (Nat.le_refl k)
  rintro _ ⟨rest, rfl⟩
  exact List.cons_ne_nil _ _

/-- After a token is taken the second parser goes on as the first one does, and so it does at the
end. -/
theorem tracks_next_bind (hok : ∀ token, Tracks whole k (p token) (q token))
    (hend : ∀ line line', Tracks whole k (p ⟨.endOfFile, line⟩) (q ⟨.endOfFile, line'⟩)) :
    Tracks whole k (next >>= p) (next >>= q) :=
  looks_next.tracksOn_bind local_next (fun hw => hw.suffix (List.suffix_cons _ _))
    (fun token => (hok token).on) fun _ => hend

/-- Where the stream has not ended, the token that is taken leaves one item fewer. -/
theorem tracksOn_next_bind (hok : ∀ token, Tracks whole k (p token) (q token)) :
    TracksOn (· ≠ []) whole (k + 1) (next >>= p) (next >>= q) :=
  looks_next.tracksOn_bind local_next
    (fun hw => ⟨(List.suffix_cons _ _).trans hw.1, Nat.lt_of_succ_lt_succ hw.2⟩)
    (fun token => (hok token).on) fun hn => absurd rfl hn

/-- A parser that gives a value leaves fewer items than there were, if there were any. -/
def TakesItem (x : Parser α) : Prop :=
  ∀ s a t, s.items ≠ [] → x.Gives s a t → t.items.length < s.items.length

/-- A parser that takes a token leaves fewer items, whatever follows. -/
theorem takesItem_next_bind (hok : ∀ token, Tracks whole k (p token) (q token)) :
    TakesItem (next >>= p) := by
  intro s b t hs hg
  obtain ⟨token, u, hnext, hrest⟩ := hg.of_bind
  have hle := ((hok token).of_gives trivial hrest).suffix.length_le
  rcases looks_next s with ⟨_, rest, u', hi, hg', hu'⟩ | ⟨_, _, _, _, hstops, -⟩ | ⟨_, _, hi, -⟩
  · obtain ⟨-, rfl⟩ := hnext.unique hg'
    rw [hu', hi, List.tail_cons] at hle
    rw [hi, List.length_cons]
    exact Nat.lt_succ_of_le hle
  · exact absurd hstops hnext.not_stops
  · exact absurd hi hs

end Tokens

/-! ## Repetitions -/

section Repetitions

variable {whole : List Item} {k : Nat} {body body' : β → Parser (β ⊕ α)}
  (hbody : ∀ b, Tracks whole k (body b) (body' b))
include hbody

theorem tracks_zero_iterate : ∀ {n m : Nat}, n ≤ m → ∀ b : β,
    Tracks whole 0 (Action.iterate body n b) (Action.iterate body' m b)
  | 0, _, _, _ => tracksOn_unfinished
  | n + 1, m + 1, hle, b => by
      rw [Action.iterate_succ, Action.iterate_succ]
      refine ((hbody b).mono (fun _ hc => hc) (Nat.zero_le k)).bind fun r => ?_
      cases r with
      | inl c => exact tracks_zero_iterate (Nat.le_of_succ_le_succ hle) c
      | inr a => exact tracks_pure a

/-- The smaller budget is enough where the larger one is, if each turn that goes on takes an item
where the larger budget is enough. -/
theorem ends_iterate_of_ends
    (hgoes : ∀ b c s t t' m, (body b).Gives s (.inl c) t → t'.items = t.items →
      (Action.iterate body' m c).Ends t' → t.items.length < s.items.length) :
    ∀ (n m : Nat) (b : β) (s s' : TokenStream), s'.items = s.items → Within whole k s.items →
      s.items.length < n → (Action.iterate body' m b).Ends s' → (Action.iterate body n b).Ends s
  | 0, _, _, _, _, _, _, hn, _ => absurd hn (Nat.not_lt_zero _)
  | n + 1, 0, _, _, _, _, _, _, hy => absurd rfl hy
  | n + 1, m + 1, b, s, s', hi, hw, hn, hy => by
      rw [Action.iterate_succ, Action.ends_bind] at hy ⊢
      refine ⟨(hbody b).ends s s' hi trivial hw hy.1, ?_⟩
      refine Action.ensures_iff.2 ⟨fun r t hx => ?_, fun _ _ _ => trivial⟩
      have hlocal := (hbody b).of_gives trivial hx
      obtain ⟨t', hy', ht⟩ := hlocal.of_items_eq hi
      have hrest := hy.2.of_gives hy'
      cases r with
      | inl c =>
          have hless := hgoes b c s t t' m hx ht hrest
          exact ends_iterate_of_ends hgoes n m c t t' ht (hw.suffix hlocal.suffix) (by omega) hrest
      | inr a => exact Action.ends_pure a

/-- A loop tracks another one with a larger budget if each turn does. The first one ends where the
second one does, since its budget is above the number of items and no turn is for nothing. -/
theorem tracks_iterate
    (hgoes : ∀ b c s t t' m, (body b).Gives s (.inl c) t → t'.items = t.items →
      (Action.iterate body' m c).Ends t' → t.items.length < s.items.length)
    {n m : Nat} (hk : k ≤ n) (hle : n ≤ m) (b : β) :
    Tracks whole k (Action.iterate body n b) (Action.iterate body' m b) :=
  ⟨(tracks_zero_iterate hbody hle b).does, fun s s' hi _ hw =>
    ends_iterate_of_ends hbody hgoes n m b s s' hi hw (Nat.lt_of_lt_of_le hw.2 hk)⟩

end Repetitions

/-! ## Whether a rule could start -/

section Parsers

variable {grammar : Grammar} {whole : List Item} {k : Nat}

theorem tracks_firstOf {question : RuleId → Parser Bool}
    (h : ∀ rule, Tracks whole k (question rule) (question rule)) (rules : List RuleId) :
    Tracks whole k (firstOf question rules) (firstOf question rules) := by
  induction rules with
  | nil => exact tracks_pure none
  | cons rule rules ih =>
      rw [firstOf]
      refine (h rule).bind fun yes => ?_
      cases yes with
      | true => exact tracks_pure (some rule)
      | false => exact ih

/-- A question about the next token alone. -/
theorem tracks_question {question : Token → Bool}
    (hend : ∀ line line', question ⟨.endOfFile, line'⟩ = question ⟨.endOfFile, line⟩) :
    Tracks whole k (return question (← peek 0)) (return question (← peek 0)) := by
  refine tracks_peek_bind (fun token => (tracks_pure _).on) fun line line' => ?_
  rw [hend line line']
  exact tracks_pure _

theorem tracks_elementStarts {starts : RuleId → Parser Bool}
    (h : ∀ rule, Tracks whole k (starts rule) (starts rule)) (element : Element) :
    Tracks whole k (grammar.elementStarts starts element)
      (grammar.elementStarts starts element) := by
  cases element with
  | tree rule => exact h rule
  | repeated rule times => exact h rule
  | expression factor operators kind => exact h factor
  | choice rules => exact (tracks_firstOf h rules).bind fun _ => tracks_pure _
  | orEmpty rule => exact tracks_pure true
  | token wanted kind =>
      exact tracks_question fun _ _ => by rw [accepts_endOfFile, accepts_endOfFile]
  | literal texts keep => exact tracks_question fun _ _ => rfl
  | ahead texts => exact tracks_question fun _ _ => rfl

/-- Whether a rule could start is found out alike. The induction is on the steps. Both budgets are
the same here, so none has to be shown to be enough. -/
theorem tracks_startsWithin (n : Nat) (rule : RuleId) :
    Tracks whole k (grammar.startsWithin n rule) (grammar.startsWithin n rule) := by
  induction n generalizing rule with
  | zero =>
      exact ⟨fun _ _ => trivial, fun _ _ _ _ _ hy => absurd rfl hy⟩
  | succ n ih =>
      rw [startsWithin]
      split
      · exact tracks_pure true
      · exact tracks_elementStarts ih _

theorem tracks_starts (rule : RuleId) :
    Tracks whole k (grammar.starts rule) (grammar.starts rule) := tracks_startsWithin _ rule

/-! ## Expressions -/

section Expressions

variable {operators : Operators} {takes : Precedence → Bool} {kind : Tree.Kind}

/-- An operator is taken only where one was seen, so the stream has not ended there. -/
theorem tracks_foldOperator {shift shift' : Tree → Nat → Parser Tree}
    (h : ∀ left value, TracksOn (· ≠ []) whole k (shift left value) (shift' left value))
    (operand : Tree) : Tracks whole k (foldOperator operators takes shift operand)
      (foldOperator operators takes shift' operand) := by
  unfold foldOperator nextOperator
  rw [bind_assoc, bind_assoc]
  refine tracks_peek_bind (fun token => ?_) fun line line' => tracks_pure (Sum.inr operand)
  simp only [pure_bind]
  cases operators.ofToken? token with
  | none => exact (tracks_pure _).on
  | some precedence =>
      dsimp only
      split
      · exact (h operand precedence.value).bind fun _ => tracks_pure _
      · exact (tracks_pure _).on

/-- An operator that is folded in was seen, so there was an item, and it is taken. -/
theorem length_lt_of_foldOperator {shift : Tree → Nat → Parser Tree} {operand tree : Tree}
    {s t : TokenStream} (hshift : ∀ left value, TakesItem (shift left value))
    (h : (foldOperator operators takes shift operand).Gives s (.inl tree) t) :
    t.items.length < s.items.length := by
  obtain ⟨found, u, hfound, hrest⟩ := h.of_bind
  obtain ⟨token, v, hpeek, hpure⟩ := hfound.of_bind
  obtain ⟨rfl, rfl⟩ := hpure.unique (Action.gives_pure _)
  rcases looks_peek s with ⟨token', rest, u', hi, hg, hu⟩ | ⟨_, _, _, _, hstops, -⟩ |
    ⟨line, _, _, hg, -⟩
  · obtain ⟨rfl, rfl⟩ := hpeek.unique hg
    cases hop : operators.ofToken? token with
    | none =>
        rw [hop] at hrest
        cases (hrest.unique (Action.gives_pure _)).1
    | some precedence =>
        simp only [hop] at hrest
        split at hrest
        · obtain ⟨tree', w, hgives, hpure⟩ := hrest.of_bind
          obtain ⟨-, rfl⟩ := hpure.unique (Action.gives_pure _)
          have hu : u.items = s.items := hu
          rw [← hu]
          exact hshift _ _ _ _ _ (by rw [hu, hi]; exact List.cons_ne_nil _ _) hgives
        · cases (hrest.unique (Action.gives_pure _)).1
  · exact absurd hstops hpeek.not_stops
  · obtain ⟨rfl, -⟩ := hpeek.unique hg
    cases (hrest.unique (Action.gives_pure _)).1

/-- Each operator that is folded in takes an item. -/
theorem tracks_iterate_foldOperator {shift shift' : Tree → Nat → Parser Tree}
    (h : ∀ left value, TracksOn (· ≠ []) whole k (shift left value) (shift' left value) ∧
      TakesItem (shift left value)) {n m : Nat} (hk : k ≤ n) (hle : n ≤ m) (operand : Tree) :
    Tracks whole k (Action.iterate (foldOperator operators takes shift) n operand)
      (Action.iterate (foldOperator operators takes shift') m operand) :=
  tracks_iterate (tracks_foldOperator fun left value => (h left value).1)
    (fun _ _ _ _ _ _ hg _ _ => length_lt_of_foldOperator (fun left value => (h left value).2) hg)
    hk hle operand

variable {operand operand' : Parser Tree}

/-- The operator that is taken first leaves one item fewer, so what comes after it goes with the
smaller bound. The induction is on the budget on the left. -/
theorem tracksOn_shift : ∀ {n m k : Nat}, Tracks whole k operand operand' → k ≤ n → n ≤ m →
    ∀ (left : Tree) (value : Nat),
      TracksOn (· ≠ []) whole k (shift operand operators kind n left value)
        (shift operand' operators kind m left value) ∧
      TakesItem (shift operand operators kind n left value)
  | 0, _, 0, _, _, _, _, _ => ⟨tracksOn_unfinished, fun _ _ _ _ hg => absurd rfl hg.ends⟩
  | n + 1, m + 1, k, h, hk, hle, left, value => by
      have hk : k - 1 ≤ n := by omega
      have hle : n ≤ m := Nat.le_of_succ_le_succ hle
      have hless : Tracks whole (k - 1) operand operand' := h.mono (fun _ hc => hc) (Nat.sub_le k 1)
      rw [shift, shift]
      have hrest : ∀ token, Tracks whole (k - 1)
          (do
            let operator ← leaf (.leaf .plain) token
            let right ← operand
            let right ← Action.iterate (foldOperator operators (·.takesOperandOf value)
              (shift operand operators kind n)) n right
            branch kind [left, operator, right])
          (do
            let operator ← leaf (.leaf .plain) token
            let right ← operand'
            let right ← Action.iterate (foldOperator operators (·.takesOperandOf value)
              (shift operand' operators kind m)) m right
            branch kind [left, operator, right]) := by
        intro token
        refine TracksOn.bind (tracks_ofExcept _) fun operator => hless.bind fun right => ?_
        refine (tracks_iterate_foldOperator ?_ hk hle right).bind fun right => tracks_ofExcept _
        exact tracksOn_shift hless hk hle
      exact ⟨(tracksOn_next_bind hrest).mono (fun _ hc => hc) (by omega), takesItem_next_bind hrest⟩

/-- An expression tracks another one with a larger budget if its operand does. -/
theorem tracks_expression (h : Tracks whole k operand operand') {n m : Nat} (hk : k ≤ n)
    (hle : n ≤ m) : Tracks whole k (expression operand operators kind n)
      (expression operand' operators kind m) := by
  unfold expression
  exact h.bind fun left => tracks_iterate_foldOperator (tracksOn_shift h hk hle) hk hle left

end Expressions

/-! ## Elements and rules -/

section Rules

variable {parse parse' : RuleId → Parser Tree}
  (h : ∀ rule, Tracks whole k (parse rule) (parse' rule))
include h

theorem tracks_repeatOnce (rule : RuleId) (found : List Tree) :
    Tracks whole k (grammar.repeatOnce parse rule found)
      (grammar.repeatOnce parse' rule found) := by
  unfold repeatOnce
  refine TracksOn.bind (tracks_starts rule) fun yes => ?_
  cases yes with
  | true => exact (h rule).bind fun tree => tracks_pure _
  | false => exact tracks_pure _

/-- A turn that goes on does so on every stream that hands out the same, whatever was found
before. -/
theorem exists_gives_repeatOnce {rule : RuleId} {found found' more : List Tree}
    {s s' t : TokenStream} (hg : (grammar.repeatOnce parse rule found).Gives s (.inl more) t)
    (hs : s'.items = s.items) : ∃ more' t',
      (grammar.repeatOnce parse' rule found').Gives s' (.inl more') t' ∧ t'.items = t.items := by
  obtain ⟨yes, u, hstarts, hrest⟩ := hg.of_bind
  have htracks : Tracks whole k (grammar.starts rule) (grammar.starts rule) := tracks_starts rule
  obtain ⟨u', hstarts', hu⟩ := (htracks.of_gives trivial hstarts).of_items_eq hs
  cases yes with
  | true =>
      obtain ⟨tree, v, hparse, hpure⟩ := hrest.of_bind
      obtain ⟨-, rfl⟩ := hpure.unique (Action.gives_pure _)
      obtain ⟨t', hparse', ht⟩ := ((h rule).of_gives trivial hparse).of_items_eq hu
      exact ⟨_, t', hstarts'.bind (hparse'.bind (Action.gives_pure _)), ht⟩
  | false => cases (hrest.unique (Action.gives_pure _)).1

/-- A turn that takes no item would be followed by another one for ever. -/
theorem length_lt_of_repeatOnce {rule : RuleId} {found more : List Tree} {s t t' : TokenStream}
    {m : Nat} (hg : (grammar.repeatOnce parse rule found).Gives s (.inl more) t)
    (ht : t'.items = t.items)
    (hends : (Action.iterate (grammar.repeatOnce parse' rule) m more).Ends t') :
    t.items.length < s.items.length := by
  have hsuffix := ((tracks_repeatOnce h rule found).of_gives trivial hg).suffix
  refine Nat.lt_of_not_le fun hle => ?_
  have hsame : t.items = s.items := hsuffix.eq_of_length_le hle
  refine Action.not_ends_iterate (fun _ u => u.items = s.items) (fun found' u hu => ?_) m more t'
    (ht.trans hsame) hends
  obtain ⟨more', u', hg', hu'⟩ := exists_gives_repeatOnce h hg hu
  exact ⟨more', u', hg', hu'.trans hsame⟩

/-- A turn of a repetition that takes no item would be taken again and again, so in the larger
budget it would not end. -/
theorem tracks_repetition (rule : RuleId) {n m : Nat} (hk : k ≤ n) (hle : n ≤ m) :
    Tracks whole k (grammar.repetition parse rule n) (grammar.repetition parse' rule m) :=
  tracks_iterate (tracks_repeatOnce h rule)
    (fun _ _ _ _ _ _ hg ht hends => length_lt_of_repeatOnce h hg ht hends) hk hle []

/-- By cases on the element. -/
theorem tracks_parseElement {n m : Nat} (hk : k ≤ n) (hle : n ≤ m) (element : Element) :
    Tracks whole k (grammar.parseElement parse n element)
      (grammar.parseElement parse' m element) := by
  cases element with
  | tree rule => exact (h rule).bind fun tree => tracks_pure _
  | choice rules =>
      refine TracksOn.bind (tracks_firstOf tracks_starts rules) fun found => ?_
      cases found with
      | some rule => exact (h rule).bind fun tree => tracks_pure _
      | none =>
          exact tracks_peek_bind (fun token => (tracks_fail _).on) fun line line' => tracks_fail _
  | repeated rule times =>
      cases times with
      | any => exact tracks_repetition h rule hk hle
      | atMostOnce =>
          refine TracksOn.bind (tracks_starts rule) fun yes => ?_
          cases yes with
          | true => exact (h rule).bind fun tree => tracks_pure _
          | false => exact tracks_pure _
  | orEmpty rule =>
      refine TracksOn.bind (tracks_starts rule) fun yes => ?_
      cases yes with
      | true => exact (h rule).bind fun tree => tracks_pure _
      | false => exact TracksOn.bind (tracks_ofExcept _) fun tree => tracks_pure _
  | token wanted kind =>
      refine tracks_next_bind (fun token => ?_) fun line line' => ?_
      · split
        · exact TracksOn.bind (tracks_ofExcept _) fun tree => tracks_pure _
        · exact tracks_fail _
      · rw [accepts_endOfFile, accepts_endOfFile]
        exact tracks_fail _
  | literal texts keep =>
      refine tracks_next_bind (fun token => ?_) fun line line' => tracks_fail _
      split
      · split
        · exact TracksOn.bind (tracks_ofExcept _) fun tree => tracks_pure _
        · exact tracks_pure _
      · exact tracks_fail _
  | ahead texts =>
      refine tracks_peek_bind (fun token => ?_) fun line line' => tracks_fail _
      split
      · exact (tracks_pure _).on
      · exact (tracks_fail _).on
  | expression factor operators kind =>
      exact (tracks_expression (h factor) hk hle).bind fun tree => tracks_pure _

theorem tracks_parseElements {n m : Nat} (hk : k ≤ n) (hle : n ≤ m) (elements : List Element) :
    Tracks whole k (grammar.parseElements parse n elements)
      (grammar.parseElements parse' m elements) := by
  induction elements with
  | nil => exact tracks_pure []
  | cons element elements ih =>
      rw [parseElements, parseElements]
      exact (tracks_parseElement h hk hle element).bind fun trees => ih.bind fun trees' =>
        tracks_pure _

/-- If the rules in it are tracked, a rule is tracked. -/
theorem tracks_parseRule {n m : Nat} (hk : k ≤ n) (hle : n ≤ m) (rule : Rule) :
    Tracks whole k (grammar.parseRule parse n rule) (grammar.parseRule parse' m rule) := by
  unfold parseRule
  refine TracksOn.bind (tracks_tell _) fun _ => ?_
  exact (tracks_parseElements h hk hle rule.elements).bind fun trees => tracks_ofExcept _

end Rules

/-- A value or an error within one budget is met within each larger one, and the items that it looks
at are all it depends on. The induction is on the smaller budget. -/
theorem tracks_parseWithin : ∀ {n m : Nat}, n ≤ m → ∀ rule : RuleId,
    Tracks whole 0 (grammar.parseWithin n rule) (grammar.parseWithin m rule)
  | 0, _, _, _ => tracksOn_unfinished
  | n + 1, m + 1, hle, rule => by
      have hle : n ≤ m := Nat.le_of_succ_le_succ hle
      exact tracks_parseRule (tracks_parseWithin hle) (Nat.zero_le n) hle (grammar.rule rule)

end Parsers

end Grammar

end TreeScript
