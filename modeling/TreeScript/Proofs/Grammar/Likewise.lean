import TreeScript.Proofs.Grammar.Heeds

/-!
# Streams of tokens that a grammar does not tell apart

Two streams hand out items that are alike, one by one: the same faults, and tokens that a relation
`E` holds of (`HandOutAlike`). Each answer of one stream to a glance is matched by an answer of the
other one, and the streams still hand out what is alike (`Replies.exists_alike`). So if a grammar
overlooks the differences, a rule gives the same tree on both, or it stops at the same place with
the same message (`parse_alike`).
-/

namespace TreeScript

namespace TokenStream

/-- Two tokens that are alike, or the same fault twice. -/
inductive Item.Alike (E : Token → Token → Prop) : Item → Item → Prop where
  | token {token token' : Token} : E token token' → Item.Alike E (.ok token) (.ok token')
  | fault (cause : ReadError) : Item.Alike E (.error cause) (.error cause)

theorem Item.alike_token_iff {E : Token → Token → Prop} {token token' : Token} :
    Item.Alike E (.ok token) (.ok token') ↔ E token token' := by
  refine ⟨fun h => ?_, .token⟩
  cases h with
  | token hlike => exact hlike

theorem Item.Alike.mono {E E' : Token → Token → Prop} {item item' : Item}
    (h : Item.Alike E item item') (hE : ∀ token token', E token token' → E' token token') :
    Item.Alike E' item item' := by
  cases h with
  | token hlike => exact .token (hE _ _ hlike)
  | fault cause => exact .fault cause

/-- The streams hand out items that are alike, one by one. -/
def HandOutAlike (E : Token → Token → Prop) (s s' : TokenStream) : Prop :=
  List.Forall₂ (Item.Alike E) s.items s'.items

end TokenStream

namespace Grammar

open TokenStream

variable {E : Token → Token → Prop} {s s' t t' : TokenStream} {x : Parser Token}
  {after : List Item → List Item} {token : Token}

/-- The ends of two sources are alike, on whichever lines they are. -/
def EndsAlike (E : Token → Token → Prop) : Prop :=
  ∀ line line', E ⟨.endOfFile, line⟩ ⟨.endOfFile, line'⟩

/-! ## Answers that are alike -/

/-- Where one stream hands out a token, the other one hands out one like it. -/
theorem Looks.exists_alike (hx : Looks x after) (hend : EndsAlike E) (hs : HandOutAlike E s s')
    (h : x.Gives s token t) : ∃ token' t', E token token' ∧ x.Gives s' token' t' := by
  rcases hx.gives_cases h with ⟨rest, hi, -⟩ | ⟨hi, hof, -⟩
  · rw [HandOutAlike, hi] at hs
    obtain ⟨item', rest', hitem, -, hi'⟩ := List.forall₂_cons_left_iff.1 hs
    cases hitem with
    | token hlike =>
        obtain ⟨t', hg, -⟩ := hx.exists_gives hi'
        exact ⟨_, t', hlike, hg⟩
  · rw [HandOutAlike, hi, List.forall₂_nil_left_iff] at hs
    obtain ⟨line, rfl⟩ := eq_endOfFile hof
    rcases hx s' with ⟨_, _, _, hi', -⟩ | ⟨_, _, _, hi', -⟩ | ⟨line', t', -, hg, -⟩
    · rw [hs] at hi'
      cases hi'
    · rw [hs] at hi'
      cases hi'
    · exact ⟨_, t', hend line line', hg⟩

/-- A stream that begins with a fault cannot be filled. -/
theorem exists_stops_fill {cause : ReadError} {rest : List Item}
    (hi : s.items = .error cause :: rest) : ∃ t, (fill 0).Stops s cause t := by
  rcases looks_peek s with ⟨_, _, _, hi', -⟩ | ⟨cause', _, t, hi', hstops, -⟩ | ⟨_, _, hi', -⟩
  · rw [hi] at hi'
    cases hi'
  · rw [hi] at hi'
    cases hi'
    obtain ⟨_, hfill, hcause⟩ := stops_peek_iff.1 hstops
    cases hcause
    exact ⟨t, hfill⟩
  · rw [hi] at hi'
    cases hi'

/-- What is left is alike if a glance uses up as much of both. -/
theorem Glance.Step.handOutAlike {glance glance' : Glance} (hs : HandOutAlike E s s')
    (h : glance.Step s t) (h' : glance'.Step s' t') (huses : glance'.uses = glance.uses) :
    HandOutAlike E t t' := by
  rw [HandOutAlike, h.items_eq, h'.items_eq, huses]
  exact List.forall₂_drop glance.uses hs

/-- A stream that hands out like items answers like glances. -/
theorem Glance.Step.exists_alike {glance : Glance} (hend : EndsAlike E)
    (hs : HandOutAlike E s s') (h : glance.Step s t) :
    ∃ glance' t', Glance.Like E glance glance' ∧ glance'.Step s' t' ∧ HandOutAlike E t t' := by
  cases glance with
  | saw token =>
      obtain ⟨token', t', hlike, hg⟩ := looks_peek.exists_alike hend hs (glances_peek.step_iff.1 h)
      exact ⟨.saw token', t', .saw hlike, .saw hg, h.handOutAlike hs (.saw hg) rfl⟩
  | took token =>
      obtain ⟨token', t', hlike, hg⟩ := looks_next.exists_alike hend hs (glances_next.step_iff.1 h)
      exact ⟨.took token', t', .took hlike, .took hg, h.handOutAlike hs (.took hg) rfl⟩
  | missed cause =>
      cases id h with
      | missed hstops =>
          have hi := hs
          rw [HandOutAlike, items_of_stops_fill hstops] at hi
          obtain ⟨item', rest', hitem, -, hi'⟩ := List.forall₂_cons_left_iff.1 hi
          cases hitem with
          | fault =>
              obtain ⟨t', hstops'⟩ := exists_stops_fill hi'
              exact ⟨.missed cause, t', .missed cause, .missed hstops',
                h.handOutAlike hs (.missed hstops') rfl⟩

/-- A stream that hands out like items answers like glances, one after the other. -/
theorem Replies.exists_alike {glances : List Glance} (hend : EndsAlike E)
    (h : Replies s glances t) (hs : HandOutAlike E s s') :
    ∃ glances' t', Likes E glances glances' ∧ Replies s' glances' t' := by
  induction h generalizing s' with
  | nil => exact ⟨[], s', .nil, .nil s'⟩
  | cons hstep _ ih =>
      obtain ⟨glance', u', hlike, hstep', hu⟩ := hstep.exists_alike hend hs
      obtain ⟨glances', t', hlikes, hreplies⟩ := ih hu
      exact ⟨glance' :: glances', t', .cons hlike hlikes, .cons hstep' hreplies⟩

/-! ## Where it stops -/

/-- The error is about item `k`, with this message, and `m` items are consumed: those before it, or
it as well. -/
structure RefusedAt (k m : Nat) (message : String) (s : TokenStream) (e : ParseError)
    (t : TokenStream) : Prop where
  error_eq : e = errorAt message s.items[k]?
  consumes : Consumes m s t
  bound : m = k ∨ m = k + 1

/-- The item that the last glance is about is the one that is refused. -/
theorem refusedAt_of_replies {before : List Glance} {glance : Glance}
    (h : Replies s (before ++ [glance]) t) (message : String) :
    RefusedAt (used before) (used before + glance.uses) message s (glance.blame message) t := by
  obtain ⟨u, hbefore, hlast⟩ := replies_append_iff.1 h
  have hstep := replies_one_iff.1 hlast
  refine ⟨?_, ?_, ?_⟩
  · rw [hstep.blame_eq, hbefore.items_eq, List.head?_drop]
  · rw [Consumes, hstep.items_eq, hbefore.items_eq, List.drop_drop]
  · cases glance with
    | saw => exact .inl rfl
    | took | missed => exact .inr rfl

theorem Glance.Like.uses_eq {glance glance' : Glance} (h : Glance.Like E glance glance') :
    glance'.uses = glance.uses := by
  cases h with
  | saw | took | missed => rfl

/-- Glances that are alike use up equally much. -/
theorem used_eq_of_likes {glances glances' : List Glance} (h : Likes E glances glances') :
    used glances' = used glances := by
  induction h with
  | nil => rfl
  | cons hlike _ ih =>
      rw [used, used, hlike.uses_eq, ih]

/-- Two errors about the last glance are about the same place. -/
theorem Blames.exists_refusedAt {glances glances' : List Glance} {e e' : ParseError}
    (hblames : Blames glances e glances' e') (hlikes : Likes E glances glances')
    (h : Replies s glances t) (h' : Replies s' glances' t') :
    (∃ k m message, RefusedAt k m message s e t ∧ RefusedAt k m message s' e' t') ∨
      ∃ cause, e = .shape cause := by
  cases hblames with
  | shape _ _ cause => exact .inr ⟨cause, rfl⟩
  | last before before' glance glance' message =>
      obtain ⟨first, last, hsplit, hfirst, hlast⟩ := exists_append_of_likes hlikes
      obtain ⟨other, hlike, rfl⟩ := exists_of_likes_one hlast
      obtain ⟨rfl, hother⟩ := List.append_inj' hsplit rfl
      cases hother
      have hused := used_eq_of_likes hfirst
      have huses := hlike.uses_eq
      refine .inl ⟨_, _, message, refusedAt_of_replies h message, ?_⟩
      rw [← hused, ← huses]
      exact refusedAt_of_replies h' message

/-- If a grammar overlooks how the items differ, a rule gives the same tree on both streams and
consumes equally much, or it stops at the same place. -/
theorem parse_alike {grammar : Grammar} (hover : grammar.Overlooks E) (hend : EndsAlike E)
    (hs : HandOutAlike E s s') (rule : RuleId) :
    (grammar.parse rule).Ensures s
      (fun tree t => ∃ t' k, (grammar.parse rule).Gives s' tree t' ∧ Consumes k s t ∧
        Consumes k s' t')
      fun e t => ∃ e' t', (grammar.parse rule).Stops s' e' t' ∧
        ((∃ k m message, RefusedAt k m message s e t ∧ RefusedAt k m message s' e' t') ∨
          ∃ cause, e = .shape cause) := by
  refine (heeds_parse grammar.keepsPace_ahead hover rule s trivial).mono ?_ ?_
  · intro tree t ⟨glances, hreplies, _, hother⟩
    obtain ⟨glances', t', hlikes, hreplies'⟩ := hreplies.exists_alike hend hs
    refine ⟨t', used glances, hother s' glances' t' hlikes hreplies', hreplies.items_eq, ?_⟩
    rw [← used_eq_of_likes hlikes]
    exact hreplies'.items_eq
  · intro e t ⟨glances, hreplies, hother⟩
    obtain ⟨glances', t', hlikes, hreplies'⟩ := hreplies.exists_alike hend hs
    obtain ⟨e', hstops, hblames⟩ := hother s' glances' t' hlikes hreplies'
    exact ⟨e', t', hstops, hblames.exists_refusedAt hlikes hreplies hreplies'⟩

end Grammar

end TreeScript
