import Mathlib.Data.List.Forall2
import Mathlib.Order.Lattice
import TreeScript.Proofs.Grammar.Aligned

/-!
# What a parser glances at

A parser learns of its stream by single glances. It sees the next token, it takes it, or it finds
that there is none. `Replies` says that a stream answers a list of glances and becomes another
stream. The answers are what the stream hands out, one item after the other (`Replies.items_eq`).

The glances tell how far a parser has looked. After a token that ends no line the next one is on the
same line, and seeing it costs nothing. After the end of a line it is not, and after a look that may
have gone on to another line nothing is known. These are the three paces (`paceAfter`).
-/

namespace TreeScript

namespace Grammar

open TokenStream

variable {E : Token → Token → Prop}

/-! ## Glances -/

/-- One thing that a parser learns of a stream. -/
inductive Glance where
  /-- The next token is seen and stays. -/
  | saw (token : Token)
  /-- The next token is taken. -/
  | took (token : Token)
  /-- There is a fault instead of a token. -/
  | missed (cause : ReadError)

namespace Glance

/-- A stream answers a glance and becomes another one. -/
inductive Step : Glance → TokenStream → TokenStream → Prop where
  | saw {token : Token} {s t : TokenStream} : (peek 0).Gives s token t → Step (.saw token) s t
  | took {token : Token} {s t : TokenStream} : next.Gives s token t → Step (.took token) s t
  | missed {cause : ReadError} {s t : TokenStream} :
      (fill 0).Stops s cause t → Step (.missed cause) s t

/-- The glances are the same but for their tokens, which are alike. -/
inductive Like (E : Token → Token → Prop) : Glance → Glance → Prop where
  | saw {token token' : Token} : E token token' → Like E (.saw token) (.saw token')
  | took {token token' : Token} : E token token' → Like E (.took token) (.took token')
  | missed (cause : ReadError) : Like E (.missed cause) (.missed cause)

/-- The error that a glance gives rise to. -/
def blame (message : String) : Glance → ParseError
  | .saw token => .ofToken token message
  | .took token => .ofToken token message
  | .missed cause => .read cause

theorem like_self (glance : Glance) : Like Eq glance glance := by
  cases glance with
  | saw token => exact .saw rfl
  | took token => exact .took rfl
  | missed cause => exact .missed cause

end Glance

/-- A stream answers glances, one after the other, and becomes another one. -/
inductive Replies : TokenStream → List Glance → TokenStream → Prop where
  | nil (s : TokenStream) : Replies s [] s
  | cons {glance : Glance} {glances : List Glance} {s t u : TokenStream} :
      glance.Step s t → Replies t glances u → Replies s (glance :: glances) u

/-- The glances are alike one by one. -/
abbrev Likes (E : Token → Token → Prop) : List Glance → List Glance → Prop :=
  List.Forall₂ (Glance.Like E)

section Replies

variable {s t u : TokenStream} {glance : Glance} {glances glances' : List Glance}

theorem replies_one (h : glance.Step s t) : Replies s [glance] t := .cons h (.nil t)

/-- Answers to some glances and then to others. -/
theorem Replies.append (h : Replies s glances t) (h' : Replies t glances' u) :
    Replies s (glances ++ glances') u := by
  induction h with
  | nil => exact h'
  | cons hstep _ ih => exact .cons hstep (ih h')

/-- A stream answers glances one after the other. -/
theorem replies_append_iff :
    Replies s (glances ++ glances') u ↔ ∃ t, Replies s glances t ∧ Replies t glances' u := by
  constructor
  · intro h
    induction glances generalizing s with
    | nil => exact ⟨s, .nil s, h⟩
    | cons glance glances ih =>
        cases h with
        | cons hstep hrest =>
            obtain ⟨t, hfirst, hsecond⟩ := ih hrest
            exact ⟨t, .cons hstep hfirst, hsecond⟩
  · intro ⟨t, h, h'⟩
    exact h.append h'

theorem replies_one_iff : Replies s [glance] t ↔ glance.Step s t := by
  constructor
  · intro h
    cases h with
    | cons hstep hnil =>
        cases hnil
        exact hstep
  · exact replies_one

theorem likes_self (glances : List Glance) : Likes Eq glances glances :=
  List.forall₂_same.2 fun glance _ => glance.like_self

theorem exists_of_likes_one (h : Likes E [glance] glances) :
    ∃ glance', Glance.Like E glance glance' ∧ glances = [glance'] := by
  cases h with
  | cons hlike hrest =>
      cases hrest
      exact ⟨_, hlike, rfl⟩

/-- Glances that are like two lists in a row are two such lists. -/
theorem exists_append_of_likes {before after : List Glance}
    (h : Likes E (before ++ after) glances) : ∃ before' after',
      glances = before' ++ after' ∧ Likes E before before' ∧ Likes E after after' := by
  induction before generalizing glances with
  | nil => exact ⟨[], glances, rfl, .nil, h⟩
  | cons glance before ih =>
      cases h with
      | cons hlike hrest =>
          obtain ⟨before', after', hsplit, hbefore, hafter⟩ := ih hrest
          exact ⟨_ :: before', after', by rw [hsplit]; rfl, .cons hlike hbefore, hafter⟩

end Replies

/-! ## Single glances -/

section Single

variable {s t : TokenStream} {e : ParseError}

/-- A look ahead stops where the queue cannot be filled. -/
theorem stops_peek_iff :
    (peek 0).Stops s e t ↔ ∃ cause, (fill 0).Stops s cause t ∧ e = .read cause := by
  rw [peek, Action.stops_mapError_iff]
  refine exists_congr fun cause => and_congr_left fun _ => ?_
  rw [TokenStream.peek, Action.stops_bind_iff]
  apply or_iff_left
  intro h
  obtain ⟨_, u, _, journal, hview⟩ := h
  cases hview

/-- A token is taken unless the queue cannot be filled. -/
theorem stops_next_iff :
    next.Stops s e t ↔ ∃ cause, (fill 0).Stops s cause t ∧ e = .read cause := by
  rw [next, Action.stops_mapError_iff]
  refine exists_congr fun cause => and_congr_left fun _ => ?_
  rw [TokenStream.read, Action.stops_bind_iff]
  apply or_iff_left
  intro h
  obtain ⟨_, u, _, journal, htransition⟩ := h
  cases htransition

/-- A stream hands out its first item, or it has ended. -/
theorem Looks.gives_cases {x : Parser Token} {after : List Item → List Item} (hx : Looks x after)
    {token : Token} (h : x.Gives s token t) :
    (∃ rest, s.items = .ok token :: rest ∧ t.items = after s.items) ∨
      s.items = [] ∧ token.isEndOfFile = true ∧ t.items = [] := by
  rcases hx s with ⟨seen, rest, t', hi, hg, ht⟩ | ⟨_, _, _, _, hstops, -⟩ | ⟨line, t', hi, hg, ht⟩
  · obtain ⟨rfl, rfl⟩ := h.unique hg
    exact .inl ⟨rest, hi, ht⟩
  · exact absurd hstops h.not_stops
  · obtain ⟨rfl, rfl⟩ := h.unique hg
    exact .inr ⟨hi, rfl, ht⟩

/-- All tokens at the end of a source are equal up to their lines. -/
theorem eq_endOfFile {token : Token} (h : token.isEndOfFile = true) :
    ∃ line, token = ⟨.endOfFile, line⟩ := by
  obtain ⟨kind, line⟩ := token
  cases kind with
  | endOfFile => exact ⟨line, rfl⟩
  | word | number | string | endOfLine => cases h

/-- A token that was seen is the one that is taken, unless the source has ended. -/
def Facing (token : Token) (s : TokenStream) : Prop :=
  ∀ taken t, next.Gives s taken t → taken = token ∨ token.isEndOfFile = true

/-- What was peeked at is taken next. -/
theorem facing_of_peek {token : Token} (h : (peek 0).Gives s token t) : Facing token t := by
  intro taken u htaken
  rcases looks_peek.gives_cases h with ⟨rest, hi, ht⟩ | ⟨-, hend, -⟩
  · have ht : t.items = .ok token :: rest := ht.trans hi
    obtain ⟨_, hg, -⟩ := looks_next.exists_gives ht
    exact .inl (htaken.unique hg).1
  · exact .inr hend

end Single

/-! ## What is answered -/

namespace Glance

/-- How many items a glance uses up. A fault is used up when it is met. -/
def uses : Glance → Nat
  | .saw _ => 0
  | .took _ => 1
  | .missed _ => 1

end Glance

/-- How many items glances use up. -/
def used : List Glance → Nat
  | [] => 0
  | glance :: glances => glance.uses + used glances
termination_by structural glances => glances

/-- The error at an item: a token that does not fit, a fault, or the end of the source. -/
def errorAt (message : String) : Option Item → ParseError
  | some (.ok token) => .ofToken token message
  | some (.error cause) => .read cause
  | none => .atEnd message

section Answered

variable {s t : TokenStream} {glance : Glance} {glances : List Glance}

/-- A fault comes first in a stream that cannot be filled. -/
theorem items_of_stops_fill {cause : ReadError} (h : (fill 0).Stops s cause t) :
    s.items = .error cause :: t.items := by
  obtain ⟨journal, h⟩ := h
  rcases fill_zero s with ⟨-, hf⟩ | ⟨fault, rest, hi, hf⟩ | ⟨_, _, hf, -⟩
  · rw [hf] at h
    cases h
  · rw [hf] at h
    cases h
    exact hi
  · rw [hf] at h
    cases h

/-- A glance uses up the first item or none. -/
theorem Glance.Step.items_eq (h : glance.Step s t) : t.items = s.items.drop glance.uses := by
  cases h with
  | saw hg =>
      rcases looks_peek.gives_cases hg with ⟨_, _, ht⟩ | ⟨hi, -, ht⟩
      · exact ht
      · rw [hi, ht]
        rfl
  | took hg =>
      rcases looks_next.gives_cases hg with ⟨_, _, ht⟩ | ⟨hi, -, ht⟩
      · rw [ht, Glance.uses, List.drop_one]
      · rw [hi, ht]
        rfl
  | missed hstops => rw [items_of_stops_fill hstops, Glance.uses, List.drop_one, List.tail_cons]

/-- The error that a glance gives rise to is about the first item. -/
theorem Glance.Step.blame_eq (h : glance.Step s t) (message : String) :
    glance.blame message = errorAt message s.items.head? := by
  have hend : ∀ token : Token, token.isEndOfFile = true →
      ParseError.ofToken token message = .atEnd message := by
    intro token hend
    rw [ParseError.ofToken, if_pos hend]
  cases h with
  | saw hg =>
      rcases looks_peek.gives_cases hg with ⟨_, hi, -⟩ | ⟨hi, he, -⟩
      · rw [hi]
        rfl
      · rw [hi]
        exact hend _ he
  | took hg =>
      rcases looks_next.gives_cases hg with ⟨_, hi, -⟩ | ⟨hi, he, -⟩
      · rw [hi]
        rfl
      · rw [hi]
        exact hend _ he
  | missed hstops =>
      rw [items_of_stops_fill hstops]
      rfl

/-- Glances use up items from the front of the stream. -/
theorem Replies.items_eq (h : Replies s glances t) : t.items = s.items.drop (used glances) := by
  induction h with
  | nil => rfl
  | cons hstep _ ih =>
      rw [ih, hstep.items_eq, List.drop_drop, used]

end Answered

/-! ## Paces -/

/-- How far a parser may have looked. -/
inductive Pace where
  /-- The last token was taken and ends no line. -/
  | within
  /-- The last token was taken and may end a line. -/
  | atEnd
  /-- The parser may have looked at another line. -/
  | ahead
deriving DecidableEq, Repr

namespace Pace

/-- Paces in order. -/
def rank : Pace → Nat
  | .within => 0
  | .atEnd => 1
  | .ahead => 2

theorem rank_injective : Function.Injective rank := by
  intro p q h
  cases p <;> cases q <;> first | rfl | cases h

instance : LinearOrder Pace := LinearOrder.lift' rank rank_injective

theorem within_le (p : Pace) : within ≤ p := Nat.zero_le _

theorem le_ahead (p : Pace) : p ≤ ahead := by cases p <;> decide

/-- The pace after a look at the next token. -/
def look : Pace → Pace
  | .within => .within
  | .atEnd => .ahead
  | .ahead => .ahead

theorem le_look (p : Pace) : p ≤ p.look := by cases p <;> decide

/-- The farther a parser may have looked, the farther it has after one more look. -/
theorem look_mono {p q : Pace} (h : p ≤ q) : p.look ≤ q.look := by
  cases q with
  | within => cases p with
    | within => exact h
    | atEnd | ahead => exact absurd h (by decide)
  | atEnd | ahead => exact le_ahead _

@[simp] theorem look_look (p : Pace) : p.look.look = p.look := by cases p <;> rfl

/-- The pace after a token is taken. -/
def taken (token : Token) : Pace :=
  if token.isEndOfFile then .ahead else if token.isEndOfLine then .atEnd else .within

/-- A look goes no farther than the end of a line only from within that line. -/
theorem eq_within_of_look_le {p : Pace} (h : p.look ≤ .atEnd) : p = within := by
  cases p with
  | within => rfl
  | atEnd | ahead => exact absurd h (by decide)

theorem isEndOfFile_of_taken_le {token : Token} (h : taken token ≤ atEnd) :
    token.isEndOfFile = false := by
  unfold taken at h
  cases hend : token.isEndOfFile with
  | false => rfl
  | true =>
      rw [if_pos hend] at h
      exact absurd h (by decide)

theorem isEndOfLine_of_taken_eq {token : Token} (h : taken token = within) :
    token.isEndOfLine = false := by
  unfold taken at h
  cases hline : token.isEndOfLine with
  | false => rfl
  | true => cases hend : token.isEndOfFile <;> simp [hend, hline] at h

theorem taken_le_atEnd {token : Token} (h : token.isEndOfFile = false) : taken token ≤ atEnd := by
  unfold taken
  rw [h]
  cases token.isEndOfLine <;> decide

end Pace

/-- The pace after a glance. -/
def Glance.pace (p : Pace) : Glance → Pace
  | .saw _ => p.look
  | .took token => .taken token
  | .missed _ => .ahead

/-- The pace after glances. -/
def paceAfter (glances : List Glance) (p : Pace) : Pace := glances.foldl Glance.pace p

/-- One more glance keeps the order of paces. -/
theorem Glance.pace_mono {p q : Pace} (h : p ≤ q) (glance : Glance) :
    glance.pace p ≤ glance.pace q := by
  cases glance with
  | saw => exact Pace.look_mono h
  | took | missed => exact le_refl _

/-- Glances keep the order of paces. -/
theorem paceAfter_mono {p q : Pace} (h : p ≤ q) (glances : List Glance) :
    paceAfter glances p ≤ paceAfter glances q := by
  induction glances generalizing p q with
  | nil => exact h
  | cons glance glances ih => exact ih (glance.pace_mono h)

theorem paceAfter_append (glances glances' : List Glance) (p : Pace) :
    paceAfter (glances ++ glances') p = paceAfter glances' (paceAfter glances p) :=
  List.foldl_append

end Grammar

end TreeScript
