import TreeScript.Proofs.Grammar.Steady

/-!
# The first token that does not fit

If a rule stops at a token that does not fit, there is a first such token: up to it the rule wants
for more, and with it the rule stops, whatever comes after it (`exists_first_unfit`). Nothing here
depends on the grammar but that its rules end.

To find the token, the tokens of the stream are cut off one after the other and replaced by a fault.
The rule stops with the same error as long as the token that does not fit is there, since it has not
looked further. Without that token it meets the fault.
-/

namespace TreeScript

namespace Grammar

open TokenStream

/-- A stream of the tokens, with a fault after them. -/
def faulted (tokens : List Token) : TokenStream := ⟨tokens, [.garbled], 0⟩

theorem shows_faulted (tokens : List Token) :
    (faulted tokens).Shows tokens [.error .garbled] := ⟨rfl, by simp⟩

/-- A token that does not fit is one of those that are shown. -/
theorem Grounded.exists_token {tokens : List Token} {tail : List Item} {text message : String}
    {line : Nat} {t : TokenStream} (h : Grounded tokens tail (.unexpected text line message) t) :
    ∃ before token rest, tokens = before ++ token :: rest ∧
      .unexpected text line message = ParseError.ofToken token message ∧
      (t.Shows (token :: rest) tail ∨ t.Shows rest tail) := by
  generalize he : ParseError.unexpected text line message = e at h
  cases h with
  | @token before rest token message' _ htokens ht =>
      have hmessage : message' = message := by
        unfold ParseError.ofToken at he
        split at he <;> cases he
        rfl
      exact ⟨before, token, rest, htokens, hmessage ▸ rfl, ht⟩
  | ended => cases he
  | unread => cases he
  | shape => cases he

/-- If a property of lists comes to hold as tokens are added, one of them makes it hold. -/
theorem exists_turn {P : List Token → Prop} {before after : List Token} (hbefore : ¬P before)
    (hafter : P (before ++ after)) :
    ∃ p x rest, before ++ after = p ++ x :: rest ∧ ¬P p ∧ P (p ++ [x]) := by
  induction after generalizing before with
  | nil =>
      rw [List.append_nil] at hafter
      exact absurd hafter hbefore
  | cons x rest ih =>
      by_cases hx : P (before ++ [x])
      · exact ⟨before, x, rest, rfl, hbefore, hx⟩
      · rw [List.append_cons] at hafter ⊢
        exact ih hx hafter

section FirstUnfit

variable {grammar : Grammar} {id : RuleId} {s t : TokenStream} {tokens : List Token}
variable {tail : List Item}
variable {text message : String} {line : Nat}

/-- With a fault and no token, the fault is met. -/
theorem not_stops_faulted_nil :
    ¬(grammar.parse id).Stops (faulted []) (.unexpected text line message) t := by
  intro hstops
  have hgrounded := ((steady_parse id).settles [] _ _ (shows_faulted [])).of_stops hstops
  obtain ⟨before, token, rest, hnil, -⟩ := hgrounded.exists_token
  simp at hnil

variable (hends : ∀ s, (grammar.parse id).Ends s)
include hends

/-- A fault after the tokens is not met if one of them does not fit. -/
theorem exists_stops_faulted (hs : s.Shows tokens tail)
    (hstops : (grammar.parse id).Stops s (.unexpected text line message) t) :
    ∃ t₀, (grammar.parse id).Stops (faulted tokens) (.unexpected text line message) t₀ := by
  have hs' : s.Shows (tokens ++ []) tail := by rwa [List.append_nil]
  cases (steady_parse id).joint tokens .garbled [] [] tail _ s (shows_faulted tokens) hs' with
  | unfinished hn => exact absurd (hends _) hn
  | unfinished' hn => exact absurd (hends s) hn
  | value _ hy => exact absurd hstops hy.not_stops
  | error _ hx hy =>
      obtain rfl := hstops.error_eq hy
      exact ⟨_, hx⟩
  | beyond _ _ hsettles =>
      obtain ⟨before, token, rest, hnil, -⟩ := (hsettles.of_stops hstops).exists_token
      simp at hnil

/-- What a rule does that stops at a token, with a fault after it, it does whatever comes after the
token. -/
theorem exists_stops_of_faulted {rest : List Token}
    (hs : s.Shows (tokens ++ rest) tail)
    (hstops : (grammar.parse id).Stops (faulted tokens) (.unexpected text line message) t) :
    ∃ left t', (grammar.parse id).Stops s (.unexpected text line message) t' ∧
      t.Shows left [.error .garbled] ∧ t'.Shows (left ++ rest) tail := by
  cases (steady_parse id).joint tokens .garbled [] rest tail _ s (shows_faulted tokens) hs with
  | unfinished hn => exact absurd (hends _) hn
  | unfinished' hn => exact absurd (hends s) hn
  | value hx => exact absurd hstops hx.not_stops
  | error _ hx hy ht₀ ht =>
      obtain ⟨rfl, rfl⟩ := hstops.unique hx
      exact ⟨_, _, hy, ht₀, ht⟩
  | beyond _ hx => cases hstops.error_eq hx

/-- If a rule stops at a token that does not fit, it is the token `x` after some tokens `p`. With a
fault after `p` the rule meets the fault, so it has read `p` and wants for more. On every stream
that begins with `p` and `x` the rule stops with the same error, at `x` or right after it. -/
theorem exists_first_unfit (hs : s.Shows tokens tail)
    (hstops : (grammar.parse id).Stops s (.unexpected text line message) t) :
    ∃ p x rest, tokens = p ++ x :: rest ∧
      .unexpected text line message = ParseError.ofToken x message ∧
      (∃ t₀, (grammar.parse id).Stops (faulted p) (.read .garbled) t₀) ∧
      ∀ s' rest' tail', s'.Shows (p ++ x :: rest') tail' →
        ∃ t', (grammar.parse id).Stops s' (.unexpected text line message) t' ∧
          (t'.Shows (x :: rest') tail' ∨ t'.Shows rest' tail') := by
  obtain ⟨p, x, rest, htokens, hnot, t₁, hstops₁⟩ := exists_turn
    (P := fun p => ∃ t₀, (grammar.parse id).Stops (faulted p) (.unexpected text line message) t₀)
    (fun ⟨_, h⟩ => not_stops_faulted_nil h)
    (by simpa using exists_stops_faulted hends hs hstops)
  cases (steady_parse id).joint p .garbled [] [x] _ _ _ (shows_faulted p)
    (shows_faulted (p ++ [x])) with
  | unfinished hn => exact absurd (hends _) hn
  | unfinished' hn => exact absurd (hends _) hn
  | value _ hy => exact absurd hstops₁ hy.not_stops
  | error _ hx hy =>
      obtain rfl := hstops₁.error_eq hy
      exact absurd ⟨_, hx⟩ hnot
  | beyond hbefore hx hsettles =>
      cases hbefore
      obtain ⟨before, token, others, hsingle, herror, hleft⟩ :=
        (hsettles.of_stops hstops₁).exists_token
      obtain ⟨rfl, rfl, rfl⟩ : before = [] ∧ token = x ∧ others = [] := by
        cases before with
        | nil => simpa [eq_comm] using hsingle
        | cons => simp at hsingle
      refine ⟨p, token, rest, by simpa using htokens, herror, ⟨_, hx⟩, ?_⟩
      intro s' rest' tail' hs'
      rw [List.append_cons] at hs'
      obtain ⟨left, t', hstops', ht₁, ht'⟩ := exists_stops_of_faulted hends hs' hstops₁
      refine ⟨t', hstops', ?_⟩
      rcases hleft with hleft | hleft
      · obtain rfl := ht₁.tokens_eq hleft
        exact .inl ht'
      · obtain rfl := ht₁.tokens_eq hleft
        exact .inr ht'

end FirstUnfit

end Grammar

end TreeScript
