import TreeScript.Proofs.Grammar.Aligned

/-!
# Parsing on other lines

On a stream that hands out the same on other lines a parser does the same, and its tree or its error
is relined (`relines_parse`). Only what the streams hand out counts, not how much of it they have
read ahead.
-/

namespace TreeScript

namespace Grammar

open TokenStream

variable {f : Nat → Nat} {α : Type}

/-- The second stream hands out the same on other lines. -/
def OnLines (f : Nat → Nat) (s s' : TokenStream) : Prop := s'.items = s.items.map (Item.relined f)

theorem onLines_id (s : TokenStream) : OnLines id s s := by
  rw [OnLines, Item.map_relined_id]

/-- On a stream with other lines the second parser does what the first one does. `g` is what becomes
of a value on other lines. -/
def Relines (f : Nat → Nat) (g : α → α) (x y : Parser α) : Prop :=
  Action.Simulates (OnLines f) (fun a s a' s' => OnLines f s s' ∧ a' = g a)
    (fun e _ e' _ => e' = e.relined f) x y

/-! ## The tie between the items -/

/-- The second items are the first ones on other lines. -/
def AllRelined (f : Nat → Nat) (items items' : List Item) : Prop :=
  items' = items.map (Item.relined f)

/-- To go by other lines is to carry over to items on other lines. -/
theorem relines_iff_carries {g : α → α} {x y : Parser α} :
    Relines f g x y ↔ Carries f (AllRelined f) (AllRelined f) g x y := Iff.rfl

/-- Items on other lines begin alike and stay on other lines. -/
theorem aligned_allRelined (f : Nat → Nat) : Aligned f (AllRelined f) (AllRelined f) where
  begins := by
    rintro items _ rfl
    cases items with
    | nil => exact .ended
    | cons item rest =>
        cases item with
        | ok token => exact .token ⟨rfl, fun _ => rfl⟩
        | error cause => exact .fault _ _ _

/-- On other lines a look ahead sees the end of the source just as here. -/
theorem simulates_peek : Action.Simulates (OnLines f)
    (fun token s token' s' => OnLines f s s' ∧ token'.isEndOfFile = token.isEndOfFile)
    (fun e _ e' _ => e' = e.relined f) (peek 0) (peek 0) := (aligned_allRelined f).simulates_peek

/-! ## Rules -/

section Parsers

variable {grammar : Grammar}

/-- Elements keep the tie if their rules do. -/
theorem carries_parseElements_allRelined {parse parse' : RuleId → Parser Tree}
    (h : ∀ rule, Carries f (AllRelined f) (AllRelined f) (Tree.relined f) (parse rule)
      (parse' rule))
    {n m : Nat} (hle : n ≤ m) (elements : List Element) :
    Carries f (AllRelined f) (AllRelined f) (List.map (Tree.relined f))
      (grammar.parseElements parse n elements) (grammar.parseElements parse' m elements) := by
  induction elements with
  | nil => exact carries_pure (fun _ _ hp => hp) rfl
  | cons element elements ih =>
      refine carries_parseElements_cons ?_ ih
      exact (aligned_allRelined f).carries_parseElement (fun _ _ hp => hp) hle
        (fun rule _ => h rule) (fun _ => rfl) fun _ _ _ _ _ _ _ hq _ => hq

/-- Rules go by other lines, and a larger budget makes no difference. The induction is on the
smaller budget. -/
theorem relines_parseWithin : ∀ {n m : Nat}, n ≤ m → ∀ rule : RuleId,
    Relines f (Tree.relined f) (grammar.parseWithin n rule) (grammar.parseWithin m rule)
  | 0, _, _, _ => relines_iff_carries.2 carries_unfinished
  | n + 1, m + 1, hle, rule => by
      have hle : n ≤ m := Nat.le_of_succ_le_succ hle
      have hrules : ∀ rule, Carries f (AllRelined f) (AllRelined f) (Tree.relined f)
          (grammar.parseWithin n rule) (grammar.parseWithin m rule) := relines_parseWithin hle
      rw [relines_iff_carries, parseWithin, parseWithin]
      exact carries_parseRule (carries_parseElements_allRelined hrules hle _)

section Budget

variable {rule : RuleId} {n : Nat} {s t : TokenStream} (hends : (grammar.parse rule).Ends s)
  (hle : grammar.budget s ≤ n)
include hends hle

/-- A larger budget gives no other tree. -/
theorem exists_gives_parse {tree : Tree} (hg : (grammar.parseWithin n rule).Gives s tree t) :
    ∃ u, (grammar.parse rule).Gives s tree u ∧ OnLines id u t := by
  have hmore := (relines_parseWithin hle rule : Relines id _ (grammar.parseWithin _ rule) _) s s
    (onLines_id s)
  rcases hends.gives_or_stops with ⟨found, u, hg'⟩ | ⟨error, u, hstops⟩
  · obtain ⟨found', u', hg'', hu, hfound⟩ := hmore.of_gives hg'
    obtain ⟨rfl, rfl⟩ := hg.unique hg''
    rw [Tree.relined_id] at hfound
    exact ⟨u, hfound ▸ hg', hu⟩
  · obtain ⟨_, u', hstops', -⟩ := hmore.of_stops hstops
    exact absurd hstops' hg.not_stops

/-- A larger budget gives no other error. -/
theorem exists_stops_parse {error : ParseError}
    (hstops : (grammar.parseWithin n rule).Stops s error t) :
    ∃ u, (grammar.parse rule).Stops s error u := by
  have hmore := (relines_parseWithin hle rule : Relines id _ (grammar.parseWithin _ rule) _) s s
    (onLines_id s)
  rcases hends.gives_or_stops with ⟨found, u, hg⟩ | ⟨found, u, hstops'⟩
  · obtain ⟨_, u', hg', -⟩ := hmore.of_gives hg
    exact absurd hstops hg'.not_stops
  · obtain ⟨found', u', hstops'', hfound⟩ := hmore.of_stops hstops'
    rw [ParseError.relined_id] at hfound
    rw [hstops.error_eq hstops'', hfound]
    exact ⟨u, hstops'⟩

end Budget

/-- A tie between streams is carried through the parsing of a rule if it is so within budgets where
the second one is large enough. Both budgets together are enough for either stream. -/
theorem carries_parse {P R : List Item → List Item → Prop} {rule : RuleId} {k : Nat}
    (hends : ∀ s, (grammar.parse rule).Ends s)
    (h : ∀ n m, n + k ≤ m →
      Carries f P R (Tree.relined f) (grammar.parseWithin n rule) (grammar.parseWithin m rule)) :
    Carries f P R (Tree.relined f) (grammar.parse rule) (grammar.parse rule) := by
  intro s s' hs
  have hboth := h (grammar.budget s) (grammar.budget s + k + grammar.budget s')
    (Nat.le_add_right _ _) s s' hs
  have hle : grammar.budget s' ≤ grammar.budget s + k + grammar.budget s' := Nat.le_add_left _ _
  refine Action.Ensures.mono (x := grammar.parseWithin (grammar.budget s) rule) hboth ?_ ?_
  · rintro tree t ⟨tree', t', hg, ht, htree⟩
    obtain ⟨u, hg', hu⟩ := exists_gives_parse (hends s') hle hg
    rw [OnLines, Item.map_relined_id] at hu
    exact ⟨tree', u, hg', hu ▸ ht, htree⟩
  · rintro error t ⟨error', t', hstops, herror⟩
    obtain ⟨u, hstops'⟩ := exists_stops_parse (hends s') hle hstops
    exact ⟨error', u, hstops', herror⟩

/-- What a stream has read ahead does not matter, and neither does the budget. -/
theorem relines_parse {rule : RuleId} (hends : ∀ s, (grammar.parse rule).Ends s) :
    Relines f (Tree.relined f) (grammar.parse rule) (grammar.parse rule) :=
  relines_iff_carries.2 (carries_parse (k := 0) hends fun _ _ hle =>
    relines_iff_carries.1 (relines_parseWithin hle rule))

end Parsers

end Grammar

end TreeScript
