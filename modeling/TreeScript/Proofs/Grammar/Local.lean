import Mathlib.Data.Set.Card
import TreeScript.Proofs.Grammar.Parse
import TreeScript.Proofs.Grammar.Tracks
import TreeScript.Proofs.TokenStream.Requests

/-!
# Parsing is local

What a rule parses from a stream depends on the items that it consumes and on one more
(`parse_looks_one_ahead`). Whether a rule could start depends on the next item alone, and asking so
is not noticed later.

The budget of a parse grows with all of its stream, also with what the parse never looks at. So two
streams that agree as far as it looks may have different budgets, and one has to know that neither
is too small: if any budget is enough for a rule on a stream, the budget of the stream is
(`ends_parse_of_parseWithin`).

For this, count the rules that end within a budget on streams of given items. A rule parses others
on the same items or further on. If a larger budget does not add to the count, and no larger one
adds anything further on, then a still larger one has nothing new to build on and adds nothing
either (`ending_succ_eq`). So the count grows with each step of the budget until it stops growing,
and that takes no more steps than there are rules.
-/

namespace TreeScript

namespace Grammar

open TokenStream

variable {grammar : Grammar} {rule : RuleId} {items : List Item} {s t : TokenStream} {n m : Nat}

/-! ## The budget is enough -/

/-- What ends within a budget ends within a larger one, on every stream that hands out the same. -/
theorem ends_parseWithin_of_le {s' : TokenStream} (hle : n ≤ m) (hi : s'.items = s.items)
    (h : (grammar.parseWithin n rule).Ends s) : (grammar.parseWithin m rule).Ends s' :=
  (tracks_parseWithin hle rule : Tracks [] 0 _ _).ends_of_ends trivial hi h

/-- A rule beyond the table has no elements, so it ends at once. -/
theorem ends_parseWithin_of_size_le (h : grammar.rules.size ≤ rule) :
    (grammar.parseWithin (n + 1) rule).Ends s := by
  rw [parseWithin, parseRule, rule_of_size_le h]
  exact (Action.ends_tell _).bind fun _ _ => (Action.ends_pure _).bind fun _ _ =>
    Action.ends_ofExcept _

/-- On the streams of these items every rule that ends within some budget ends within this one. -/
def Settled (grammar : Grammar) (items : List Item) (n : Nat) : Prop :=
  ∀ rule m s, s.items = items → (grammar.parseWithin m rule).Ends s →
    (grammar.parseWithin n rule).Ends s

/-- A larger budget is settled too. -/
theorem Settled.mono (h : Settled grammar items n) (hle : n ≤ m) : Settled grammar items m :=
  fun rule m' s hs hends => ends_parseWithin_of_le hle rfl (h rule m' s hs hends)

/-- The rules of the table that end within a budget on the streams of these items. -/
def ending (grammar : Grammar) (items : List Item) (n : Nat) : Set RuleId :=
  {rule | rule < grammar.rules.size ∧
    ∃ s, s.items = items ∧ (grammar.parseWithin n rule).Ends s}

/-- A larger budget ends at least as many rules. -/
theorem ending_mono (hle : n ≤ m) : grammar.ending items n ⊆ grammar.ending items m := by
  rintro rule ⟨hr, s, hs, hends⟩
  exact ⟨hr, s, hs, ends_parseWithin_of_le hle rfl hends⟩

theorem ending_subset_range :
    grammar.ending items n ⊆ ↑(Finset.range grammar.rules.size) := by
  rintro rule ⟨hr, -⟩
  exact Finset.mem_coe.2 (Finset.mem_range.2 hr)

theorem finite_ending : (grammar.ending items n).Finite :=
  (Finset.finite_toSet _).subset ending_subset_range

/-- At most all rules of the table end. -/
theorem ncard_ending_le : (grammar.ending items n).ncard ≤ grammar.rules.size := by
  calc (grammar.ending items n).ncard
      ≤ (↑(Finset.range grammar.rules.size) : Set RuleId).ncard :=
        Set.ncard_le_ncard ending_subset_range (Finset.finite_toSet _)
    _ = grammar.rules.size := by rw [Set.ncard_coe_finset, Finset.card_range]

/-- If as many rules end within a larger budget, the same rules do. -/
theorem ending_eq_of_ncard_eq (hle : n ≤ m)
    (h : (grammar.ending items n).ncard = (grammar.ending items m).ncard) :
    grammar.ending items n = grammar.ending items m :=
  Set.eq_of_subset_of_ncard_le (ending_mono hle) (Nat.le_of_eq h.symm) finite_ending

/-- A rule of the table or not, it ends within the smaller budget if the same rules do. -/
theorem ends_of_ending_eq (h : grammar.ending items (n + 1) = grammar.ending items m)
    (hs : s.items = items) (hends : (grammar.parseWithin m rule).Ends s) :
    (grammar.parseWithin (n + 1) rule).Ends s := by
  rcases Nat.lt_or_ge rule grammar.rules.size with hr | hr
  · have hmem : rule ∈ grammar.ending items m := ⟨hr, s, hs, hends⟩
    rw [← h] at hmem
    obtain ⟨-, s', hs', hends'⟩ := hmem
    exact ends_parseWithin_of_le (Nat.le_refl _) (hs.trans hs'.symm) hends'
  · exact ends_parseWithin_of_size_le hr

/-- If a larger budget adds no rule on these items, and if everything further on is settled, a still
larger one adds no rule either. -/
theorem ending_succ_eq (hn : items.length ≤ n)
    (hshort : ∀ rest, rest <:+ items → rest.length < items.length → Settled grammar rest n)
    (h : grammar.ending items (n + 1) = grammar.ending items (n + 2)) :
    grammar.ending items (n + 2) = grammar.ending items (n + 3) := by
  have htracks : ∀ rule, Tracks items (n + 1) (grammar.parseWithin (n + 1) rule)
      (grammar.parseWithin (n + 2) rule) := by
    intro rule
    have hdoes : Tracks items 0 (grammar.parseWithin (n + 1) rule)
        (grammar.parseWithin (n + 2) rule) := tracks_parseWithin (Nat.le_succ _) rule
    refine ⟨hdoes.does, fun s s' hi _ hw hy => ?_⟩
    have hends := ends_parseWithin_of_le (Nat.le_refl _) hi.symm hy
    rcases Nat.lt_or_ge s.items.length items.length with hlt | hge
    · exact (hshort _ hw.1 hlt).mono (Nat.le_succ n) rule _ s rfl hends
    · exact ends_of_ending_eq h (hw.1.eq_of_length_le hge) hends
  refine Set.Subset.antisymm (ending_mono (Nat.le_succ _)) ?_
  rintro rule ⟨hr, s, hs, hends⟩
  have hrule : Tracks items (n + 1) (grammar.parseWithin (n + 2) rule)
      (grammar.parseWithin (n + 3) rule) :=
    tracks_parseRule htracks (Nat.le_refl _) (Nat.le_succ _) (grammar.rule rule)
  refine ⟨hr, s, hs, hrule.ends s s rfl trivial ?_ hends⟩
  rw [hs]
  exact ⟨List.suffix_rfl, Nat.lt_succ_of_le hn⟩

/-- Where everything further on is settled, as much more budget is enough as there are rules. -/
theorem settled_of_shorter (hn : items.length ≤ n)
    (hshort : ∀ rest, rest <:+ items → rest.length < items.length → Settled grammar rest n) :
    Settled grammar items (n + grammar.rules.size + 1) := by
  let count : Nat → Nat := fun i => (grammar.ending items (n + i + 1)).ncard
  have hmono : Monotone count := fun i j hij =>
    Set.ncard_le_ncard (ending_mono (by omega)) finite_ending
  have hstable : ∀ i, count i = count (i + 1) → count (i + 1) = count (i + 2) := by
    intro i hi
    have hsame := ending_eq_of_ncard_eq (by omega) hi
    exact congrArg Set.ncard (ending_succ_eq (Nat.le_add_right_of_le hn)
      (fun rest hrest hlt => (hshort rest hrest hlt).mono (Nat.le_add_right n i)) hsame)
  intro rule m s hs hends
  have hcount : count (grammar.rules.size + m) = count grammar.rules.size :=
    Nat.stabilises_of_monotone hmono (fun _ => ncard_ending_le) hstable (Nat.le_add_right _ m)
  have hlarger : (grammar.parseWithin (n + (grammar.rules.size + m) + 1) rule).Ends s :=
    ends_parseWithin_of_le (by omega) rfl hends
  exact ends_of_ending_eq (ending_eq_of_ncard_eq (by omega) hcount.symm) hs hlarger

/-- Each item and the end of the source add at most as much to the budget as there are rules. -/
theorem settled (grammar : Grammar) (items : List Item) :
    Settled grammar items ((grammar.rules.size + 1) * (items.length + 1)) := by
  induction hlength : items.length using Nat.strongRecOn generalizing items with
  | _ length ih =>
      subst hlength
      rw [Nat.mul_succ]
      refine settled_of_shorter (Nat.le_mul_of_pos_left _ (Nat.succ_pos _)) fun rest _ hlt => ?_
      exact (ih _ hlt rest rfl).mono (Nat.mul_le_mul_left _ hlt)

/-- If any budget is enough, the budget of the stream is. -/
theorem ends_parse_of_parseWithin (h : (grammar.parseWithin n rule).Ends s) :
    (grammar.parse rule).Ends s := by
  refine ends_parseWithin_of_le ?_ rfl (settled grammar s.items rule n s rfl h)
  have hb := length_items_le_bound s
  exact Nat.mul_le_mul_left _ (by omega)

/-! ## Parsing -/

/-- What happens locally within every budget from some one on also happens within the budget that
each stream has, if it happens there whenever it does within a larger one. -/
theorem local_of_budgets (budget : TokenStream → Nat) {R : Nat → TokenStream → TokenStream → Prop}
    {T : TokenStream → TokenStream → Prop} (hR : ∀ m, n ≤ m → Local (R m) s t)
    (hT : ∀ m s t, budget s ≤ m → R m s t → ∃ u, T s u ∧ u.items = t.items) :
    Local T s t := by
  obtain ⟨used, hi, -⟩ := hR n (Nat.le_refl n)
  refine ⟨used, hi, fun s' rest hs' hahead => ?_⟩
  obtain ⟨used', hi', hlarge⟩ := hR (n + budget s') (Nat.le_add_right _ _)
  obtain rfl : used' = used := List.append_cancel_right (hi'.symm.trans hi)
  obtain ⟨t', hr, ht'⟩ := hlarge s' rest hs' hahead
  obtain ⟨u, hu, hitems⟩ := hT _ s' t' (Nat.le_add_left _ _) hr
  exact ⟨u, hu, hitems.trans ht'⟩

/-- What is parsed within any budget depends on the items it consumes and on one more, and the
budget of the grammar is enough on all streams that share them. -/
theorem local_gives_parse {tree : Tree} (h : (grammar.parseWithin n rule).Gives s tree t) :
    Local (fun s' t' => (grammar.parse rule).Gives s' tree t') s t := by
  refine local_of_budgets grammar.budget
    (fun m hle => (tracks_parseWithin hle rule : Tracks [] 0 _ _).of_gives trivial h) ?_
  intro m s' t' hle hg
  exact (tracks_parseWithin hle rule : Tracks [] 0 _ _).exists_gives trivial
    (ends_parse_of_parseWithin hg.ends) hg

/-- An error within any budget depends on the items it consumes and on one more. -/
theorem local_stops_parse {error : ParseError} (h : (grammar.parseWithin n rule).Stops s error t) :
    Local (fun s' t' => (grammar.parse rule).Stops s' error t') s t := by
  refine local_of_budgets grammar.budget
    (fun m hle => (tracks_parseWithin hle rule : Tracks [] 0 _ _).of_stops trivial h) ?_
  intro m s' t' hle hstops
  exact (tracks_parseWithin hle rule : Tracks [] 0 _ _).exists_stops trivial
    (ends_parse_of_parseWithin hstops.ends) hstops

/-! ## Asking whether a rule could start -/

/-- A choice that has an answer has seen the next item. -/
theorem ensures_primed_firstOf {question : RuleId → Parser Bool}
    (h : ∀ rule s, (question rule).Ensures s (fun _ t => Primed s t) fun _ _ => True)
    (rules : List RuleId) (s : TokenStream) :
    (firstOf question rules).Ensures s (fun _ t => Primed s t) fun _ _ => True := by
  induction rules generalizing s with
  | nil => exact .inl rfl
  | cons rule rules ih =>
      rw [firstOf, Action.ensures_bind]
      refine (h rule s).mono (fun yes t ht => ?_) fun _ _ _ => trivial
      cases yes with
      | true => exact ht
      | false => exact (ih t).mono (fun _ _ hu => ht.trans hu) fun _ _ _ => trivial

theorem ensures_primed_question (question : Token → Bool) (s : TokenStream) :
    (return question (← peek 0) : Parser Bool).Ensures s (fun _ t => Primed s t)
      fun _ _ => True := by
  rw [Action.ensures_bind, peek, Action.ensures_mapError, TokenStream.peek, Action.ensures_bind]
  exact (Action.ensures_self (fill 0) s).mono (fun _ _ hfill => .inr hfill) fun _ _ _ => trivial

/-- Asking fills the queue at most for one token. -/
theorem ensures_primed_startsWithin (n : Nat) (rule : RuleId) (s : TokenStream) :
    (grammar.startsWithin n rule).Ensures s (fun _ t => Primed s t) fun _ _ => True := by
  induction n generalizing rule s with
  | zero => trivial
  | succ n ih =>
      rw [startsWithin]
      split
      · exact .inl rfl
      · rename_i element _ _
        cases element with
        | tree rule => exact ih rule s
        | repeated rule times => exact ih rule s
        | expression factor operators kind => exact ih factor s
        | choice rules =>
            rw [elementStarts, Action.ensures_bind]
            exact ensures_primed_firstOf ih rules s
        | orEmpty rule => exact .inl rfl
        | token wanted kind => exact ensures_primed_question _ s
        | literal texts keep => exact ensures_primed_question _ s
        | ahead texts => exact ensures_primed_question _ s

/-- The answer depends on the next item alone. -/
theorem exists_gives_starts {yes : Bool} (h : (grammar.starts rule).Gives s yes t)
    {s' : TokenStream} (hs : s'.items[0]? = s.items[0]?) :
    ∃ t', (grammar.starts rule).Gives s' yes t' := by
  have hprimed : Primed s t := (ensures_primed_startsWithin _ rule s).of_gives h
  have htracks : Tracks [] 0 (grammar.starts rule) (grammar.starts rule) := tracks_starts rule
  obtain ⟨used, hi, hsame⟩ := htracks.of_gives trivial h
  obtain rfl : used = [] := List.self_eq_append_left.1 (hprimed.items_eq.symm ▸ hi)
  have hahead : s'.items.head? = t.items.head? := by
    rw [hprimed.items_eq, List.head?_eq_getElem?, List.head?_eq_getElem?, hs]
  obtain ⟨t', hg, -⟩ := hsame s' s'.items rfl hahead
  exact ⟨t', hg⟩

/-! ## One item ahead -/

/-- Of `s` the first `k` items are consumed, and `t` is left. After the last item the end of the
source goes on for ever. -/
def Consumes (k : Nat) (s t : TokenStream) : Prop := t.items = s.items.drop k

/-- The streams have the same first `k` items. Where there is none they have both ended. -/
def AgreesFor (k : Nat) (s s' : TokenStream) : Prop := ∀ i < k, s'.items[i]? = s.items[i]?

/-- If `k` items are consumed from `s` to `t`, the same happens on every stream that agrees with `s`
in `k + 1` items, and there `k` items are consumed too. -/
def OneAhead (happens : TokenStream → TokenStream → Prop) (s t : TokenStream) : Prop :=
  (∃ k, Consumes k s t) ∧ ∀ k, Consumes k s t → ∀ s', AgreesFor (k + 1) s s' →
    ∃ t', happens s' t' ∧ Consumes k s' t'

/-- The items that are used up are counted. -/
theorem Local.oneAhead {happens : TokenStream → TokenStream → Prop} (h : Local happens s t) :
    OneAhead happens s t := by
  obtain ⟨used, hi, h⟩ := h
  refine ⟨⟨used.length, by rw [Consumes, hi, List.drop_left]⟩, fun k hk s' hs' => ?_⟩
  have hused : used = s.items.take k := by
    refine List.append_cancel_right (hi.symm.trans ?_)
    rw [hk, List.take_append_drop]
  have htake : s'.items.take k = s.items.take k := by
    refine List.ext_getElem? fun i => ?_
    rw [List.getElem?_take, List.getElem?_take]
    split
    · exact hs' i (by omega)
    · rfl
  refine h s' (s'.items.drop k) ?_ ?_
  · rw [hused, ← htake, List.take_append_drop]
  · rw [hk, List.head?_drop, List.head?_drop]
    exact hs' k (Nat.lt_succ_self k)

/-- Parsing looks at one item beyond those that it consumes. If a rule gives a tree or stops with an
error and has consumed `k` items, it gives the same tree or stops with the same error on every
stream with the same first `k + 1` items, and it consumes `k` items there. Whether a rule could
start depends on the next item alone. Whatever is asked of the stream afterwards, the answers are
the same as if this had not been asked. -/
theorem parse_looks_one_ahead (grammar : Grammar) (rule : RuleId) (s : TokenStream) :
    (∀ tree t, (grammar.parse rule).Gives s tree t →
      OneAhead (fun s' t' => (grammar.parse rule).Gives s' tree t') s t) ∧
    (∀ error t, (grammar.parse rule).Stops s error t →
      OneAhead (fun s' t' => (grammar.parse rule).Stops s' error t') s t) ∧
    ∀ yes t, (grammar.starts rule).Gives s yes t →
      (∀ s', AgreesFor 1 s s' → ∃ t', (grammar.starts rule).Gives s' yes t') ∧
      ∀ requests, ∃ answers u v,
        (askAll requests).Gives s answers u ∧ (askAll requests).Gives t answers v := by
  refine ⟨fun tree t h => (local_gives_parse h).oneAhead,
    fun error t h => (local_stops_parse h).oneAhead, fun yes t h => ⟨fun s' hs' => ?_, ?_⟩⟩
  · exact exists_gives_starts h (hs' 0 Nat.one_pos)
  · have hprimed : Primed s t := (ensures_primed_startsWithin _ rule s).of_gives h
    exact hprimed.exists_answers

end Grammar

end TreeScript
