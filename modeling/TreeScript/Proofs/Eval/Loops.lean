import TreeScript.Proofs.Eval.Pure

/-!
# Loops

A loop ends only where its condition is the integer zero. A text or a function keeps it going, just
as any other integer does.

A larger budget gives no other value (`gives_eval_of_le`). So one may say that a tree has a value
and leave the budget out (`Evaluates`). `Rounds` lists the rounds of a loop. A loop has a value
exactly if rounds lead to where its condition is zero (`evaluates_loop_iff`). Evaluation takes its
turns from the front, while `Rounds` grows at its end, where the value of the loop comes from. So in
one direction the rounds so far are carried along, and in the other one there is a budget for the
turns that are still to come.

A pure condition leaves the heap as it is. Then the loop ends in the heap that the last round has
left, and what each round keeps holds there (`loop_ends_at_zero`).
-/

namespace TreeScript

namespace Eval

open TreeScript.Tree

variable {tree condition body : Tree} {scope : ScopeId} {budget : Nat} {start heap heap' : Heap}
  {value : Value}

/-! ## Values without budgets -/

/-- A larger budget gives no other value. -/
theorem gives_eval_of_le {budget' : Nat} (hle : budget ≤ budget')
    (h : (eval budget tree scope).Gives heap value heap') :
    (eval budget' tree scope).Gives heap value heap' := by
  have halike : Alike .same 0 Likeness.same.Values (eval budget tree scope)
      (eval budget' tree scope) := alike_eval hle 0 tree tree scope rfl (.inl trivial)
  obtain ⟨value', after, hgives, ⟨hheaps, -⟩, hvalue⟩ :=
    halike.of_gives ⟨Likeness.heaps_same heap, Nat.zero_le _⟩ h
  rwa [hvalue.eq_of_same, hheaps.eq_of_same] at hgives

/-- The tree has the value in the scope, and its evaluation leads from the first heap to the
second one. -/
def Evaluates (tree : Tree) (scope : ScopeId) (heap : Heap) (value : Value) (heap' : Heap) : Prop :=
  ∃ budget, (eval budget tree scope).Gives heap value heap'

/-- The value and the heap do not depend on the budget. -/
theorem Evaluates.unique {value' : Value} {heap'' : Heap}
    (h : Evaluates tree scope heap value heap') (h' : Evaluates tree scope heap value' heap'') :
    value = value' ∧ heap' = heap'' := by
  obtain ⟨budget, h⟩ := h
  obtain ⟨budget', h'⟩ := h'
  exact (gives_eval_of_le (Nat.le_max_left budget budget') h).unique
    (gives_eval_of_le (Nat.le_max_right budget budget') h')

/-- A pure tree leaves the heap as it is. -/
theorem Evaluates.eq_of_isPure (h : Evaluates tree scope heap value heap') (htree : tree.IsPure) :
    heap' = heap := by
  obtain ⟨budget, h⟩ := h
  exact (still_eval budget tree htree scope).eq_of_gives h

/-! ## Rounds -/

/-- `Rounds condition body scope start value heap`: rounds of a loop lead from `start` to `heap`.
Each of them begins where the condition is not zero and evaluates the body. The value is the one
that the last body gave, and zero if there was no round. -/
inductive Rounds (condition body : Tree) (scope : ScopeId) (start : Heap) :
    Value → Heap → Prop where
  /-- There was no round. -/
  | none : Rounds condition body scope start (.integer 0) start
  /-- After some rounds there was one more. -/
  | more {last test value : Value} {heap middle heap' : Heap} :
      Rounds condition body scope start last heap →
      Evaluates condition scope heap test middle → test ≠ .integer 0 →
      Evaluates body scope middle value heap' → Rounds condition body scope start value heap'

/-- What each round keeps holds after all rounds. -/
theorem Rounds.keeps {P : Heap → Prop} (h : Rounds condition body scope start value heap)
    (hstart : P start)
    (hround : ∀ before test middle value after, P before →
      Evaluates condition scope before test middle → test ≠ .integer 0 →
      Evaluates body scope middle value after → P after) : P heap := by
  induction h with
  | none => exact hstart
  | more _ htest hne hvalue ih => exact hround _ _ _ _ _ ih htest hne hvalue

/-- Turns that end with a value go on with the rounds that came before them, up to where the
condition is zero. -/
theorem Rounds.of_turns {n : Nat} {result : Value}
    (h : Rounds condition body scope start result heap)
    (hturns : (Action.iterate (turn (eval budget) condition body scope) n result).Gives heap value
      heap') :
    ∃ before, Rounds condition body scope start value before ∧
      Evaluates condition scope before (.integer 0) heap' := by
  induction n generalizing result heap with
  | zero =>
      obtain ⟨journal, hturns⟩ := hturns
      cases hturns
  | succ n ih =>
      rw [Action.iterate_succ] at hturns
      obtain ⟨next, after, hturn, hnext⟩ := hturns.of_bind
      rcases gives_turn_iff.1 hturn with ⟨hzero, rfl⟩ | ⟨test, middle, _, htest, hne, hvalue, rfl⟩
      · obtain ⟨rfl, rfl⟩ := Action.gives_pure_iff.1 hnext
        exact ⟨heap, h, budget, hzero⟩
      · exact ih (h.more ⟨budget, htest⟩ hne ⟨budget, hvalue⟩) hnext

/-- Conversely, with enough budget turns begin with given rounds. -/
theorem Rounds.exists_turns {last : Value} (h : Rounds condition body scope start last heap) :
    ∃ enough k, ∀ budget, enough ≤ budget → ∀ n value heap',
      (Action.iterate (turn (eval budget) condition body scope) n last).Gives heap value heap' →
      (Action.iterate (turn (eval budget) condition body scope) (n + k) (.integer 0)).Gives start
        value heap' := by
  induction h with
  | none => exact ⟨0, 0, fun _ _ _ _ _ hturns => hturns⟩
  | @more last test value heap middle heap' _ htest hne hvalue ih =>
      obtain ⟨enough, k, hrounds⟩ := ih
      obtain ⟨first, htest⟩ := htest
      obtain ⟨second, hvalue⟩ := hvalue
      refine ⟨max enough (max first second), k + 1, fun budget hle n result after hturns => ?_⟩
      have hturn : (turn (eval budget) condition body scope last).Gives heap (.inl value) heap' :=
        gives_turn_iff.2 (.inr ⟨test, middle, value, gives_eval_of_le (by omega) htest, hne,
          gives_eval_of_le (by omega) hvalue, rfl⟩)
      have hround : (Action.iterate (turn (eval budget) condition body scope) (n + 1) last).Gives
          heap result after := by
        rw [Action.iterate_succ]
        exact hturn.bind hturns
      rw [Nat.add_comm k, ← Nat.add_assoc]
      exact hrounds budget (by omega) (n + 1) result after hround

/-- A loop has a value exactly if rounds lead to a heap in which its condition is zero. One budget
bounds the evaluation of the parts and the number of turns. -/
theorem evaluates_loop_iff :
    Evaluates (.branch .loop [condition, body]) scope start value heap' ↔
      ∃ heap, Rounds condition body scope start value heap ∧
        Evaluates condition scope heap (.integer 0) heap' := by
  constructor
  · intro ⟨budget, h⟩
    obtain ⟨n, _, _, -, hcondition, hbody, hturns⟩ := gives_loop_iff.1 h
    cases hcondition
    cases hbody
    exact Rounds.none.of_turns hturns
  · intro ⟨heap, hrounds, last, hzero⟩
    obtain ⟨enough, k, hrounds⟩ := hrounds.exists_turns
    let n := max last enough
    have hlast : (Action.iterate (turn (eval (n + 1 + k)) condition body scope) (n + 1) value).Gives
        heap value heap' := by
      rw [Action.iterate_succ]
      exact Action.Gives.bind
        (gives_turn_iff.2 (.inl ⟨gives_eval_of_le (by omega) hzero, rfl⟩)) (Action.gives_pure _)
    exact ⟨n + 1 + k + 1, gives_loop_iff.2 ⟨n + 1 + k, condition, body, rfl, rfl, rfl,
      hrounds (n + 1 + k) (by omega) (n + 1) value heap' hlast⟩⟩

/-! ## Loops with a pure condition -/

/-- If a loop with a pure condition ends with a value, its condition is the integer zero in the heap
it ends in, and nothing else. The value is that of the last body, or zero if there was none. What
holds at the start and is kept by the body, wherever the condition is not zero, holds at the end. -/
theorem loop_ends_at_zero (hcondition : condition.IsPure)
    (h : Evaluates (.branch .loop [condition, body]) scope start value heap) :
    Evaluates condition scope heap (.integer 0) heap ∧
    (∀ test after, Evaluates condition scope heap test after → test = .integer 0) ∧
    Rounds condition body scope start value heap ∧
    ∀ P : Heap → Prop, P start →
      (∀ before value after, P before →
        ¬ Evaluates condition scope before (.integer 0) before →
        Evaluates body scope before value after → P after) → P heap := by
  obtain ⟨before, hrounds, hzero⟩ := evaluates_loop_iff.1 h
  obtain rfl := hzero.eq_of_isPure hcondition
  refine ⟨hzero, fun test after htest => (htest.unique hzero).1, hrounds, fun P hstart hbody =>
    hrounds.keeps hstart ?_⟩
  intro before test middle value after hbefore htest hne hvalue
  obtain rfl := htest.eq_of_isPure hcondition
  exact hbody middle value after hbefore (fun hzero => hne (htest.unique hzero).1) hvalue

/-- The condition is a text until the third round, which calls a function that makes it zero. -/
theorem loop_ends_at_zero_text :
    let name := fun text => Tree.leaf .variable ⟨.word text, 1⟩
    let number := fun n => Tree.leaf .number ⟨.number n, 1⟩
    let operation := fun left sign right =>
      Tree.branch .binary [left, .leaf .plain ⟨.word sign, 1⟩, right]
    let stop := Heap.empty.makeFunction "stop" (.branch .parameters [])
      (.branch .block [operation (name "c") "=" (number 0)]) 0
    let start := ((stop.2.makeScope.2.bind 0 "stop" (.function stop.1)).bind 0 "c"
      (.text "go")).bind 0 "n" (.integer 0)
    let body := Tree.branch .block [operation (name "n") "=" (operation (name "n") "+" (number 1)),
      .branch .conditional [operation (name "n") "==" (number 3),
        .branch .block [.branch .primary [name "stop", .branch .arguments []]]]]
    (name "c").IsPure ∧ ∃ value heap,
      Evaluates (.branch .loop [name "c", body]) 0 start value heap ∧
      Evaluates (name "c") 0 heap (.integer 0) heap ∧
      Rounds (name "c") body 0 start value heap ∧
      (heap.get? 0 "n").map Value.printed = some "3" := by
  intro name number operation stop start body
  have hpure : (name "c").IsPure := isPure_leaf _ _
  have hvalue : (eval 20 (.branch .loop [name "c", body]) 0 start).value?.map
      (fun result => (result.2.get? 0 "n").map Value.printed) = some (some "3") := by decide +kernel
  obtain ⟨⟨value, heap⟩, hvalue, hn⟩ := Option.map_eq_some_iff.1 hvalue
  have hloop : Evaluates (.branch .loop [name "c", body]) 0 start value heap :=
    ⟨20, Action.gives_of_value? hvalue⟩
  obtain ⟨hzero, -, hrounds, -⟩ := loop_ends_at_zero hpure hloop
  exact ⟨hpure, value, heap, hloop, hzero, hrounds, hn⟩

end Eval

end TreeScript
