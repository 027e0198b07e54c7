import TreeScript.Proofs.Program.Relocated

/-!
# Pure trees

A tree is pure if no assignment, no definition and no arguments of a call stand in it. Then its
evaluation leaves the heap as it is, also if it fails, and also if the tree is malformed
(`still_eval`). So one may evaluate it again, or other pure trees before it, and the outcome is the
same.

A pure loop does in every turn what it did in the first one. So its condition is zero at once, or
the loop does not end with a value (`gives_loop`).
-/

namespace TreeScript

/-! ## Trees that change nothing -/

namespace Tree

variable {kind : BranchKind} {children : List Tree} {tree part root : Tree}

/-- What is inside a part is inside the whole. -/
theorem Inside.trans (h : part.Inside tree) (h' : tree.Inside root) : part.Inside root := by
  induction h with
  | self => exact h'
  | child _ hmem ih => exact (ih h').child hmem

/-- What stands in a tree is the tree or stands in a child of it. -/
theorem Inside.cases_children (h : part.Inside tree) :
    part = tree ∨ ∃ child ∈ tree.children, part.Inside child := by
  induction h with
  | self => exact .inl rfl
  | @child kind children part tree _ hmem ih =>
      rcases ih with rfl | ⟨child, hchild, hinside⟩
      · exact .inr ⟨part, hmem, .self part⟩
      · exact .inr ⟨child, hchild, hinside.child hmem⟩

/-- The tree is an assignment, a definition or the arguments of a call. -/
def Changes : Tree → Prop
  | .branch .binary children => children[1]?.bind name? = some "="
  | .branch .definition _ => True
  | .branch .arguments _ => True
  | _ => False

/-- No such tree stands in the tree. -/
def IsPure (tree : Tree) : Prop := ∀ part : Tree, part.Inside tree → ¬ part.Changes

/-- All inside a pure tree is pure. -/
theorem IsPure.inside (h : tree.IsPure) (hpart : part.Inside tree) : part.IsPure :=
  fun other hother => h other (hother.trans hpart)

theorem IsPure.of_mem (h : tree.IsPure) (hmem : part ∈ tree.children) : part.IsPure :=
  h.inside ((Inside.self tree).of_mem_children hmem)

theorem IsPure.not_changes (h : tree.IsPure) : ¬ tree.Changes := h tree (.self tree)

/-- A tree is pure if it changes nothing itself and its children are pure. -/
theorem isPure_of_children (htree : ¬ tree.Changes)
    (hchildren : ∀ child ∈ tree.children, child.IsPure) : tree.IsPure := by
  intro part hpart
  rcases hpart.cases_children with rfl | ⟨child, hchild, hinside⟩
  · exact htree
  · exact hchildren child hchild part hinside

@[simp] theorem isPure_leaf (kind : LeafKind) (token : Token) : (leaf kind token).IsPure :=
  isPure_of_children id nofun

@[simp] theorem isPure_branch_iff :
    (branch kind children).IsPure ↔
      ¬ (branch kind children).Changes ∧ ∀ child ∈ children, child.IsPure :=
  ⟨fun h => ⟨h.not_changes, fun _ => h.of_mem⟩, fun h => isPure_of_children h.1 h.2⟩

end Tree

namespace Eval

open TreeScript.Tree

variable {α β : Type} {x : Evaluator α} {tree : Tree} {scope : ScopeId} {budget : Nat}
  {heap heap' : Heap}

/-! ## Steps that leave the heap as it is -/

/-- The heap is left as it was, with a value and with an error alike. -/
def Still (x : Evaluator α) : Prop :=
  ∀ heap, x.Ensures heap (fun _ heap' => heap' = heap) fun _ heap' => heap' = heap

theorem still_pure (a : α) : Still (pure a) := fun _ => rfl

theorem still_fail (e : EvalError) : Still (Action.fail e : Evaluator α) := fun _ => rfl

theorem still_unfinished : Still (Action.unfinished : Evaluator α) := fun _ => trivial

theorem still_view (f : Heap → α) : Still (Action.view f : Evaluator α) := fun _ => rfl

theorem still_ofExcept (result : Except EvalError α) : Still (Action.ofExcept result) := by
  cases result with
  | ok a => exact still_pure a
  | error e => exact still_fail e

/-- What changes nothing can be followed by what changes nothing. -/
theorem Still.bind {f : α → Evaluator β} (h : Still x) (hf : ∀ a, Still (f a)) :
    Still (x >>= f) := by
  intro heap
  rw [Action.ensures_bind]
  apply (h heap).mono
  · intro a heap' heq
    subst heq
    exact hf a heap'
  · exact fun _ _ heq => heq

/-- A loop changes nothing if no turn does. -/
theorem still_iterate {body : β → Evaluator (β ⊕ α)} (h : ∀ b, Still (body b)) (n : Nat) (b : β) :
    Still (Action.iterate body n b) := by
  induction n generalizing b with
  | zero => exact still_unfinished
  | succ n ih =>
      rw [Action.iterate_succ]
      apply (h b).bind
      intro result
      cases result with
      | inl c => exact ih c
      | inr a => exact still_pure a

/-- The heap is the same after a value. -/
theorem Still.eq_of_gives {a : α} (h : Still x) (hx : x.Gives heap a heap') : heap' = heap :=
  (h heap).of_gives hx

/-- A child is looked up, and only a child that is there matters for what follows. -/
theorem still_child_bind {index : Nat} {f : Tree → Evaluator β}
    (hf : ∀ part, tree.children[index]? = some part → Still (f part)) :
    Still (child tree index >>= f) := by
  cases hpart : tree.children[index]? with
  | some part =>
      rw [child_eq hpart, pure_bind]
      exact hf part hpart
  | none =>
      intro heap
      simp [child, Tree.child, hpart, Except.mapError, Action.ofExcept]

/-- A name is looked up, and only a name that is there matters for what follows. -/
theorem still_nameOf_bind {f : String → Evaluator β}
    (hf : ∀ name, tree.name? = some name → Still (f name)) : Still (nameOf tree >>= f) := by
  unfold nameOf
  cases hname : tree.name? with
  | some name => exact hf name hname
  | none => exact still_fail _

theorem still_numberOf (token : Token) : Still (numberOf token) := by
  unfold numberOf
  cases token.number? with
  | some n => exact still_pure _
  | none => exact still_fail _

theorem still_valueOf (name : String) (scope : ScopeId) : Still (valueOf name scope) := by
  apply (still_view _).bind
  intro found
  cases found with
  | some value => exact still_pure value
  | none => exact still_fail _

/-! ## Pure trees -/

section Recursor

variable {eval : Recursor} (he : ∀ tree : Tree, tree.IsPure → ∀ scope, Still (eval tree scope))
  {children : List Tree}
include he

/-- A child of a pure tree is evaluated. -/
theorem still_eval_child (h : tree.IsPure) (index : Nat) {f : Value → Evaluator β}
    (hf : ∀ value, Still (f value)) (scope : ScopeId) :
    Still (do f (← eval (← child tree index) scope)) := by
  apply still_child_bind
  intro part hpart
  exact (he part (h.of_mem (List.mem_of_getElem? hpart)) scope).bind hf

/-- A pure operation is no assignment. -/
theorem still_binary (h : (branch .binary children).IsPure) (scope : ScopeId) :
    Still (binary eval (.branch .binary children) scope) := by
  apply still_child_bind
  intro left hleft
  apply still_child_bind
  intro middle hmiddle
  apply still_nameOf_bind
  intro operator hoperator
  apply still_child_bind
  intro right hright
  have hassign : operator ≠ "=" := by
    intro heq
    apply h.not_changes
    show children[1]?.bind name? = some "="
    rw [show children[1]? = some middle from hmiddle, Option.bind_some, hoperator, heq]
  rw [if_neg hassign]
  apply (he left (h.of_mem (List.mem_of_getElem? hleft)) scope).bind
  intro l
  apply (he right (h.of_mem (List.mem_of_getElem? hright)) scope).bind
  exact fun r => still_ofExcept _

/-- What follows an operand are no arguments, so there is no call. -/
theorem still_primary (h : tree.IsPure) (scope : ScopeId) (k : Nat) :
    Still (primary eval tree scope k) := by
  induction k with
  | zero =>
      apply still_child_bind
      intro operand hoperand
      exact he operand (h.of_mem (List.mem_of_getElem? hoperand)) scope
  | succ k ih =>
      apply ih.bind
      intro target
      apply still_child_bind
      intro following hfollowing
      have hpure := (h.of_mem (List.mem_of_getElem? hfollowing)).not_changes
      unfold applyPostfix
      split
      · exact absurd trivial hpure
      · exact still_fail _

/-- Statements that are pure change nothing together. -/
theorem still_sequence (scope : ScopeId) {statements : List Tree}
    (h : ∀ statement ∈ statements, statement.IsPure) (result : Value) :
    Still (sequence (eval · scope) result statements) := by
  induction statements generalizing result with
  | nil => exact still_pure result
  | cons statement statements ih =>
      obtain ⟨hfirst, hrest⟩ := List.forall_mem_cons.1 h
      rw [sequence]
      split
      · exact ih hrest result
      · exact (he statement hfirst scope).bind fun value => ih hrest value

theorem still_conditional (h : tree.IsPure) (scope : ScopeId) :
    Still (conditional eval tree scope) := by
  apply still_eval_child he h
  intro condition
  split
  · apply still_child_bind
    intro body hbody
    exact he body (h.of_mem (List.mem_of_getElem? hbody)) scope
  · split
    · next otherwise hotherwise =>
        exact he otherwise (h.of_mem (List.mem_of_getElem? hotherwise)) scope
    · exact still_pure _

/-- One turn of a loop changes nothing if its parts are pure. -/
theorem still_turn {condition body : Tree} (hcondition : condition.IsPure) (hbody : body.IsPure)
    (scope : ScopeId) (result : Value) : Still (turn eval condition body scope result) := by
  apply (he condition hcondition scope).bind
  intro value
  split
  · exact still_pure _
  · exact (he body hbody scope).bind fun _ => still_pure _

/-- A pure loop changes nothing, however often it turns. -/
theorem still_loop (budget : Nat) (h : tree.IsPure) (scope : ScopeId) :
    Still (loop eval budget tree scope) := by
  apply still_child_bind
  intro condition hcondition
  apply still_child_bind
  intro body hbody
  have hturn := still_turn he (h.of_mem (List.mem_of_getElem? hcondition))
    (h.of_mem (List.mem_of_getElem? hbody)) scope
  exact still_iterate hturn budget _

/-- By cases on the kind of the tree. A call or a definition would not be pure. -/
theorem still_step (budget : Nat) (h : tree.IsPure) (scope : ScopeId) :
    Still (step eval budget tree scope) := by
  cases tree with
  | leaf kind token =>
      cases kind with
      | number => exact still_numberOf token
      | string => exact still_pure _
      | «variable» => exact still_valueOf _ scope
      | plain => exact still_fail _
  | branch kind children =>
      cases kind with
      | negative => exact still_eval_child he h 0 (fun _ => still_ofExcept _) scope
      | binary => exact still_binary he h scope
      | primary => exact still_primary he h scope _
      | block => exact still_sequence he scope (fun _ hmem => h.of_mem hmem) _
      | conditional => exact still_conditional he h scope
      | loop => exact still_loop he budget h scope
      | null => exact still_pure _
      | definition | arguments => exact absurd trivial h.not_changes
      | list | parameters => exact still_fail _

end Recursor

/-- The evaluation of a pure tree leaves the heap as it is. -/
theorem still_eval (budget : Nat) (tree : Tree) (h : tree.IsPure) (scope : ScopeId) :
    Still (eval budget tree scope) := by
  induction budget generalizing tree scope with
  | zero => exact still_unfinished
  | succ budget ih => exact still_step ih budget h scope

/-! ## Turns of a loop -/

/-- Only the integer zero is false. -/
theorem isFalse_iff {value : Value} : value.isFalse = true ↔ value = .integer 0 := by
  cases value with
  | integer n => simp [Value.isFalse]
  | text | function | nil => simp [Value.isFalse]

theorem gives_child_iff {index : Nat} {part : Tree} : (child tree index).Gives heap part heap' ↔
    tree.children[index]? = some part ∧ heap' = heap := by
  cases hpart : tree.children[index]? with
  | some other =>
      rw [child_eq hpart, Action.gives_pure_iff, Option.some_inj]
      exact and_congr_left fun _ => eq_comm
  | none =>
      constructor
      · intro ⟨journal, h⟩
        simp [child, Tree.child, hpart, Except.mapError, Action.ofExcept, Action.fail] at h
      · intro h
        cases h.1

section Turns

variable {condition body : Tree} {value result : Value}

/-- A turn is the last one if its condition is zero. Otherwise it evaluates the body. -/
theorem gives_turn_iff {next : Value ⊕ Value} :
    (turn (eval budget) condition body scope result).Gives heap next heap' ↔
      (eval budget condition scope).Gives heap (.integer 0) heap' ∧ next = .inr result ∨
      ∃ test middle value, (eval budget condition scope).Gives heap test middle ∧
        test ≠ .integer 0 ∧ (eval budget body scope).Gives middle value heap' ∧
          next = .inl value := by
  constructor
  · intro h
    obtain ⟨test, middle, htest, hchosen⟩ := h.of_bind
    split at hchosen
    · next hfalse =>
        obtain ⟨rfl, rfl⟩ := Action.gives_pure_iff.1 hchosen
        rw [isFalse_iff.1 hfalse] at htest
        exact .inl ⟨htest, rfl⟩
    · next hfalse =>
        obtain ⟨value, after, hvalue, hnext⟩ := hchosen.of_bind
        obtain ⟨rfl, rfl⟩ := Action.gives_pure_iff.1 hnext
        exact .inr ⟨test, middle, value, htest, fun hzero => hfalse (isFalse_iff.2 hzero), hvalue,
          rfl⟩
  · rintro (⟨hzero, rfl⟩ | ⟨test, middle, value, htest, hne, hvalue, rfl⟩)
    · exact hzero.bind (Action.gives_pure _)
    · apply htest.bind
      rw [if_neg fun hfalse => hne (isFalse_iff.1 hfalse)]
      exact hvalue.bind (Action.gives_pure _)

/-- A loop has a condition and a body and takes turns with them. -/
theorem gives_loop_iff {children : List Tree} :
    (eval budget (.branch .loop children) scope).Gives heap value heap' ↔
      ∃ n condition body, budget = n + 1 ∧ children[0]? = some condition ∧
        children[1]? = some body ∧
        (Action.iterate (turn (eval n) condition body scope) n (.integer 0)).Gives heap value
          heap' := by
  constructor
  · intro h
    cases budget with
    | zero =>
        obtain ⟨journal, h⟩ := h
        cases h
    | succ n =>
        have hloop : (loop (eval n) n (.branch .loop children) scope).Gives heap value heap' := h
        obtain ⟨condition, _, hfirst, hafter⟩ := hloop.of_bind
        obtain ⟨hcondition, rfl⟩ := gives_child_iff.1 hfirst
        obtain ⟨body, _, hsecond, hturns⟩ := hafter.of_bind
        obtain ⟨hbody, rfl⟩ := gives_child_iff.1 hsecond
        exact ⟨n, condition, body, rfl, hcondition, hbody, hturns⟩
  · rintro ⟨n, condition, body, rfl, hcondition, hbody, hturns⟩
    exact (gives_child_iff.2 ⟨hcondition, rfl⟩).bind ((gives_child_iff.2 ⟨hbody, rfl⟩).bind hturns)

/-! ## Pure loops -/

/-- Turns in a heap that they leave as it is are all alike, so if one goes on there is no end. -/
theorem not_ends_of_turn {test : Value} (htest : (eval budget condition scope).Gives heap test heap)
    (hne : test ≠ .integer 0) (hbody : (eval budget body scope).Gives heap value heap)
    (n : Nat) (result : Value) :
    ¬ (Action.iterate (turn (eval budget) condition body scope) n result).Ends heap := by
  apply Action.not_ends_iterate (fun _ now => now = heap) _ n result heap rfl
  intro result now hnow
  subst hnow
  exact ⟨value, now, gives_turn_iff.2 (.inr ⟨test, now, value, htest, hne, hbody, rfl⟩), rfl⟩

/-- If condition and body leave the heap as it is, turns end with a value only if the condition is
zero at once, and then nothing was done. -/
theorem gives_turns (hcondition : Still (eval budget condition scope))
    (hbody : Still (eval budget body scope)) {n : Nat}
    (h : (Action.iterate (turn (eval budget) condition body scope) n result).Gives heap value
      heap') :
    value = result ∧ (eval budget condition scope).Gives heap (.integer 0) heap := by
  cases n with
  | zero =>
      obtain ⟨journal, h⟩ := h
      cases h
  | succ n =>
      have hends := h.ends
      rw [Action.iterate_succ] at h
      obtain ⟨next, after, hturn, hnext⟩ := h.of_bind
      rcases gives_turn_iff.1 hturn with ⟨hzero, rfl⟩ | ⟨test, middle, _, htest, hne, hvalue, rfl⟩
      · obtain rfl := hcondition.eq_of_gives hzero
        exact ⟨(Action.gives_pure_iff.1 hnext).1, hzero⟩
      · obtain rfl := hcondition.eq_of_gives htest
        obtain rfl := hbody.eq_of_gives hvalue
        exact absurd hends (not_ends_of_turn htest hne hvalue (n + 1) result)

end Turns

/-- A pure loop gives a value only if its condition is zero in the heap that it begins with, and
then this value is zero. -/
theorem gives_loop {children : List Tree} {value : Value}
    (h : (branch .loop children).IsPure)
    (hloop : (eval budget (.branch .loop children) scope).Gives heap value heap') :
    value = .integer 0 ∧ ∃ condition n, budget = n + 1 ∧ children[0]? = some condition ∧
      (eval n condition scope).Gives heap (.integer 0) heap := by
  obtain ⟨n, condition, body, hn, hcondition, hbody, hturns⟩ := gives_loop_iff.1 hloop
  have hpure := h.of_mem (List.mem_of_getElem? hcondition)
  have hpure' := h.of_mem (List.mem_of_getElem? hbody)
  obtain ⟨hvalue, hzero⟩ :=
    gives_turns (still_eval n condition hpure scope) (still_eval n body hpure' scope) hturns
  exact ⟨hvalue, condition, n, hn, hcondition, hzero⟩

/-- If a pure tree is evaluated and this ends, the heap is as it was, with a value and with an error
alike. So after any pure tree that was evaluated, itself or another one, its evaluation does the
same once more. A loop in it gives a value only if its condition is zero the first time, and gives
zero then. -/
theorem pure_repeatable {tree : Tree} (h : tree.IsPure) (scope : ScopeId) (heap : Heap) :
    (∀ budget heap', (eval budget tree scope).Leads heap heap' → heap' = heap) ∧
    (∀ (other : Tree) scope' budget budget' heap', other.IsPure →
      (eval budget' other scope').Leads heap heap' →
        eval budget tree scope heap' = eval budget tree scope heap) ∧
    ∀ children, (branch .loop children).Inside tree → ∀ scope' budget value before after,
      (eval budget (.branch .loop children) scope').Gives before value after →
        value = .integer 0 ∧ ∃ condition n, budget = n + 1 ∧ children[0]? = some condition ∧
          (eval n condition scope').Gives before (.integer 0) before := by
  refine ⟨?_, ?_, ?_⟩
  · intro budget heap' hleads
    exact (still_eval budget tree h scope heap).of_leads hleads
  · intro other scope' budget budget' heap' hother hleads
    rw [(still_eval budget' other hother scope' heap).of_leads hleads]
  · intro children hinside scope' budget value before after hgives
    exact gives_loop (h.inside hinside) hgives

/-- A loop that is left at once, and then a division by zero. -/
theorem pure_repeatable_division :
    let heap := Heap.empty.makeScope.2.bind 0 "x" (.integer 0)
    let zero := Tree.leaf .variable ⟨.word "x", 1⟩
    let idle := branch .loop [zero, .branch .block [zero]]
    let tree := branch .block
      [idle, .branch .binary [.leaf .number ⟨.number 1, 2⟩, .leaf .plain ⟨.word "/", 2⟩, zero]]
    tree.IsPure ∧ (eval 5 tree 0).Stops heap .divisionByZero heap ∧
      (eval 4 idle 0).Gives heap (.integer 0) heap ∧
      (eval 3 zero 0).Gives heap (.integer 0) heap := by
  intro heap zero idle tree
  have hpure : tree.IsPure := by simp [tree, idle, zero, Changes, name?, Token.word?]
  have hinside : idle.Inside tree := (Inside.self tree).child (by simp)
  obtain ⟨hkept, -, hloops⟩ := pure_repeatable hpure 0 heap
  have herror : (eval 5 tree 0 heap).error?.map Prod.fst = some .divisionByZero := by
    decide +kernel
  obtain ⟨⟨error, heap'⟩, hstops, rfl⟩ := Option.map_eq_some_iff.1 herror
  have hstops := Action.stops_of_error? hstops
  obtain rfl := hkept 5 heap' (.inr ⟨_, hstops⟩)
  have hvalue : (eval 4 idle 0 heap).value?.isSome = true := by decide +kernel
  obtain ⟨⟨value, after⟩, hvalue⟩ := Option.isSome_iff_exists.1 hvalue
  have hgives := Action.gives_of_value? hvalue
  obtain ⟨rfl, condition, n, hn, hcondition, hzero⟩ := hloops _ hinside 0 4 value heap after hgives
  cases hn
  cases hcondition
  obtain ⟨hkept', -, -⟩ := pure_repeatable (hpure.inside hinside) 0 heap
  obtain rfl := hkept' 4 after (.inl ⟨_, hgives⟩)
  exact ⟨hpure, hstops, hgives, hzero⟩

end Eval

end TreeScript
