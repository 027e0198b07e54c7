import TreeScript.Eval
import TreeScript.Proofs.Likeness
import TreeScript.Proofs.Simulation

/-!
# Trees that are evaluated alike

Evaluation does not look at lines of tokens, at the numbers of functions beyond whether two are the
same, or at scopes that it cannot reach. So for any `Likeness`, trees that stand for each other are
evaluated alike in heaps that are tied: if the one evaluation ends, so does the other, with a value
that is tied to the first or with the same error, and in a heap that is tied again
(`alike_eval`). The second evaluation may have the larger budget.

`Alike n` is the simulation of one step. Its heaps are at least as large as `n`, so what was known
of a value in a heap of that size is still known after the step.
-/

namespace TreeScript

namespace Eval

variable {L : Likeness} {α α' β β' : Type} {n m : Nat} {A : Nat → α → α' → Prop}
  {B : Nat → β → β' → Prop} {x : Evaluator α} {x' : Evaluator α'}

/-- From tied heaps of at least this size the second step does what the first one does. The heaps
after it are tied, and `A` ties the values as the size of the heap lets it. -/
def Alike (L : Likeness) (n : Nat) (A : Nat → α → α' → Prop) (x : Evaluator α)
    (x' : Evaluator α') : Prop :=
  Action.Simulates (fun heap heap' => L.Heaps heap heap' ∧ n ≤ heap.scopes.size)
    (fun a heap a' heap' => (L.Heaps heap heap' ∧ n ≤ heap.scopes.size) ∧ A heap.scopes.size a a')
    (fun e heap e' heap' => e' = e ∧ L.Heaps heap heap' ∧ n ≤ heap.scopes.size) x x'

/-! ## Single steps -/

/-- Values that are alike may be given. -/
theorem alike_pure {a : α} {a' : α'} (h : ∀ m, n ≤ m → A m a a') :
    Alike L n A (pure a) (pure a') :=
  Action.simulates_pure fun _ _ hp => ⟨hp, h _ hp.2⟩

theorem alike_fail {e e' : EvalError} (h : e' = e) :
    Alike L n A (Action.fail e) (Action.fail e') :=
  Action.simulates_fail fun _ _ hp => ⟨h, hp⟩

/-- What never ends is simulated by anything. -/
theorem alike_unfinished : Alike L n A Action.unfinished x' := Action.simulates_unfinished

theorem alike_tell (event event' : Event) :
    Alike L n (fun _ _ _ => True) (Action.tell event) (Action.tell event') :=
  Action.simulates_tell event event' fun _ _ hp => ⟨hp, trivial⟩

/-- Updates that keep heaps alike and drop no scope are alike. -/
theorem alike_update {f f' : Heap → Heap}
    (h : ∀ heap heap', L.Heaps heap heap' → n ≤ heap.scopes.size →
      L.Heaps (f heap) (f' heap') ∧ n ≤ (f heap).scopes.size) :
    Alike L n (fun _ _ _ => True) (Action.update f) (Action.update f') :=
  Action.simulates_update fun heap heap' hp => ⟨h heap heap' hp.1 hp.2, trivial⟩

/-- The second step may use what ties the values of the first one. -/
theorem Alike.bind {f : α → Evaluator β} {f' : α' → Evaluator β'} (h : Alike L n A x x')
    (hf : ∀ m, n ≤ m → ∀ a a', A m a a' → Alike L m B (f a) (f' a')) :
    Alike L n B (x >>= f) (x' >>= f') := by
  refine Action.Simulates.bind h fun a a' heap heap' hq => ?_
  obtain ⟨⟨hheaps, hn⟩, ha⟩ := hq
  refine (hf _ hn a a' ha).mono (fun _ _ hp => hp) ?_ ?_ heap heap' ⟨hheaps, Nat.le_refl _⟩
  · rintro b t b' t' ⟨⟨ht, hm⟩, hb⟩
    exact ⟨⟨ht, Nat.le_trans hn hm⟩, hb⟩
  · rintro e t e' t' ⟨he, ht, hm⟩
    exact ⟨he, ht, Nat.le_trans hn hm⟩

/-- Loops are alike if their turns are. The first one to run out of turns is the one on the left. -/
theorem alike_iterate {body : β → Evaluator (β ⊕ α)} {body' : β' → Evaluator (β' ⊕ α')}
    (hB : ∀ {k l : Nat} {b : β} {b' : β'}, B k b b' → k ≤ l → B l b b')
    (h : ∀ m, n ≤ m → ∀ b b', B m b b' → Alike L m (fun k r r' =>
      (∃ c c', r = .inl c ∧ r' = .inl c' ∧ B k c c') ∨
        ∃ a a', r = .inr a ∧ r' = .inr a' ∧ A k a a') (body b) (body' b'))
    {budget budget' : Nat} (hle : budget ≤ budget') {b : β} {b' : β'} (hb : B n b b') :
    Alike L n A (Action.iterate body budget b) (Action.iterate body' budget' b') := by
  refine (Action.simulates_iterate
    (fun b heap b' heap' => (L.Heaps heap heap' ∧ n ≤ heap.scopes.size) ∧ B heap.scopes.size b b')
    (fun b b' heap heap' hp => ?_) hle b b').mono (fun _ _ hp => ⟨hp, hB hb hp.2⟩)
      (fun _ _ _ _ hq => hq) fun _ _ _ _ he => he
  obtain ⟨⟨hheaps, hn⟩, hb⟩ := hp
  refine (h _ hn b b' hb).mono (fun _ _ hp => hp) ?_ ?_ heap heap' ⟨hheaps, Nat.le_refl _⟩
  · rintro r t r' t' ⟨⟨ht, hm⟩, hr⟩
    have ht' := And.intro ht (Nat.le_trans hn hm)
    rcases hr with ⟨c, c', rfl, rfl, hc⟩ | ⟨a, a', rfl, rfl, ha⟩
    · exact .inl ⟨c, c', rfl, rfl, ht', hc⟩
    · exact .inr ⟨a, a', rfl, rfl, ht', ha⟩
  · rintro e t e' t' ⟨he, ht, hm⟩
    exact ⟨he, ht, Nat.le_trans hn hm⟩

/-! ## Leaves and operators -/

section

variable {tree tree' : Tree} {scope : ScopeId} {v v' w w' : Value}

/-- The same part of trees that are alike. -/
theorem alike_child (ht : L.Trees tree tree') (index : Nat) :
    Alike L n (fun _ => L.Trees) (child tree index) (child tree' index) := by
  have hmatch := L.trees_match _ _ ht
  have hprinted := Tree.printed_eq_of_matches L.trees_match hmatch
  unfold child Tree.child
  rw [hprinted]
  have hrel := hmatch.rel_child index
  generalize tree.children[index]? = found at hrel ⊢
  generalize tree'.children[index]? = found' at hrel ⊢
  cases hrel with
  | none => exact alike_fail rfl
  | some hc => exact alike_pure fun _ _ => hc

/-- Trees that are alike name the same. -/
theorem alike_nameOf (ht : L.Trees tree tree') :
    Alike L n (fun _ name name' => name' = name) (nameOf tree) (nameOf tree') := by
  have hmatch := L.trees_match _ _ ht
  unfold nameOf
  rw [hmatch.name?_eq, hmatch.kind_eq]
  split
  · exact alike_pure fun _ _ => rfl
  · exact alike_fail rfl

/-- What a computation without a heap may give on either side. -/
theorem alike_ofExcept {r r' : Except EvalError Value}
    (h : (∃ e, r = .error e ∧ r' = .error e) ∨
      ∃ v v', r = .ok v ∧ r' = .ok v' ∧ L.Values n v v') :
    Alike L n L.Values (Action.ofExcept r) (Action.ofExcept r') := by
  rcases h with ⟨e, rfl, rfl⟩ | ⟨v, v', rfl, rfl, hv⟩
  · exact alike_fail rfl
  · exact alike_pure fun _ hm => hv.mono hm

theorem alike_negate (hv : L.Values n v v') :
    Alike L n L.Values (Action.ofExcept (negate v)) (Action.ofExcept (negate v')) := by
  refine alike_ofExcept ?_
  cases hv with
  | integer k => exact .inr ⟨_, _, rfl, rfl, .integer _⟩
  | text s => exact .inl ⟨_, rfl, rfl⟩
  | function hf _ => exact .inl ⟨_, rfl, rfl⟩
  | nil => exact .inl ⟨_, rfl, rfl⟩

/-- An operator on integers gives an integer. -/
theorem exists_integer_of_integerOperator {operator : String} {left right : Int64} {v : Value}
    (h : integerOperator operator left right = .ok v) : ∃ k, v = .integer k := by
  unfold integerOperator at h
  split at h <;> try split at h
  all_goals cases h
  all_goals exact ⟨_, rfl⟩

/-- Without two integers only printed forms, sorts and sameness count. -/
theorem applyOperator_of_not_integers (operator : String)
    (h : ∀ left right, v = .integer left → w ≠ .integer right) :
    applyOperator operator v w =
      if operator = "+" then .ok (.text (v.printed ++ w.printed))
      else if operator = "==" then .ok (.ofBool (v.same w))
      else .error (.badType v.typeName operator w.typeName) := by
  cases v <;> cases w <;> first | rfl | exact absurd rfl (h _ _ rfl)

/-- Values that are alike print alike, compare alike and have types of the same name. -/
theorem alike_applyOperator (operator : String) (hv : L.Values n v v') (hw : L.Values n w w') :
    Alike L n L.Values (Action.ofExcept (applyOperator operator v w))
      (Action.ofExcept (applyOperator operator v' w')) := by
  refine alike_ofExcept ?_
  by_cases hints : ∃ left right, v = .integer left ∧ w = .integer right
  · obtain ⟨left, right, rfl, rfl⟩ := hints
    cases hv
    cases hw
    simp only [applyOperator]
    cases hr : integerOperator operator left right with
    | error e => exact .inl ⟨e, rfl, rfl⟩
    | ok u =>
        obtain ⟨k, rfl⟩ := exists_integer_of_integerOperator hr
        exact .inr ⟨_, _, rfl, rfl, .integer k⟩
  · have hleft : ∀ left right, v = .integer left → w ≠ .integer right :=
      fun left right hl hr => hints ⟨left, right, hl, hr⟩
    have hright : ∀ left right, v' = .integer left → w' ≠ .integer right := by
      rintro left right rfl rfl
      cases hv
      cases hw
      exact hleft left right rfl rfl
    rw [applyOperator_of_not_integers operator hleft, applyOperator_of_not_integers operator hright,
      hv.printed_eq, hw.printed_eq, hv.same_eq hw, hv.typeName_eq, hw.typeName_eq]
    split
    · exact .inr ⟨_, _, rfl, rfl, .text _⟩
    · split
      · exact .inr ⟨_, _, rfl, rfl, .integer _⟩
      · exact .inl ⟨_, rfl, rfl⟩

/-- The same name is assigned, in the same scope of both heaps. -/
theorem alike_assign (ht : L.Trees tree tree') (hs : L.Visible n scope) (hv : L.Values n v v') :
    Alike L n L.Values (assign tree v scope) (assign tree' v' scope) := by
  have hmatch := L.trees_match _ _ ht
  have hprinted := Tree.printed_eq_of_matches L.trees_match hmatch
  cases hmatch with
  | @leaf kind token token' htoken =>
      have htext : token'.toText = token.toText := by rw [Token.toText, htoken, Token.toText]
      cases kind <;> try exact alike_fail (by rw [hprinted])
      refine Alike.bind (alike_update fun heap heap' hheaps hn => ?_) fun m hm _ _ _ =>
        alike_pure fun k hk => hv.mono (Nat.le_trans hm hk)
      rw [htext]
      refine ⟨hheaps.assign _ (hs.mono hn) (hv.mono hn), ?_⟩
      simpa [Heap.assign, Heap.bind] using hn
  | branch _ => exact alike_fail (by rw [hprinted])

theorem alike_valueOf (name : String) (hs : L.Visible n scope) :
    Alike L n L.Values (valueOf name scope) (valueOf name scope) := by
  unfold valueOf
  refine Alike.bind (A := fun k => Option.Rel (L.Values k)) (Action.simulates_view ?_) ?_
  · rintro heap heap' ⟨hheaps, hn⟩
    exact ⟨⟨hheaps, hn⟩, hheaps.rel_get? name (hs.mono hn)⟩
  · intro m _ found found' hrel
    cases hrel with
    | none => exact alike_fail rfl
    | some hv => exact alike_pure fun _ hk => hv.mono hk

/-- Both heaps get a function with the same number. -/
theorem alike_definition (ht : L.Trees tree tree') (hs : L.Visible n scope) :
    Alike L n L.Values (definition tree scope) (definition tree' scope) := by
  unfold definition
  refine (alike_child ht 0).bind fun m₁ hm₁ leaf leaf' hleaf => ?_
  refine (alike_nameOf hleaf).bind fun m₂ hm₂ name name' hname => ?_
  subst hname
  refine (alike_child ht 1).bind fun m₃ hm₃ parameters parameters' hp => ?_
  refine (alike_child ht 2).bind fun m₄ hm₄ body body' hb => ?_
  refine (alike_tell _ _).bind fun m₅ hm₅ _ _ _ => ?_
  have hs₅ : L.Visible m₅ scope := hs.mono (by omega)
  refine Alike.bind (A := fun _ f f' => L.Functions f f' ∧ f.scope = scope)
    (Action.simulates_transition ?_) fun m₆ hm₆ f f' hf => ?_
  · rintro heap heap' ⟨hheaps, hn⟩
    obtain ⟨hheaps', hf⟩ := hheaps.makeFunction name' hp hb scope
    exact ⟨⟨hheaps', hn⟩, hf, rfl⟩
  · refine Alike.bind (alike_update fun heap heap' hheaps hn => ?_) fun _ _ _ _ _ =>
      alike_pure fun _ _ => .text _
    have hvisible : L.Visible heap.scopes.size scope := hs₅.mono (Nat.le_trans hm₆ hn)
    have hfunction : L.Values heap.scopes.size (.function f) (.function f') :=
      .function hf.1 (hf.2.symm ▸ hvisible)
    refine ⟨hheaps.bind _ hvisible hfunction, ?_⟩
    simpa [Heap.bind] using hn

theorem alike_numberOf {token token' : Token} (h : token'.kind = token.kind) :
    Alike L n L.Values (numberOf token) (numberOf token') := by
  have hnumber : token'.number? = token.number? := by rw [Token.number?, h, Token.number?]
  unfold numberOf
  rw [hnumber]
  split
  · exact alike_pure fun _ _ => .integer _
  · exact alike_fail rfl

end

/-! ## Parts of the evaluator -/

section Recursor

variable {eval eval' : Recursor}
  (he : ∀ (n : Nat) (tree tree' : Tree) (scope : ScopeId), L.Trees tree tree' →
    L.Visible n scope → Alike L n L.Values (eval tree scope) (eval' tree' scope))
  {tree tree' : Tree} {scope : ScopeId}
include he

theorem alike_binary (ht : L.Trees tree tree') (hs : L.Visible n scope) :
    Alike L n L.Values (binary eval tree scope) (binary eval' tree' scope) := by
  unfold binary
  refine (alike_child ht 0).bind fun m₁ hm₁ left left' hleft => ?_
  refine (alike_child ht 1).bind fun m₂ hm₂ middle middle' hmiddle => ?_
  refine (alike_nameOf hmiddle).bind fun m₃ hm₃ operator operator' hoperator => ?_
  subst hoperator
  refine (alike_child ht 2).bind fun m₄ hm₄ right right' hright => ?_
  have hs₄ : L.Visible m₄ scope := hs.mono (by omega)
  split
  · refine (he m₄ right right' scope hright hs₄).bind fun m₅ hm₅ v v' hv => ?_
    exact alike_assign hleft (hs₄.mono hm₅) hv
  · refine (he m₄ left left' scope hleft hs₄).bind fun m₅ hm₅ v v' hv => ?_
    refine (he m₅ right right' scope hright (hs₄.mono hm₅)).bind fun m₆ hm₆ w w' hw => ?_
    exact alike_applyOperator _ (hv.mono hm₆) hw

/-- Arguments are evaluated and bound in pairs. The induction is on the parameters. -/
theorem alike_bindArguments {caller callee : ScopeId} {parameters parameters' : List Tree}
    (hp : List.Forall₂ L.Trees parameters parameters') :
    ∀ {n : Nat} {arguments arguments' : List Tree}, List.Forall₂ L.Trees arguments arguments' →
      L.Visible n caller → L.Visible n callee →
      Alike L n (fun _ _ _ => True) (bindArguments eval caller callee parameters arguments)
        (bindArguments eval' caller callee parameters' arguments') := by
  induction hp with
  | nil =>
      intro n arguments arguments' ha _ _
      exact alike_pure fun _ _ => trivial
  | @cons parameter parameter' parameters parameters' hparameter _ ih =>
      intro n arguments arguments' ha hcaller hcallee
      cases ha with
      | nil => exact alike_pure fun _ _ => trivial
      | cons hargument harguments =>
          rw [bindArguments, bindArguments]
          refine (he n _ _ caller hargument hcaller).bind fun m₁ hm₁ v v' hv => ?_
          refine (alike_nameOf hparameter).bind fun m₂ hm₂ name name' hname => ?_
          subst hname
          refine Alike.bind (alike_update fun heap heap' hheaps hn => ?_) fun m₃ hm₃ _ _ _ => ?_
          · refine ⟨hheaps.bind _ (hcallee.mono (by omega)) (hv.mono (by omega)), ?_⟩
            simpa [Heap.bind] using hn
          · exact ih harguments (hcaller.mono (by omega)) (hcallee.mono (by omega))

/-- The functions have alike bodies and have captured scopes that both heaps see. -/
theorem alike_call {arguments arguments' : List Tree} {v v' : Value}
    (ha : List.Forall₂ L.Trees arguments arguments') (hs : L.Visible n scope)
    (hv : L.Values n v v') :
    Alike L n L.Values (call eval arguments scope v) (call eval' arguments' scope v') := by
  have hprinted := hv.printed_eq
  cases hv with
  | integer k => exact alike_fail rfl
  | text s => exact alike_fail rfl
  | nil => exact alike_fail rfl
  | @function f f' hf hscope =>
      rw [call, call, hf.arity_eq, ← ha.length_eq, hf.name_eq, hf.scope_eq]
      split
      · refine Alike.bind (A := fun k callee callee' => callee' = callee ∧ L.Visible k callee)
          (Action.simulates_transition ?_) fun m₁ hm₁ callee callee' hcallee => ?_
        · rintro heap heap' ⟨hheaps, hn⟩
          obtain ⟨hheaps', hid, hvisible⟩ := hheaps.enclose (hscope.mono hn)
          refine ⟨⟨hheaps', ?_⟩, hid, hvisible⟩
          simp only [Heap.enclose, Array.size_push]
          exact Nat.le_succ_of_le hn
        · obtain ⟨rfl, hcallee⟩ := hcallee
          have hparameters := (L.trees_match _ _ hf.parameters).children
          refine (alike_bindArguments he hparameters ha (hs.mono hm₁) hcallee).bind
            fun m₂ hm₂ _ _ _ => (alike_tell _ _).bind fun m₃ hm₃ _ _ _ => ?_
          exact he m₃ _ _ _ hf.body (hcallee.mono (by omega))
      · exact alike_fail rfl

theorem alike_primary (ht : L.Trees tree tree') (hs : L.Visible n scope) :
    ∀ k : Nat, Alike L n L.Values (primary eval tree scope k) (primary eval' tree' scope k)
  | 0 => (alike_child ht 0).bind fun m hm _ _ hoperand => he m _ _ scope hoperand (hs.mono hm)
  | k + 1 => by
      rw [primary, primary]
      refine (alike_primary ht hs k).bind fun m₁ hm₁ v v' hv => ?_
      refine (alike_child ht (k + 1)).bind fun m₂ hm₂ following following' hfollowing => ?_
      cases L.trees_match _ _ hfollowing with
      | leaf _ => exact alike_fail rfl
      | @branch kind arguments arguments' ha =>
          cases kind <;> try exact alike_fail rfl
          exact alike_call he ha (hs.mono (by omega)) (hv.mono hm₂)

/-- Statements are evaluated in pairs, one after the other. -/
theorem alike_sequence {statements statements' : List Tree}
    (h : List.Forall₂ L.Trees statements statements') :
    ∀ {n : Nat} {v v' : Value}, L.Visible n scope → L.Values n v v' →
      Alike L n L.Values (sequence (eval · scope) v statements)
        (sequence (eval' · scope) v' statements') := by
  induction h with
  | nil => exact fun _ hv => alike_pure fun _ hm => hv.mono hm
  | @cons statement statement' _ _ hstatement _ ih =>
      intro n v v' hs hv
      rw [sequence, sequence, (L.trees_match _ _ hstatement).isNull_eq]
      split
      · exact ih hs hv
      · exact (he n _ _ scope hstatement hs).bind fun m hm w w' hw => ih (hs.mono hm) hw

theorem alike_conditional (ht : L.Trees tree tree') (hs : L.Visible n scope) :
    Alike L n L.Values (conditional eval tree scope) (conditional eval' tree' scope) := by
  unfold conditional
  refine (alike_child ht 0).bind fun m₁ hm₁ condition condition' hcondition => ?_
  refine (he m₁ _ _ scope hcondition (hs.mono hm₁)).bind fun m₂ hm₂ v v' hv => ?_
  have hs₂ : L.Visible m₂ scope := hs.mono (by omega)
  rw [hv.isTrue_eq]
  split
  · exact (alike_child ht 1).bind fun m₃ hm₃ _ _ hbody => he m₃ _ _ scope hbody (hs₂.mono hm₃)
  · have hrel := (L.trees_match _ _ ht).rel_child 2
    generalize tree.children[2]? = otherwise at hrel ⊢
    generalize tree'.children[2]? = otherwise' at hrel ⊢
    cases hrel with
    | none => exact alike_pure fun _ _ => .integer 0
    | some hotherwise => exact he m₂ _ _ scope hotherwise hs₂

/-- The larger budget takes all turns that the smaller one takes. -/
theorem alike_loop {budget budget' : Nat} (hle : budget ≤ budget') (ht : L.Trees tree tree')
    (hs : L.Visible n scope) :
    Alike L n L.Values (loop eval budget tree scope) (loop eval' budget' tree' scope) := by
  unfold loop
  refine (alike_child ht 0).bind fun m₁ hm₁ condition condition' hcondition => ?_
  refine (alike_child ht 1).bind fun m₂ hm₂ body body' hbody => ?_
  refine alike_iterate (B := L.Values) (fun hv hkl => hv.mono hkl) (fun m₃ hm₃ v v' hv => ?_) hle
    (.integer 0)
  have hs₃ : L.Visible m₃ scope := hs.mono (by omega)
  unfold turn
  refine (he m₃ _ _ scope hcondition hs₃).bind fun m₄ hm₄ w w' hw => ?_
  rw [hw.isFalse_eq]
  split
  · exact alike_pure fun k hk => .inr ⟨v, v', rfl, rfl, hv.mono (Nat.le_trans hm₄ hk)⟩
  · refine (he m₄ _ _ scope hbody (hs₃.mono hm₄)).bind fun m₅ hm₅ u u' hu => ?_
    exact alike_pure fun k hk => .inl ⟨u, u', rfl, rfl, hu.mono hk⟩

/-- One step of evaluation is alike if evaluation of the trees in it is. -/
theorem alike_step {budget budget' : Nat} (hle : budget ≤ budget') (ht : L.Trees tree tree')
    (hs : L.Visible n scope) :
    Alike L n L.Values (step eval budget tree scope) (step eval' budget' tree' scope) := by
  have hmatch := L.trees_match _ _ ht
  cases hmatch with
  | @leaf kind token token' htoken =>
      have htext : token'.toText = token.toText := by rw [Token.toText, htoken, Token.toText]
      cases kind with
      | plain => exact alike_fail rfl
      | number => exact alike_numberOf htoken
      | string =>
          rw [step, step, htext]
          exact alike_pure fun _ _ => .text _
      | _ =>
          rw [step, step, htext]
          exact alike_valueOf _ hs
  | @branch kind children children' hchildren =>
      cases kind with
      | list => exact alike_fail rfl
      | negative =>
          refine (alike_child ht 0).bind fun m₁ hm₁ operand operand' hoperand => ?_
          refine (he m₁ _ _ scope hoperand (hs.mono hm₁)).bind fun m₂ hm₂ v v' hv => ?_
          exact alike_negate hv
      | binary => exact alike_binary he ht hs
      | primary =>
          rw [step, step, ← hchildren.length_eq]
          exact alike_primary he ht hs _
      | arguments => exact alike_fail rfl
      | block => exact alike_sequence he hchildren hs (.integer 0)
      | conditional => exact alike_conditional he ht hs
      | loop => exact alike_loop he hle ht hs
      | null => exact alike_pure fun _ _ => .nil
      | parameters => exact alike_fail rfl
      | definition => exact alike_definition ht hs

end Recursor

/-- Trees that stand for each other are evaluated alike, also if the second budget is larger. -/
theorem alike_eval : ∀ {budget budget' : Nat}, budget ≤ budget' →
    ∀ (n : Nat) (tree tree' : Tree) (scope : ScopeId), L.Trees tree tree' → L.Visible n scope →
      Alike L n L.Values (eval budget tree scope) (eval budget' tree' scope)
  | 0, _, _, _, _, _, _, _, _ => alike_unfinished
  | budget + 1, budget' + 1, hle, _, _, _, _, ht, hs => by
      have hle : budget ≤ budget' := Nat.le_of_succ_le_succ hle
      exact alike_step (alike_eval hle) hle ht hs

end Eval

end TreeScript
