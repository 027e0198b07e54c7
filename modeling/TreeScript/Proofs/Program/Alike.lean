import TreeScript.Proofs.Eval.Alike
import TreeScript.Proofs.Heap
import TreeScript.Proofs.Program.Delivers

/-!
# Programs that are executed alike

Statements that stand for each other are executed alike (`simulates_execute`). This is used for
statements that differ in their lines only. Then functions have the same numbers on both sides and
all scopes count, so a relation on trees is the likeness (`Likeness.ofTrees`), but for the functions
that were made before, which may be fixed. Heaps that are tied become equal once the difference
between the trees is taken away (`Likeness.Heaps.mapTrees_eq`). With no difference at all this says
that a larger budget changes nothing (`gives_execute_of_le`, `stops_execute_of_le`).
-/

namespace TreeScript

/-! ## Trees in values -/

/-- The function with other trees. -/
def Function.mapTrees (g : Tree → Tree) (f : Function) : Function :=
  { f with parameters := g f.parameters, body := g f.body }

/-- The value with other trees if it is a function. -/
def Value.mapTrees (g : Tree → Tree) : Value → Value
  | .function f => .function (f.mapTrees g)
  | value => value

/-- The scope with other trees in its functions. -/
def Scope.mapTrees (g : Tree → Tree) (scope : Scope) : Scope :=
  { scope with bindings := scope.bindings.map fun binding => (binding.1, binding.2.mapTrees g) }

theorem Value.mapTrees_id (value : Value) : value.mapTrees id = value := by
  cases value <;> rfl

theorem Scope.mapTrees_id (scope : Scope) : scope.mapTrees id = scope := by
  simp only [mapTrees, Value.mapTrees_id, List.map_id']

namespace Tree

variable {R : Tree → Tree → Prop} {f : Nat → Nat} {tree : Tree}

theorem matches_self (h : ∀ child ∈ tree.children, R child child) : Matches R tree tree := by
  cases tree with
  | leaf kind token => exact .leaf rfl
  | branch kind children => exact .branch (List.forall₂_same.2 h)

/-- A tree is built like the one on other lines. -/
theorem matches_relined (h : ∀ child ∈ tree.children, R child (child.relined f)) :
    Matches R tree (tree.relined f) := by
  cases tree with
  | leaf kind token => exact .leaf rfl
  | branch kind children =>
      rw [relined_branch]
      exact .branch (List.forall₂_map_right_iff.2 (List.forall₂_same.2 h))

end Tree

/-! ## Likeness up to trees -/

namespace Likeness

variable {made : Nat} {Trees : Tree → Tree → Prop}
  {hmatch : ∀ tree tree', Trees tree tree' → tree.Matches Trees tree'}

/-- Only trees may differ, and not those of the functions that were made before. -/
def ofTrees (made : Nat) (Trees : Tree → Tree → Prop)
    (hmatch : ∀ tree tree', Trees tree tree' → tree.Matches Trees tree') : Likeness where
  Trees := Trees
  Numbers := Eq
  Counts m m' := m = m' ∧ made ≤ m
  Fixed m := m < made
  Shared _ := True
  before := Heap.empty
  before' := Heap.empty
  trees_match := hmatch
  numbers_eq_iff := by
    rintro m _ n _ rfl rfl
    rfl
  numbers_of_counts := And.left
  counts_succ h := ⟨congrArg (· + 1) h.1, Nat.le_succ_of_le h.2⟩
  not_fixed_of_counts h := Nat.not_lt_of_le h.2

/-- All scopes count. -/
theorem visible_ofTrees (n : Nat) (id : ScopeId) : (ofTrees made Trees hmatch).Visible n id :=
  .inl trivial

theorem values_self {n : Nat} {v : Value}
    (h : ∀ f, v = .function f → Trees f.parameters f.parameters ∧ Trees f.body f.body) :
    (ofTrees made Trees hmatch).Values n v v := by
  cases v with
  | integer k => exact .integer k
  | text s => exact .text s
  | nil => exact .nil
  | function f =>
      obtain ⟨hparameters, hbody⟩ := h f rfl
      exact .function ⟨rfl, rfl, hparameters, hbody, rfl, fun _ => rfl⟩ (visible_ofTrees n f.scope)

/-- A heap is tied to itself if its values are. -/
theorem heaps_self {heap : Heap} (hmade : made ≤ heap.functions)
    (h : heap.Holds fun v => (ofTrees made Trees hmatch).Values heap.scopes.size v v) :
    (ofTrees made Trees hmatch).Heaps heap heap where
  size_eq := rfl
  before_le := Nat.zero_le _
  counts := ⟨rfl, hmade⟩
  outside _ hlt := absurd hlt (Nat.not_lt_zero _)
  scopes id _ := by
    cases hs : heap.scopes[id]? with
    | none => exact .none
    | some scope =>
        exact .some ⟨List.forall₂_same.2 fun binding hmem => ⟨rfl, h id scope hs binding hmem⟩, rfl,
          fun outer _ => visible_ofTrees _ outer⟩

section MapTrees

variable {g : Tree → Tree} (hg : ∀ tree tree', Trees tree tree' → g tree' = g tree) {n : Nat}
include hg

theorem Values.mapTrees_eq {v v' : Value} (h : (ofTrees made Trees hmatch).Values n v v') :
    v'.mapTrees g = v.mapTrees g := by
  cases h with
  | @function f f' hf _ =>
      obtain ⟨hid, hname, hparameters, hbody, hscope, -⟩ := hf
      have hparameters := hg _ _ hparameters
      have hbody := hg _ _ hbody
      cases f'
      cases hid
      cases hname
      cases hscope
      rw [Value.mapTrees, Value.mapTrees, Function.mapTrees, Function.mapTrees, hparameters, hbody]
  | _ => rfl

theorem Scopes.mapTrees_eq {scope scope' : Scope}
    (h : (ofTrees made Trees hmatch).Scopes n scope scope') :
    scope'.mapTrees g = scope.mapTrees g := by
  obtain ⟨bindings, outer⟩ := scope
  obtain ⟨bindings', outer'⟩ := scope'
  obtain ⟨hbindings, rfl, -⟩ := h
  simp only at hbindings
  rw [Scope.mapTrees, Scope.mapTrees]
  congr 1
  induction hbindings with
  | nil => rfl
  | cons hb _ ih => rw [List.map_cons, List.map_cons, ih, hb.1, hb.2.mapTrees_eq hg]

/-- Where the trees do not differ, neither do the heaps. -/
theorem Heaps.mapTrees_eq {heap heap' : Heap} (h : (ofTrees made Trees hmatch).Heaps heap heap') :
    heap'.functions = heap.functions ∧
      heap'.scopes.map (Scope.mapTrees g) = heap.scopes.map (Scope.mapTrees g) := by
  refine ⟨h.counts.1.symm, Array.ext_getElem? fun id => ?_⟩
  rw [Array.getElem?_map, Array.getElem?_map]
  rcases h.scope_cases (visible_ofTrees _ id) with ⟨hs, hs'⟩ | ⟨scope, scope', hs, hs', hscope⟩
  · rw [hs, hs']
  · rw [hs, hs', Option.map_some, Option.map_some, hscope.mapTrees_eq hg]

end MapTrees

/-! ## The same trees -/

/-- Nothing may differ. -/
def same : Likeness := ofTrees 0 Eq Tree.matches_of_eq

/-- Each heap is like itself. -/
theorem heaps_same (heap : Heap) : same.Heaps heap heap :=
  heaps_self (Nat.zero_le _) fun _ _ _ _ _ => values_self fun _ _ => ⟨rfl, rfl⟩

theorem Values.eq_of_same {n : Nat} {v v' : Value} (h : same.Values n v v') : v' = v := by
  have heq := h.mapTrees_eq (g := id) fun _ _ h => h.symm
  rwa [Value.mapTrees_id, Value.mapTrees_id] at heq

/-- With no difference between trees heaps that are alike are equal. -/
theorem Heaps.eq_of_same {heap heap' : Heap} (h : same.Heaps heap heap') : heap' = heap := by
  obtain ⟨hfunctions, hscopes⟩ := h.mapTrees_eq (g := id) fun _ _ h => h.symm
  rw [funext Scope.mapTrees_id, Array.map_id', Array.map_id'] at hscopes
  cases heap'
  cases hfunctions
  cases hscopes
  rfl

end Likeness

/-! ## Executing alike -/

namespace Program

open Eval

variable {L : Likeness} {Errs : RunError → RunError → Prop} {budget budget' : Nat}
  {trees trees' : List Tree} {ending ending' : Option Grammar.ParseError}

/-- Statements that stand for each other, and so do the errors that name where they are. -/
structure Tied (L : Likeness) (Errs : RunError → RunError → Prop) (tree tree' : Tree) : Prop where
  trees : L.Trees tree tree'
  errors : tree.isNull = false → ∀ error,
    Errs (.eval error (tree.location?.getD "")) (.eval error (tree'.location?.getD ""))

/-- What ties the values of programs: if no statement does something they are those from before, and
else they are alike. -/
def Results (L : Likeness) (trees : List Tree) (result result' : Value) (n : Nat) (v v' : Value) :
    Prop :=
  (∀ tree ∈ trees, tree.isNull = true) ∧ v = result ∧ v' = result' ∨
    (∃ tree ∈ trees, tree.isNull = false) ∧ L.Values n v v'

/-- Statements that are alike are evaluated alike, and a larger budget makes no difference. -/
theorem alike_evaluate (hle : budget ≤ budget') (hglobal : ∀ n, L.Visible n globalScope) (n : Nat)
    {tree tree' : Tree} (h : L.Trees tree tree') :
    Alike L n L.Values (evaluate budget tree) (evaluate budget' tree') :=
  (alike_tell _ _).bind fun m _ _ _ _ => alike_eval hle m tree tree' globalScope h (hglobal m)

/-- Statements that are tied evaluate to values that are alike, or fail with errors that are. -/
theorem simulates_evaluate (hle : budget ≤ budget') (hglobal : ∀ n, L.Visible n globalScope)
    (n : Nat) {tree tree' : Tree} (h : Tied L Errs tree tree') (hnull : tree.isNull = false) :
    Action.Simulates (fun heap heap' => L.Heaps heap heap' ∧ n ≤ heap.scopes.size)
      (fun v heap v' heap' => (L.Heaps heap heap' ∧ n ≤ heap.scopes.size) ∧
        L.Values heap.scopes.size v v')
      (fun e heap e' heap' => Errs e e' ∧ L.Heaps heap heap')
      ((evaluate budget tree).mapError (.eval · (tree.location?.getD "")))
      ((evaluate budget' tree').mapError (.eval · (tree'.location?.getD ""))) := by
  refine Action.Simulates.mapError (alike_evaluate hle hglobal n h.trees) ?_
  rintro _ heap e heap' ⟨rfl, hheaps, -⟩
  exact ⟨h.errors hnull e, hheaps⟩

/-- Statements that stand for each other are executed alike, also if the second budget is larger. -/
theorem simulates_execute (hle : budget ≤ budget') (hglobal : ∀ n, L.Visible n globalScope)
    (htrees : List.Forall₂ (Tied L Errs) trees trees')
    (hending : Option.Rel (fun e e' => Errs (.parse e) (.parse e')) ending ending')
    (n : Nat) (result result' : Value) :
    Action.Simulates (fun heap heap' => L.Heaps heap heap' ∧ n ≤ heap.scopes.size)
      (fun v heap v' heap' => (L.Heaps heap heap' ∧ n ≤ heap.scopes.size) ∧
        Results L trees result result' heap.scopes.size v v')
      (fun e heap e' heap' => Errs e e' ∧ L.Heaps heap heap')
      (execute budget trees ending result) (execute budget' trees' ending' result') := by
  induction htrees generalizing n result result' with
  | nil =>
      cases hending with
      | none => exact Action.simulates_pure fun _ _ hp => ⟨hp, .inl ⟨by simp, rfl, rfl⟩⟩
      | some he => exact Action.simulates_fail fun _ _ hp => ⟨he, hp.1⟩
  | @cons tree tree' trees trees' ht _ ih =>
      rw [execute, execute, (L.trees_match _ _ ht.trees).isNull_eq]
      split
      · next hnull =>
          refine (ih n result result').mono (fun _ _ hp => hp) ?_ fun _ _ _ _ he => he
          rintro v heap v' heap' ⟨hp, hresult⟩
          refine ⟨hp, hresult.imp ?_ ?_⟩
          · rintro ⟨hall, hv⟩
            exact ⟨List.forall_mem_cons.2 ⟨hnull, hall⟩, hv⟩
          · rintro ⟨⟨other, hmem, ho⟩, hv⟩
            exact ⟨⟨other, List.mem_cons_of_mem _ hmem, ho⟩, hv⟩
      · next hnull =>
          have hnull : tree.isNull = false := Bool.eq_false_iff.2 hnull
          refine (simulates_evaluate hle hglobal n ht hnull).bind fun v v' heap heap' hq => ?_
          obtain ⟨⟨hheaps, hn⟩, hv⟩ := hq
          refine ((ih heap.scopes.size v v') heap heap' ⟨hheaps, Nat.le_refl _⟩).mono ?_
            fun _ _ he => he
          rintro w t ⟨w', t', hg, ⟨ht, hm⟩, hresult⟩
          refine ⟨w', t', hg, ⟨ht, Nat.le_trans hn hm⟩,
            .inr ⟨⟨tree, List.mem_cons_self, hnull⟩, ?_⟩⟩
          rcases hresult with ⟨-, rfl, rfl⟩ | ⟨-, hw⟩
          · exact hv.mono hm
          · exact hw

/-! ## Larger budgets -/

section Budget

variable {heap heap' : Heap} {result : Value} (hle : budget ≤ budget')
include hle

/-- A larger budget makes no difference to a run that ends. -/
theorem simulates_execute_of_le (trees : List Tree) (ending : Option Grammar.ParseError)
    (result : Value) :
    Action.Simulates (fun heap heap' => heap' = heap) (fun v heap v' heap' => v' = v ∧ heap' = heap)
      (fun e heap e' heap' => e' = e ∧ heap' = heap) (execute budget trees ending result)
      (execute budget' trees ending result) := by
  have htrees : List.Forall₂ (Tied .same Eq) trees trees :=
    List.forall₂_same.2 fun tree _ => ⟨rfl, fun _ _ => rfl⟩
  have hending : Option.Rel (fun e e' => RunError.parse e = .parse e') ending ending := by
    cases ending with
    | none => exact .none
    | some e => exact .some rfl
  refine (simulates_execute hle (fun _ => .inl trivial) htrees hending 0 result result).mono
    ?_ ?_ ?_
  · rintro _ s rfl
    exact ⟨Likeness.heaps_same s, Nat.zero_le _⟩
  · rintro v s v' s' ⟨⟨hheaps, -⟩, ⟨-, rfl, rfl⟩ | ⟨-, hv⟩⟩
    · exact ⟨rfl, hheaps.eq_of_same⟩
    · exact ⟨hv.eq_of_same, hheaps.eq_of_same⟩
  · rintro e s e' s' ⟨he, hheaps⟩
    exact ⟨he.symm, hheaps.eq_of_same⟩

/-- A larger budget gives no other value. -/
theorem gives_execute_of_le {v : Value}
    (h : (execute budget trees ending result).Gives heap v heap') :
    (execute budget' trees ending result).Gives heap v heap' := by
  obtain ⟨_, _, hg, rfl, rfl⟩ := (simulates_execute_of_le hle trees ending result).of_gives rfl h
  exact hg

/-- A larger budget gives no other error. -/
theorem stops_execute_of_le {e : RunError}
    (h : (execute budget trees ending result).Stops heap e heap') :
    (execute budget' trees ending result).Stops heap e heap' := by
  obtain ⟨_, _, hs, rfl, rfl⟩ := (simulates_execute_of_le hle trees ending result).of_stops rfl h
  exact hs

end Budget

end Program

end TreeScript
