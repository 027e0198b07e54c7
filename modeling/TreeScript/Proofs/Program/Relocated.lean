import TreeScript.Proofs.Program.Alike
import TreeScript.Proofs.Program.Session

/-!
# Statements on other lines

The same statements can stand on other lines. What a heap knew before keeps its lines then, and what
comes from the statements has others. `Likeness.relocated` joins the two: with it, statements and
the same statements on other lines are executed alike (`simulates_relocated`). An error that names
the line of a statement names the other line (`RunError.Relocated`).

Functions are numbered in the order they are made. So those that were made before are known by their
numbers, and they stay as they are. A function that is made later stands in a statement or in a
function that was there before, and it has the lines of the tree that it comes from.
-/

namespace TreeScript

/-! ## Where statements stand -/

namespace Tree

theorem IsExpression.tokens_ne_nil {tree : Tree} (h : IsExpression tree) : tree.tokens ≠ [] := by
  induction h with
  | negative _ ih => simpa [tokens, tokensOf] using ih
  | primary _ _ _ ih => simp [tokens, tokensOf, ih]
  | _ => simp [tokens, tokensOf]

/-- A statement keeps at least one token. -/
theorem IsStatement.tokens_ne_nil {tree : Tree} (h : IsStatement tree) : tree.tokens ≠ [] := by
  cases h with
  | expression h => exact h.tokens_ne_nil
  | conditional h => simp [tokens, tokensOf, h.tokens_ne_nil]
  | alternative h => simp [tokens, tokensOf, h.tokens_ne_nil]
  | loop h => simp [tokens, tokensOf, h.tokens_ne_nil]
  | definition => simp [tokens, tokensOf]

theorem Inside.of_mem_children {part tree root : Tree} (h : tree.Inside root)
    (hmem : part ∈ tree.children) : part.Inside root := by
  cases tree with
  | leaf => cases hmem
  | branch kind children => exact h.child hmem

/-- A statement that does something stands on a line. -/
def HasLine (tree : Tree) : Prop := tree.isNull = false → tree.tokens ≠ []

theorem HasLine.relined {tree : Tree} (h : tree.HasLine) (f : Nat → Nat) :
    (tree.relined f).HasLine := by
  intro hnull htokens
  rw [isNull_relined] at hnull
  rw [tokens_relined, List.map_eq_nil_iff] at htokens
  exact h hnull htokens

end Tree

/-! ## Trees on other lines -/

/-- The tree stands in a function that some scope binds. -/
def Heap.Knows (heap : Heap) (tree : Tree) : Prop :=
  ∃ (id : ScopeId) (scope : Scope) (name : String) (f : Function),
    heap.scopes[id]? = some scope ∧ (name, .function f) ∈ scope.bindings ∧
      (tree.Inside f.parameters ∨ tree.Inside f.body)

/-- A tree that the heap knows stays, and one in the statements has other lines. -/
def Tree.Relocates (heap : Heap) (statements : List Tree) (f : Nat → Nat) (tree tree' : Tree) :
    Prop :=
  heap.Knows tree ∧ tree' = tree ∨
    (∃ statement ∈ statements, tree.Inside statement) ∧ tree' = tree.relined f

namespace Likeness

variable {heap : Heap} {statements : List Tree} {f : Nat → Nat}

/-- Trees that are tied have the same nodes, and their parts are tied. -/
theorem matches_of_relocates {tree tree' : Tree} (h : tree.Relocates heap statements f tree') :
    tree.Matches (Tree.Relocates heap statements f) tree' := by
  rcases h with ⟨⟨id, scope, name, f, hs, hmem, hinside⟩, rfl⟩ | ⟨⟨statement, hmem, hinside⟩, rfl⟩
  · refine Tree.matches_self fun child hchild => .inl ⟨⟨id, scope, name, f, hs, hmem, ?_⟩, rfl⟩
    exact hinside.imp (·.of_mem_children hchild) (·.of_mem_children hchild)
  · exact Tree.matches_relined fun child hchild =>
      .inr ⟨⟨statement, hmem, hinside.of_mem_children hchild⟩, rfl⟩

/-- Trees of the statements have other lines on the other side. The functions that the heap has made
are the same. -/
def relocated (heap : Heap) (statements : List Tree) (f : Nat → Nat) : Likeness :=
  ofTrees heap.functions (Tree.Relocates heap statements f) fun _ _ => matches_of_relocates

/-- The heap before the new statements is like itself, since its functions are the same. -/
theorem heaps_relocated : (relocated heap statements f).Heaps heap heap :=
  heaps_self (Nat.le_refl _) fun id scope hs binding hmem => values_self fun f hf =>
    have hmem : (binding.1, .function f) ∈ scope.bindings := hf ▸ hmem
    ⟨.inl ⟨⟨id, scope, binding.1, f, hs, hmem, .inl (.self _)⟩, rfl⟩,
      .inl ⟨⟨id, scope, binding.1, f, hs, hmem, .inr (.self _)⟩, rfl⟩⟩

end Likeness

/-! ## Executing on other lines -/

namespace Program

open Grammar TreeScript.Language

/-- The second error is about the same place on its other line. -/
inductive RunError.Relocated (f : Nat → Nat) : RunError → RunError → Prop where
  | parse (error : ParseError) : Relocated f (.parse error) (.parse (error.relined f))
  | eval (error : EvalError) (line : Nat) :
      Relocated f (.eval error s!"at line {line}") (.eval error s!"at line {f line}")

variable {language : Language} {s : TokenStream} {trees : List Tree} {ending : Option ParseError}

theorem Delivers.read (h : Delivers language s trees ending) :
    ∀ tree ∈ trees, Read language tree := by
  induction h with
  | next _ _ hg _ ih => exact List.forall_mem_cons.2 ⟨⟨_, _, hg⟩, ih⟩
  | _ => simp

theorem Delivers.hasLine (hl : language = full ∨ language = basic)
    (h : Delivers language s trees ending) : ∀ tree ∈ trees, tree.HasLine :=
  fun tree hmem hnull => ((h.read tree hmem).isStatement hl hnull).tokens_ne_nil

/-- A statement on another line stands for itself. Where it fails it names that line. -/
theorem tied_relocated {heap : Heap} {tree : Tree} (hline : tree.HasLine) (hmem : tree ∈ trees)
    (f : Nat → Nat) :
    Tied (.relocated heap trees f) (RunError.Relocated f) tree (tree.relined f) where
  trees := .inr ⟨⟨tree, hmem, .self tree⟩, rfl⟩
  errors hnull error := by
    obtain ⟨token, rest, htokens⟩ := List.exists_cons_of_ne_nil (hline hnull)
    have hline : tree.line? = some token.line := by rw [Tree.line?, htokens]; rfl
    rw [Tree.location?, Tree.location?, Tree.line?_relined, hline]
    exact .eval error token.line

/-- On other lines and with a larger budget, statements are executed alike. -/
theorem simulates_relocated {first budget : Nat} (hle : first ≤ budget)
    (hlines : ∀ tree ∈ trees, tree.HasLine) (f : Nat → Nat) (ending : Option ParseError)
    (heap : Heap) (result result' : Value) :
    Action.Simulates (fun heap₁ heap₁' => heap₁ = heap ∧ heap₁' = heap)
      (fun v heap₂ v' heap₂' => (Likeness.relocated heap trees f).Heaps heap₂ heap₂' ∧
        Results (.relocated heap trees f) trees result result' heap₂.scopes.size v v')
      (fun e heap₂ e' heap₂' =>
        e.Relocated f e' ∧ (Likeness.relocated heap trees f).Heaps heap₂ heap₂')
      (execute first trees ending result)
      (execute budget (trees.map (Tree.relined f)) (ending.map (ParseError.relined f))
        result') := by
  have htrees : List.Forall₂ (Tied (.relocated heap trees f) (RunError.Relocated f)) trees
      (trees.map (Tree.relined f)) :=
    List.forall₂_map_right_iff.2 (List.forall₂_same.2 fun tree hmem =>
      tied_relocated (hlines tree hmem) hmem f)
  have hending : Option.Rel (fun e e' => RunError.Relocated f (.parse e) (.parse e')) ending
      (ending.map (ParseError.relined f)) := by
    cases ending with
    | none => exact .none
    | some e => exact .some (.parse e)
  refine (simulates_execute hle (fun _ => .inl trivial) htrees hending 0 result result').mono ?_ ?_
    fun _ _ _ _ he => he
  · rintro _ _ ⟨rfl, rfl⟩
    exact ⟨Likeness.heaps_relocated, Nat.zero_le _⟩
  · exact fun _ _ _ _ hq => ⟨hq.1.1, hq.2⟩

end Program

end TreeScript
