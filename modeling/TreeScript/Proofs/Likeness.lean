import Mathlib.Data.List.Forall2
import TreeScript.Proofs.Heap

/-!
# Heaps that are alike

Two evaluations can do the same although they start with different things: with trees from other
lines of a source, with functions that have other numbers, or in heaps that differ in scopes which
neither of them can see. A `Likeness` says what may differ. It ties trees and numbers of functions,
and it names the scopes that count. It may also fix the functions with certain numbers, which then
do not differ at all.

Values are tied if they are the same up to this, scopes if they bind the same names to tied values,
and heaps if the scopes that count are tied one by one. A scope that is made later always counts.
`Heaps` also says that the scopes that do not count are as they were before.

The number `n` in `Visible n`, `Values n` and `Scopes n` is the size of the heap, and a larger heap
only sees more.
-/

namespace TreeScript

/-! ## Trees -/

/-- The trees are built alike: the kinds agree, the tokens agree but for their lines, and the
relation ties the children. -/
inductive Tree.Matches (R : Tree → Tree → Prop) : Tree → Tree → Prop where
  | leaf {kind : Tree.LeafKind} {token token' : Token} (h : token'.kind = token.kind) :
      Tree.Matches R (.leaf kind token) (.leaf kind token')
  | branch {kind : Tree.BranchKind} {children children' : List Tree}
      (h : List.Forall₂ R children children') :
      Tree.Matches R (.branch kind children) (.branch kind children')

namespace Tree

variable {R : Tree → Tree → Prop} {tree tree' : Tree}

theorem Matches.refl (h : ∀ tree, R tree tree) (tree : Tree) : Matches R tree tree := by
  cases tree with
  | leaf kind token => exact .leaf rfl
  | branch kind children => exact .branch (List.forall₂_same.2 fun child _ => h child)

theorem matches_of_eq (tree tree' : Tree) (h : tree = tree') : Matches Eq tree tree' :=
  h ▸ .refl (fun _ => rfl) tree

theorem Matches.kind_eq (h : Matches R tree tree') : tree'.kind = tree.kind := by
  cases h with
  | leaf _ => rfl
  | branch _ => rfl

theorem Matches.children (h : Matches R tree tree') :
    List.Forall₂ R tree.children tree'.children := by
  cases h with
  | leaf _ => exact .nil
  | branch h => exact h

/-- The children at an index are tied, or there are none. -/
theorem Matches.rel_child (h : Matches R tree tree') (index : Nat) :
    Option.Rel R tree.children[index]? tree'.children[index]? := by
  have hchildren := h.children
  generalize tree.children = children at hchildren
  generalize tree'.children = children' at hchildren
  induction hchildren generalizing index with
  | nil => exact .none
  | cons hc _ ih =>
      cases index with
      | zero => exact .some hc
      | succ index => exact ih index

theorem Matches.isNull_eq (h : Matches R tree tree') : tree'.isNull = tree.isNull := by
  rw [isNull, isNull, h.kind_eq]

/-- Nodes that match have the same name, if any. -/
theorem Matches.name?_eq (h : Matches R tree tree') : tree'.name? = tree.name? := by
  cases h with
  | @leaf kind token token' h =>
      have hword : token'.word? = token.word? := by rw [Token.word?, h, Token.word?]
      cases kind <;> first | exact hword | rfl
  | branch _ => rfl

mutual
/-- Trees that are built alike are printed alike. -/
theorem printed_eq_of_matches (hR : ∀ tree tree', R tree tree' → Matches R tree tree') :
    ∀ {tree tree' : Tree}, Matches R tree tree' → tree'.printed = tree.printed
  | .leaf kind token, .leaf _ token', .leaf h => by
      have htext : token'.toText = token.toText := by rw [Token.toText, h, Token.toText]
      cases kind <;> simp only [printed, LeafKind.printed, htext]
  | .branch kind children, _, .branch h => by
      rw [printed, printed, printedAll_eq_of_forall₂ hR children h]

/-- Trees whose nodes match are printed alike. -/
theorem printedAll_eq_of_forall₂ (hR : ∀ tree tree', R tree tree' → Matches R tree tree') :
    ∀ (trees : List Tree) {trees' : List Tree}, List.Forall₂ R trees trees' →
      printedAll trees' = printedAll trees
  | [], _, .nil => rfl
  | tree :: trees, _, .cons h hs => by
      rw [printedAll, printedAll, printed_eq_of_matches hR (hR _ _ h),
        printedAll_eq_of_forall₂ hR trees hs]
end

end Tree

/-! ## What may differ -/

/-- What may differ between two evaluations. -/
structure Likeness where
  /-- The trees that stand for each other. -/
  Trees : Tree → Tree → Prop
  /-- The numbers of functions that stand for each other. -/
  Numbers : Nat → Nat → Prop
  /-- How many functions may have been made on either side. -/
  Counts : Nat → Nat → Prop
  /-- The numbers of functions that are the same on both sides. -/
  Fixed : Nat → Prop
  /-- The scopes that count, of those that are there before. -/
  Shared : ScopeId → Prop
  /-- The heap before, on the one side. -/
  before : Heap
  /-- The heap before, on the other side. -/
  before' : Heap
  /-- Trees that stand for each other are built alike. -/
  trees_match : ∀ tree tree', Trees tree tree' → tree.Matches Trees tree'
  /-- Numbers that differ on one side differ on the other. -/
  numbers_eq_iff : ∀ {m m' n n' : Nat}, Numbers m m' → Numbers n n' → (m = n ↔ m' = n')
  /-- The next function gets numbers that stand for each other. -/
  numbers_of_counts : ∀ {m m' : Nat}, Counts m m' → Numbers m m'
  /-- One more function may be made on both sides. -/
  counts_succ : ∀ {m m' : Nat}, Counts m m' → Counts (m + 1) (m' + 1)
  /-- The next function is not one that is fixed. -/
  not_fixed_of_counts : ∀ {m m' : Nat}, Counts m m' → ¬ Fixed m

namespace Likeness

variable {L : Likeness} {n m : Nat} {id : ScopeId}

/-- The scopes that count in a heap of the given size: the shared ones and those made since. -/
def Visible (L : Likeness) (n : Nat) (id : ScopeId) : Prop :=
  L.Shared id ∨ L.before.scopes.size ≤ id ∧ id < n

theorem Visible.mono (h : L.Visible n id) (hle : n ≤ m) : L.Visible m id :=
  h.imp_right fun ⟨hb, hn⟩ => ⟨hb, Nat.lt_of_lt_of_le hn hle⟩

/-- Functions with the same name and scope whose trees and numbers stand for each other. They are
equal if they are fixed. -/
structure Functions (L : Likeness) (f f' : Function) : Prop where
  number : L.Numbers f.id f'.id
  name_eq : f'.name = f.name
  parameters : L.Trees f.parameters f'.parameters
  body : L.Trees f.body f'.body
  scope_eq : f'.scope = f.scope
  fixed : L.Fixed f.id → f' = f

/-- Values that are the same up to the functions in them. These capture scopes that count. -/
inductive Values (L : Likeness) (n : Nat) : Value → Value → Prop where
  | integer (k : Int64) : Values L n (.integer k) (.integer k)
  | text (s : String) : Values L n (.text s) (.text s)
  | function {f f' : Function} (hf : L.Functions f f') (hv : L.Visible n f.scope) :
      Values L n (.function f) (.function f')
  | nil : Values L n .nil .nil

/-- Bindings of one name to tied values. -/
def Binds (L : Likeness) (n : Nat) (binding binding' : String × Value) : Prop :=
  binding'.1 = binding.1 ∧ L.Values n binding.2 binding'.2

/-- Scopes that bind the same names to tied values and stand in the same scope, which counts. -/
structure Scopes (L : Likeness) (n : Nat) (scope scope' : Scope) : Prop where
  bindings : List.Forall₂ (L.Binds n) scope.bindings scope'.bindings
  outer_eq : scope'.outer = scope.outer
  outer_visible : ∀ outer, scope.outer = some outer → L.Visible n outer

/-- Heaps whose scopes are tied where they count and are as before elsewhere. -/
structure Heaps (L : Likeness) (heap heap' : Heap) : Prop where
  size_eq : heap'.scopes.size = heap.scopes.size
  before_le : L.before.scopes.size ≤ heap.scopes.size
  counts : L.Counts heap.functions heap'.functions
  scopes : ∀ id, L.Visible heap.scopes.size id →
    Option.Rel (L.Scopes heap.scopes.size) heap.scopes[id]? heap'.scopes[id]?
  outside : ∀ id < L.before.scopes.size, ¬ L.Shared id →
    heap.scopes[id]? = L.before.scopes[id]? ∧ heap'.scopes[id]? = L.before'.scopes[id]?

/-- What is on the left of a tied list is tied to something on its right. -/
theorem exists_of_forall₂ {α β : Type} {R : α → β → Prop} {xs : List α} {ys : List β} {x : α}
    (h : List.Forall₂ R xs ys) (hx : x ∈ xs) : ∃ y, y ∈ ys ∧ R x y := by
  induction h with
  | nil => cases hx
  | cons hr _ ih =>
      rcases List.mem_cons.1 hx with rfl | hx
      · exact ⟨_, List.mem_cons_self, hr⟩
      · obtain ⟨y, hy, hr⟩ := ih hx
        exact ⟨y, List.mem_cons_of_mem _ hy, hr⟩

/-! ## Values -/

variable {v v' w w' : Value}

theorem Values.mono (h : L.Values n v v') (hle : n ≤ m) : L.Values m v v' := by
  cases h with
  | integer k => exact .integer k
  | text s => exact .text s
  | function hf hv => exact .function hf (hv.mono hle)
  | nil => exact .nil

theorem Values.typeName_eq (h : L.Values n v v') : v'.typeName = v.typeName := by
  cases h <;> rfl

theorem Values.isTrue_eq (h : L.Values n v v') : v'.isTrue = v.isTrue := by
  cases h <;> rfl

theorem Values.isFalse_eq (h : L.Values n v v') : v'.isFalse = v.isFalse := by
  cases h <;> rfl

/-- Values that are alike are printed alike. -/
theorem Values.printed_eq (h : L.Values n v v') : v'.printed = v.printed := by
  cases h with
  | function hf _ => simp only [Value.printed, Function.printed, hf.name_eq]
  | _ => rfl

/-- Values that are alike compare alike, since functions are told apart by number. -/
theorem Values.same_eq (h : L.Values n v v') (hw : L.Values n w w') :
    v'.same w' = v.same w := by
  cases h with
  | function hf _ =>
      cases hw with
      | function hg _ =>
          rw [Bool.eq_iff_iff, Value.same, Value.same, beq_iff_eq, beq_iff_eq]
          exact (L.numbers_eq_iff hf.number hg.number).symm
      | _ => rfl
  | _ => cases hw <;> rfl

theorem Functions.arity_eq {f f' : Function} (h : L.Functions f f') : f'.arity = f.arity :=
  (L.trees_match _ _ h.parameters).children.length_eq.symm

/-! ## Bindings and scopes -/

theorem Binds.mono {binding binding' : String × Value} (h : L.Binds n binding binding')
    (hle : n ≤ m) : L.Binds m binding binding' := ⟨h.1, h.2.mono hle⟩

theorem Scopes.mono {scope scope' : Scope} (h : L.Scopes n scope scope') (hle : n ≤ m) :
    L.Scopes m scope scope' where
  bindings := h.bindings.imp fun _ _ hb => hb.mono hle
  outer_eq := h.outer_eq
  outer_visible outer ho := (h.outer_visible outer ho).mono hle

theorem rel_bindings_get? {bindings bindings' : Bindings} (name : String)
    (h : List.Forall₂ (L.Binds n) bindings bindings') :
    Option.Rel (L.Values n) (bindings.get? name) (bindings'.get? name) := by
  induction h with
  | nil => exact .none
  | @cons binding binding' rest rest' hb _ ih =>
      obtain ⟨bound, value⟩ := binding
      obtain ⟨bound', value'⟩ := binding'
      obtain ⟨rfl, hv⟩ := hb
      unfold Bindings.get?
      split
      · exact .some hv
      · exact ih

theorem forall₂_insert {bindings bindings' : Bindings} (name : String) (hv : L.Values n v v')
    (h : List.Forall₂ (L.Binds n) bindings bindings') :
    List.Forall₂ (L.Binds n) (bindings.insert name v) (bindings'.insert name v') := by
  induction h with
  | nil => exact .cons ⟨rfl, hv⟩ .nil
  | @cons binding binding' rest rest' hb hrest ih =>
      obtain ⟨bound, value⟩ := binding
      obtain ⟨bound', value'⟩ := binding'
      obtain ⟨rfl, hold⟩ := hb
      simp only [Bindings.insert]
      split
      · exact .cons ⟨rfl, hv⟩ hrest
      · split
        · exact .cons ⟨rfl, hv⟩ (.cons ⟨rfl, hold⟩ hrest)
        · exact .cons ⟨rfl, hold⟩ ih

/-! ## Names in heaps -/

namespace Heaps

variable {L : Likeness} {heap heap' : Heap} {id : ScopeId} {v v' : Value}

/-- A scope that counts is missing in both heaps, or it is tied. -/
theorem scope_cases (h : L.Heaps heap heap') (hv : L.Visible heap.scopes.size id) :
    (heap.scopes[id]? = none ∧ heap'.scopes[id]? = none) ∨
      ∃ scope scope', heap.scopes[id]? = some scope ∧ heap'.scopes[id]? = some scope' ∧
        L.Scopes heap.scopes.size scope scope' := by
  have hrel := h.scopes id hv
  generalize heap.scopes[id]? = found at hrel ⊢
  generalize heap'.scopes[id]? = found' at hrel ⊢
  cases hrel with
  | none => exact .inl ⟨rfl, rfl⟩
  | some hscope => exact .inr ⟨_, _, rfl, rfl, hscope⟩

/-- The chain from a scope that counts is the same and counts all along. -/
theorem chain (h : L.Heaps heap heap') (id : ScopeId) (hv : L.Visible heap.scopes.size id) :
    heap'.chain id = heap.chain id ∧
      ∀ other ∈ heap.chain id, L.Visible heap.scopes.size other := by
  rcases h.scope_cases hv with ⟨hs, hs'⟩ | ⟨found, found', hs, hs', hfound⟩
  · rw [Heap.chain_of_none hs, Heap.chain_of_none hs']
    simp
  · rw [Heap.chain_of_some hs, Heap.chain_of_some hs', hfound.outer_eq]
    cases ho : found.outer with
    | none => simpa using hv
    | some outer =>
        have hlt : outer < id := heap.outer_lt id found outer hs ho
        obtain ⟨heq, hmem⟩ := h.chain outer (hfound.outer_visible outer ho)
        simp only [Option.elim, heq, true_and, List.mem_cons, forall_eq_or_imp]
        exact ⟨hv, hmem⟩
termination_by id

/-- Both scopes have no value for the name, or values that are alike. -/
theorem rel_lookup? (h : L.Heaps heap heap') (name : String)
    (hv : L.Visible heap.scopes.size id) :
    Option.Rel (L.Values heap.scopes.size) (heap.lookup? id name) (heap'.lookup? id name) := by
  unfold Heap.lookup?
  rcases h.scope_cases hv with ⟨hs, hs'⟩ | ⟨found, found', hs, hs', hfound⟩
  · rw [hs, hs']
    exact .none
  · rw [hs, hs']
    exact rel_bindings_get? name hfound.bindings

/-- A name has tied values in both heaps, or none. -/
theorem rel_get? (h : L.Heaps heap heap') (name : String)
    (hv : L.Visible heap.scopes.size id) :
    Option.Rel (L.Values heap.scopes.size) (heap.get? id name) (heap'.get? id name) := by
  obtain ⟨heq, hmem⟩ := h.chain id hv
  rw [Heap.get?, Heap.get?, heq]
  generalize heap.chain id = ids at hmem
  induction ids with
  | nil => exact .none
  | cons first rest ih =>
      rw [List.forall_mem_cons] at hmem
      have hrel := h.rel_lookup? name hmem.1
      rw [List.findSome?_cons, List.findSome?_cons]
      generalize heap.lookup? first name = found at hrel ⊢
      generalize heap'.lookup? first name = found' at hrel ⊢
      cases hrel with
      | none => exact ih hmem.2
      | some hvalue => exact .some hvalue

/-- A name is bound in the same scope, which counts. -/
theorem owner? (h : L.Heaps heap heap') (name : String) (hv : L.Visible heap.scopes.size id) :
    heap'.owner? id name = heap.owner? id name ∧
      L.Visible heap.scopes.size ((heap.owner? id name).getD id) := by
  obtain ⟨heq, hmem⟩ := h.chain id hv
  have howner : heap'.owner? id name = heap.owner? id name := by
    rw [Heap.owner?, Heap.owner?, heq]
    generalize heap.chain id = ids at hmem
    induction ids with
    | nil => rfl
    | cons first rest ih =>
        rw [List.forall_mem_cons] at hmem
        have hrel := h.rel_lookup? name hmem.1
        rw [List.find?_cons, List.find?_cons, ih hmem.2]
        generalize heap.lookup? first name = found at hrel ⊢
        generalize heap'.lookup? first name = found' at hrel ⊢
        cases hrel <;> rfl
  refine ⟨howner, ?_⟩
  cases ho : heap.owner? id name with
  | none => exact hv
  | some owner => exact hmem owner (List.mem_of_find?_eq_some ho)

/-! ## What heap operations keep -/

/-- Heaps stay tied if a scope that counts binds a name to tied values. -/
theorem bind (h : L.Heaps heap heap') (name : String) (hid : L.Visible heap.scopes.size id)
    (hv : L.Values heap.scopes.size v v') :
    L.Heaps (heap.bind id name v) (heap'.bind id name v') := by
  have hsize : (heap.bind id name v).scopes.size = heap.scopes.size := by simp [Heap.bind]
  refine ⟨?_, ?_, h.counts, fun other hother => ?_, fun other hlt hother => ?_⟩
  · simpa [Heap.bind] using h.size_eq
  · rw [hsize]
    exact h.before_le
  · rw [hsize] at hother ⊢
    simp only [Heap.bind, Array.getElem?_modify]
    rcases h.scope_cases hother with ⟨hs, hs'⟩ | ⟨found, found', hs, hs', hfound⟩
    · rw [hs, hs']
      split <;> exact .none
    · rw [hs, hs']
      split
      · exact .some ⟨forall₂_insert name hv hfound.bindings, hfound.outer_eq,
          hfound.outer_visible⟩
      · exact .some hfound
  · have hne : id ≠ other := by
      rintro rfl
      rcases hid with hshared | ⟨hle, -⟩
      · exact hother hshared
      · omega
    simp only [Heap.bind, Array.getElem?_modify, if_neg hne]
    exact h.outside other hlt hother

/-- Both heaps assign in the same scope. -/
theorem assign (h : L.Heaps heap heap') (name : String) (hid : L.Visible heap.scopes.size id)
    (hv : L.Values heap.scopes.size v v') :
    L.Heaps (heap.assign id name v) (heap'.assign id name v') := by
  obtain ⟨howner, hvisible⟩ := h.owner? name hid
  rw [Heap.assign, Heap.assign, howner]
  exact h.bind name hvisible hv

/-- A new scope inside one that counts has the same number in both heaps and counts. -/
theorem enclose (h : L.Heaps heap heap') (hid : L.Visible heap.scopes.size id) :
    L.Heaps (heap.enclose id).2 (heap'.enclose id).2 ∧
      (heap'.enclose id).1 = (heap.enclose id).1 ∧
      L.Visible (heap.enclose id).2.scopes.size (heap.enclose id).1 := by
  have hsize : (heap.enclose id).2.scopes.size = heap.scopes.size + 1 := by simp [Heap.enclose]
  have hnew : L.Visible (heap.scopes.size + 1) heap.scopes.size :=
    .inr ⟨h.before_le, Nat.lt_succ_self _⟩
  refine ⟨⟨?_, ?_, h.counts, fun other hother => ?_, fun other hlt hother => ?_⟩, h.size_eq,
    hsize ▸ hnew⟩
  · simp [Heap.enclose, h.size_eq]
  · rw [hsize]
    exact Nat.le_succ_of_le h.before_le
  · rw [hsize] at hother ⊢
    simp only [Heap.enclose, Array.getElem?_push, h.size_eq]
    split
    · refine .some ⟨.nil, rfl, fun outer ho => ?_⟩
      split at ho
      · cases ho
        exact hid.mono (Nat.le_succ _)
      · cases ho
    · next hne =>
        have hold : L.Visible heap.scopes.size other := by
          rcases hother with hshared | ⟨hle, hlt⟩
          · exact .inl hshared
          · exact .inr ⟨hle, Nat.lt_of_le_of_ne (Nat.lt_succ_iff.1 hlt) hne⟩
        rcases h.scope_cases hold with ⟨hs, hs'⟩ | ⟨found, found', hs, hs', hfound⟩
        · rw [hs, hs']
          exact .none
        · rw [hs, hs']
          exact .some (hfound.mono (Nat.le_succ _))
  · have hbefore := h.before_le
    have hne : other ≠ heap.scopes.size := by omega
    simp only [Heap.enclose, Array.getElem?_push, h.size_eq, if_neg hne]
    exact h.outside other hlt hother

/-- A new function stands for the other new function. -/
theorem makeFunction {parameters parameters' body body' : Tree} (h : L.Heaps heap heap')
    (name : String) (hp : L.Trees parameters parameters') (hb : L.Trees body body')
    (scope : ScopeId) :
    L.Heaps (heap.makeFunction name parameters body scope).2
        (heap'.makeFunction name parameters' body' scope).2 ∧
      L.Functions (heap.makeFunction name parameters body scope).1
        (heap'.makeFunction name parameters' body' scope).1 :=
  ⟨⟨h.size_eq, h.before_le, L.counts_succ h.counts, h.scopes, h.outside⟩,
    ⟨L.numbers_of_counts h.counts, rfl, hp, hb, rfl,
      fun hfixed => absurd hfixed (L.not_fixed_of_counts h.counts)⟩⟩

end Heaps

end Likeness

end TreeScript
