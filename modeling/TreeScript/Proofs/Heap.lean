import TreeScript.Heap

/-!
# What the values of a heap have in common

`Holds P` says that every value that any scope binds meets `P`. Making scopes and functions
keeps this, binding and assigning a value that meets `P` keeps it, and a name then has a value
that meets `P`. So a property of values is followed through a program without a look at
scopes.
-/

namespace TreeScript

/-- The function, if the value is one. -/
def Value.function? : Value → Option Function
  | .function f => some f
  | _ => none

theorem Value.function?_eq_some_iff {value : Value} {f : Function} :
    value.function? = some f ↔ value = .function f := by
  cases value with
  | function g => simp [function?]
  | integer | text | nil => simp [function?]

namespace Bindings

/-- Inserting adds one binding and may replace another one. -/
theorem mem_of_mem_insert {name : String} {value : Value} {binding : String × Value} :
    ∀ {bindings : Bindings}, binding ∈ bindings.insert name value →
      binding = (name, value) ∨ binding ∈ bindings
  | [], h => .inl (List.mem_singleton.1 h)
  | (bound, old) :: rest, h => by
      unfold insert at h
      split at h
      · rcases List.mem_cons.1 h with h | h
        · exact .inl h
        · exact .inr (List.mem_cons_of_mem _ h)
      · split at h
        · exact List.mem_cons.1 h
        · rcases List.mem_cons.1 h with rfl | h
          · exact .inr List.mem_cons_self
          · exact (mem_of_mem_insert h).imp_right (List.mem_cons_of_mem _)

theorem mem_of_get? {name : String} {value : Value} :
    ∀ {bindings : Bindings}, bindings.get? name = some value → (name, value) ∈ bindings
  | (bound, old) :: rest, h => by
      unfold get? at h
      split at h
      · next hb =>
          cases h
          rw [hb]
          exact List.mem_cons_self
      · exact List.mem_cons_of_mem _ (mem_of_get? h)

end Bindings

namespace Heap

/-! ## Scopes one by one -/

section Scopes

variable {heap : Heap} {id : ScopeId}

theorem chain_of_none (h : heap.scopes[id]? = none) : heap.chain id = [] := by
  rw [chain]
  split
  · rfl
  · next hs => rw [h] at hs; cases hs

theorem chain_of_some {scope : Scope} (h : heap.scopes[id]? = some scope) :
    heap.chain id = id :: scope.outer.elim [] heap.chain := by
  rw [chain]
  split
  · next hs => rw [h] at hs; cases hs
  · next found hs =>
      rw [h] at hs
      cases hs
      split
      · next ho => rw [ho]; rfl
      · next ho => rw [ho]; rfl

/-- The scope gets one more binding and keeps its outer scope. -/
theorem exists_scope_bind {scope : Scope} (name : String) (value : Value)
    (h : heap.scopes[id]? = some scope) :
    (heap.bind id name value).scopes[id]? =
      some { scope with bindings := scope.bindings.insert name value } := by
  simp [bind, Array.getElem?_modify, h]

theorem scopes_bind_of_none (h : heap.scopes[id]? = none) (name : String) (value : Value) :
    (heap.bind id name value).scopes[id]? = none := by
  rw [bind, Array.getElem?_modify, if_pos rfl, h, Option.map_none]

/-- Binding changes one scope. -/
theorem scopes_bind_of_ne {other : ScopeId} (h : id ≠ other) (name : String) (value : Value) :
    (heap.bind id name value).scopes[other]? = heap.scopes[other]? := by
  rw [bind, Array.getElem?_modify, if_neg h]

theorem size_bind (heap : Heap) (id : ScopeId) (name : String) (value : Value) :
    (heap.bind id name value).scopes.size = heap.scopes.size := by
  simp [bind]

theorem size_enclose (heap : Heap) (outer : ScopeId) :
    (heap.enclose outer).2.scopes.size = heap.scopes.size + 1 := by
  simp [enclose]

/-- Making a scope leaves those alone that were there. -/
theorem scopes_enclose_of_lt (h : id < heap.scopes.size) (outer : ScopeId) :
    (heap.enclose outer).2.scopes[id]? = heap.scopes[id]? := by
  rw [enclose, Array.getElem?_push, if_neg (Nat.ne_of_lt h)]

end Scopes

/-! ## What all values meet -/

/-- Every value that a scope binds meets `P`. -/
def Holds (P : Value → Prop) (heap : Heap) : Prop :=
  ∀ (id : ScopeId) (scope : Scope), heap.scopes[id]? = some scope →
    ∀ binding ∈ scope.bindings, P binding.2

variable {P : Value → Prop} {heap : Heap}

theorem holds_empty : empty.Holds P := by
  intro id scope h
  simp [empty] at h

/-! ## Scopes and functions -/

/-- A new scope binds nothing. -/
theorem Holds.push {scopes : Array Scope} {outer : Option ScopeId} {functions : Nat}
    {hlt : ∀ (id : ScopeId) (scope : Scope) (outer : ScopeId),
      scopes[id]? = some scope → scope.outer = some outer → outer < id}
    {hlt' : ∀ (id : ScopeId) (scope : Scope) (o : ScopeId),
      (scopes.push ⟨[], outer⟩)[id]? = some scope → scope.outer = some o → o < id}
    (h : Holds P ⟨scopes, functions, hlt⟩) :
    Holds P ⟨scopes.push ⟨[], outer⟩, functions, hlt'⟩ := by
  intro id scope hs
  rw [Array.getElem?_push] at hs
  split at hs
  · cases hs
    simp
  · exact h id scope hs

theorem Holds.makeScope (h : heap.Holds P) : heap.makeScope.2.Holds P := h.push

/-- A new scope binds nothing. -/
theorem Holds.enclose (h : heap.Holds P) (outer : ScopeId) : (heap.enclose outer).2.Holds P :=
    h.push

theorem Holds.makeFunction (h : heap.Holds P) (name : String) (parameters body : Tree)
    (scope : ScopeId) : (heap.makeFunction name parameters body scope).2.Holds P := h

/-! ## Names -/

/-- Only the new value has to be considered. -/
theorem Holds.bind (h : heap.Holds P) {value : Value} (hv : P value) (id : ScopeId)
    (name : String) : (heap.bind id name value).Holds P := by
  intro other scope hs
  simp only [Heap.bind, Array.getElem?_modify] at hs
  split at hs
  · cases hold : heap.scopes[other]? with
    | none => simp [hold] at hs
    | some old =>
        simp only [hold, Option.map_some, Option.some.injEq] at hs
        subst hs
        intro binding hmem
        rcases Bindings.mem_of_mem_insert hmem with rfl | hmem
        · exact hv
        · exact h other old hold binding hmem
  · exact h other scope hs

/-- An assignment binds in one of the scopes. -/
theorem Holds.assign (h : heap.Holds P) {value : Value} (hv : P value) (id : ScopeId)
    (name : String) : (heap.assign id name value).Holds P := h.bind hv _ name

/-- A name has a value that some scope binds. -/
theorem Holds.of_get? (h : heap.Holds P) {id : ScopeId} {name : String} {value : Value}
    (hget : heap.get? id name = some value) : P value := by
  obtain ⟨scope, -, hlookup⟩ := List.exists_of_findSome?_eq_some hget
  unfold lookup? at hlookup
  split at hlookup
  · next found hfound => exact h scope found hfound (name, value) (Bindings.mem_of_get? hlookup)
  · cases hlookup

end Heap

end TreeScript
