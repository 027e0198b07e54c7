import TreeScript.Value

/-!
# Scopes

A scope binds names to values and may stand inside another one, its outer scope. All
scopes live in one heap and are known by their numbers, so several functions can
share one, and what one of them assigns the others see.

A scope is made after its outer scope, and the link never changes. The heap carries
this as `outer_lt`. So the chain from a scope outwards is finite, and `chain` lists it
from the inside out.

A name means the nearest binding on the chain. `get?` reads it. `assign` changes it
where it is, and makes a binding in the scope itself if there is none. `bind` always
binds in the scope itself.
-/

namespace TreeScript

/-! ## Bindings -/

/-- The bindings of one scope, in ascending order of names. -/
abbrev Bindings := List (String × Value)

namespace Bindings

/-- The value of a name. -/
def get? (name : String) : Bindings → Option Value
  | [] => none
  | (bound, value) :: rest => if bound = name then some value else get? name rest
termination_by structural bindings => bindings

/-- The bindings with a value for a name, in place of the one it had. -/
def insert (name : String) (value : Value) : Bindings → Bindings
  | [] => [(name, value)]
  | (bound, old) :: rest =>
      if bound = name then (name, value) :: rest
      else if name < bound then (name, value) :: (bound, old) :: rest
      else (bound, old) :: insert name value rest
termination_by structural bindings => bindings

/-- The bound names. -/
def names (bindings : Bindings) : List String := bindings.map Prod.fst

/-- Only the name that is bound gets another value. -/
theorem get?_insert (name : String) (value : Value) (other : String) (bindings : Bindings) :
    (bindings.insert name value).get? other =
      if name = other then some value else bindings.get? other := by
  induction bindings with
  | nil => simp [insert, get?]
  | cons binding rest ih =>
      obtain ⟨bound, old⟩ := binding
      by_cases hb : bound = name
      · subst hb
        by_cases ho : bound = other
        · simp [insert, get?, ho]
        · simp [insert, get?, ho]
      · by_cases hl : name < bound
        · simp [insert, get?, hb, hl]
        · by_cases ho : bound = other
          · subst ho
            have hn : ¬ name = bound := fun h => hb h.symm
            simp [insert, get?, hb, hl, hn]
          · simp [insert, get?, hb, hl, ho, ih]

theorem mem_names_iff (name : String) (bindings : Bindings) :
    name ∈ bindings.names ↔ (bindings.get? name).isSome = true := by
  induction bindings with
  | nil => simp [names, get?]
  | cons binding rest ih =>
      obtain ⟨bound, value⟩ := binding
      by_cases h : bound = name
      · simp [names, get?, h]
      · have h' : ¬ name = bound := fun he => h he.symm
        simp only [names] at ih
        simp [names, get?, h, h', ← ih]

end Bindings

/-! ## The heap -/

/-- One scope. -/
structure Scope where
  /-- What it binds. -/
  bindings : Bindings
  /-- The scope it stands in. -/
  outer : Option ScopeId
deriving Repr

/-- All scopes that were ever made. -/
structure Heap where
  /-- The scopes, by number. -/
  scopes : Array Scope
  /-- How many functions were made. -/
  functions : Nat
  /-- A scope is made after the one it stands in. -/
  outer_lt : ∀ (id : ScopeId) (scope : Scope) (outer : ScopeId),
    scopes[id]? = some scope → scope.outer = some outer → outer < id

namespace Heap

/-- The heap without scopes. -/
def empty : Heap where
  scopes := #[]
  functions := 0
  outer_lt := by
    intro id scope outer h
    simp at h

/-! ## Making scopes and functions -/

/-- A new scope may be put into any scope that is there. -/
theorem outer_lt_push {scopes : Array Scope} {outer : Option ScopeId}
    (h : ∀ (id : ScopeId) (scope : Scope) (outer : ScopeId),
      scopes[id]? = some scope → scope.outer = some outer → outer < id)
    (ho : ∀ id, outer = some id → id < scopes.size) :
    ∀ (id : ScopeId) (scope : Scope) (o : ScopeId),
      (scopes.push ⟨[], outer⟩)[id]? = some scope → scope.outer = some o → o < id := by
  intro id scope o hs hso
  rw [Array.getElem?_push] at hs
  split at hs
  · next hid =>
      cases hs
      rw [hid]
      exact ho o hso
  · exact h id scope o hs hso

/-- Makes a scope without an outer one. -/
def makeScope (heap : Heap) : ScopeId × Heap :=
  (heap.scopes.size,
    { scopes := heap.scopes.push ⟨[], none⟩
      functions := heap.functions
      outer_lt := outer_lt_push heap.outer_lt (by intro id h; simp at h) })

/-- Makes a scope inside another one. An outer scope that is not in the heap is left
out. -/
def enclose (heap : Heap) (outer : ScopeId) : ScopeId × Heap :=
  (heap.scopes.size,
    { scopes := heap.scopes.push ⟨[], if outer < heap.scopes.size then some outer else none⟩
      functions := heap.functions
      outer_lt := outer_lt_push heap.outer_lt (by
        intro id h
        split at h
        · next ho => cases h; exact ho
        · simp at h) })

/-- Makes a function. -/
def makeFunction (heap : Heap) (name : String) (parameters body : Tree) (scope : ScopeId) :
    Function × Heap :=
  (⟨heap.functions, name, parameters, body, scope⟩,
    { heap with functions := heap.functions + 1 })

/-! ## Names -/

/-- The value of a name in a scope itself. -/
def lookup? (heap : Heap) (id : ScopeId) (name : String) : Option Value :=
  match heap.scopes[id]? with
  | some scope => scope.bindings.get? name
  | none => none

/-- The scopes from one outwards. -/
def chain (heap : Heap) (id : ScopeId) : List ScopeId :=
  match _hs : heap.scopes[id]? with
  | none => []
  | some scope =>
      match _ho : scope.outer with
      | none => [id]
      | some outer => id :: heap.chain outer
termination_by id
decreasing_by exact heap.outer_lt id scope outer _hs _ho

/-- The nearest scope on the chain that binds a name. -/
def owner? (heap : Heap) (id : ScopeId) (name : String) : Option ScopeId :=
  (heap.chain id).find? fun scope => (heap.lookup? scope name).isSome

/-- The value of a name. -/
def get? (heap : Heap) (id : ScopeId) (name : String) : Option Value :=
  (heap.chain id).findSome? fun scope => heap.lookup? scope name

/-- The outer scopes do not depend on the bindings. -/
theorem outer_lt_modify {scopes : Array Scope}
    (h : ∀ (id : ScopeId) (scope : Scope) (outer : ScopeId),
      scopes[id]? = some scope → scope.outer = some outer → outer < id)
    (target : ScopeId) (f : Bindings → Bindings) :
    ∀ (id : ScopeId) (scope : Scope) (outer : ScopeId),
      (scopes.modify target fun s => { s with bindings := f s.bindings })[id]? = some scope →
        scope.outer = some outer → outer < id := by
  intro id scope outer hs ho
  rw [Array.getElem?_modify] at hs
  split at hs
  · cases hc : scopes[id]? with
    | none => simp [hc] at hs
    | some old =>
        simp only [hc, Option.map_some, Option.some.injEq] at hs
        subst hs
        exact h id old outer hc ho
  · exact h id scope outer hs ho

/-- Binds a name in a scope itself. -/
def bind (heap : Heap) (id : ScopeId) (name : String) (value : Value) : Heap :=
  { scopes := heap.scopes.modify id fun scope =>
      { scope with bindings := scope.bindings.insert name value }
    functions := heap.functions
    outer_lt := outer_lt_modify heap.outer_lt id (·.insert name value) }

/-- Gives a name a value in the nearest scope that binds it, or in the scope itself. -/
def assign (heap : Heap) (id : ScopeId) (name : String) (value : Value) : Heap :=
  heap.bind ((heap.owner? id name).getD id) name value

/-! ## The printed form -/

/-- The names that a scope binds, in ascending order. -/
def names (heap : Heap) (id : ScopeId) : List String :=
  match heap.scopes[id]? with
  | some scope => scope.bindings.names
  | none => []

/-- A chain of scopes with the names they bind. -/
def describeChain (heap : Heap) : List ScopeId → String
  | [] => "None"
  | id :: ids =>
      "Some(Environment \x7b names: [" ++
        ", ".intercalate ((heap.names id).map Text.quoted) ++
        "], outer: " ++ heap.describeChain ids ++ " \x7d)"
termination_by structural ids => ids

/-- A scope and those around it with the names they bind. -/
def describe (heap : Heap) (id : ScopeId) : String :=
  "Environment \x7b names: [" ++
    ", ".intercalate ((heap.names id).map Text.quoted) ++
    "], outer: " ++ heap.describeChain ((heap.chain id).drop 1) ++ " \x7d"

end Heap

end TreeScript
