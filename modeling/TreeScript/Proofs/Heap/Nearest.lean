import Mathlib.Logic.Relation
import Mathlib.Order.WellFounded
import TreeScript.Proofs.Heap

/-!
# A name means its nearest binding

`Nearest name id owner` walks from a scope outwards, link by link, and comes to rest at the first
scope that binds the name. This does not mention the chain as a list. `owner?` finds that scope, and
`get?` gives what is bound there.

Scopes are shared, so a value that is bound through one of them can be seen through others.
`Differs target name value` says all that binding a name in a target scope changes. Whoever now has
the target as the nearest scope sees the value. For everyone else, and for all other names, nothing
changes. Of two scopes with one outer scope, one can get a binding of its own while the other still
sees that of the outer scope.

That a scope binds a name once is not part of the type of heaps. It holds for those that are
`Reached` by the operations on scopes.
-/

namespace TreeScript

/-! ## Bindings in order -/

namespace Bindings

/-- The names ascend. -/
def Ascending (bindings : Bindings) : Prop :=
  bindings.Pairwise fun binding other => binding.1 < other.1

variable {name : String} {value : Value} {bindings : Bindings}

/-- Inserting keeps names apart and in order. -/
theorem Ascending.insert (h : bindings.Ascending) : (bindings.insert name value).Ascending := by
  induction h with
  | nil => exact List.pairwise_singleton _ _
  | @cons binding rest hfirst hrest ih =>
      obtain ⟨bound, old⟩ := binding
      unfold Bindings.insert
      split
      next hbound =>
        subst hbound
        exact .cons hfirst hrest
      next hbound =>
        split
        next hlt =>
          apply List.Pairwise.cons
          · intro other hmem
            cases hmem with
            | head => exact hlt
            | tail _ hmem => exact String.lt_trans hlt (hfirst other hmem)
          · exact .cons hfirst hrest
        next hlt =>
          apply List.Pairwise.cons
          · intro other hmem
            cases mem_of_mem_insert hmem with
            | inl hother =>
                subst hother
                show bound < name
                have hle : bound ≤ name := String.not_lt.1 hlt
                grind
            | inr hmem => exact hfirst other hmem
          · exact ih

/-- Of a name that is bound once, the value is the one bound. -/
theorem Ascending.get?_eq_some_iff (h : bindings.Ascending) :
    bindings.get? name = some value ↔ (name, value) ∈ bindings := by
  constructor
  · exact mem_of_get?
  · intro hmem
    induction h with
    | nil => cases hmem
    | @cons binding rest hfirst _ ih =>
        obtain ⟨bound, old⟩ := binding
        unfold Bindings.get?
        cases hmem with
        | head => exact if_pos rfl
        | tail _ hmem =>
            have hlt : bound < name := hfirst _ hmem
            have hne : bound ≠ name := by
              intro heq
              rw [heq] at hlt
              exact String.lt_irrefl name hlt
            rw [if_neg hne]
            exact ih hmem

end Bindings

namespace Heap

/-! ## Heaps that operations lead to -/

/-- One operation on scopes. Each works in a scope that is there. Another holder of a scope gets its
number, which leaves the heap as it is. -/
inductive Step : Heap → Heap → Prop where
  | make (heap : Heap) : Step heap heap.makeScope.2
  | enclose {heap : Heap} {outer : ScopeId} (h : outer < heap.scopes.size) :
      Step heap (heap.enclose outer).2
  | share {heap : Heap} {id : ScopeId} (h : id < heap.scopes.size) : Step heap heap
  | assign {heap : Heap} {id : ScopeId} (h : id < heap.scopes.size) (name : String)
      (value : Value) : Step heap (heap.assign id name value)
  | bind {heap : Heap} {id : ScopeId} (h : id < heap.scopes.size) (name : String)
      (value : Value) : Step heap (heap.bind id name value)

/-- The heaps that operations lead to, from the one without scopes. -/
def Reached (heap : Heap) : Prop := Relation.ReflTransGen Step empty heap

/-- The names ascend in every scope. -/
def Ascending (heap : Heap) : Prop :=
  ∀ (id : ScopeId) (scope : Scope), heap.scopes[id]? = some scope → scope.bindings.Ascending

theorem Ascending.push {scopes : Array Scope} {outer : Option ScopeId} {functions : Nat}
    {hlt : ∀ (id : ScopeId) (scope : Scope) (outer : ScopeId),
      scopes[id]? = some scope → scope.outer = some outer → outer < id}
    {hlt' : ∀ (id : ScopeId) (scope : Scope) (o : ScopeId),
      (scopes.push ⟨[], outer⟩)[id]? = some scope → scope.outer = some o → o < id}
    (h : Ascending ⟨scopes, functions, hlt⟩) :
    Ascending ⟨scopes.push ⟨[], outer⟩, functions, hlt'⟩ := by
  intro id scope hs
  rw [Array.getElem?_push] at hs
  split at hs
  · cases hs
    exact .nil
  · exact h id scope hs

theorem Ascending.bind {heap : Heap} (h : heap.Ascending) (target : ScopeId) (name : String)
    (value : Value) : (heap.bind target name value).Ascending := by
  intro id scope hs
  by_cases hid : target = id
  · subst hid
    cases hold : heap.scopes[target]? with
    | none =>
        rw [scopes_bind_of_none hold] at hs
        cases hs
    | some old =>
        rw [exists_scope_bind name value hold] at hs
        cases hs
        exact (h target old hold).insert
  · rw [scopes_bind_of_ne hid] at hs
    exact h id scope hs

/-- Each step keeps the names of every scope in order. -/
theorem Step.ascending {heap heap' : Heap} (h : Step heap heap') (ha : heap.Ascending) :
    heap'.Ascending := by
  cases h with
  | make => exact ha.push
  | enclose => exact ha.push
  | share => exact ha
  | assign _ name value => exact ha.bind _ name value
  | bind _ name value => exact ha.bind _ name value

/-- In every heap that is reached the names of a scope are in order. -/
theorem Reached.ascending {heap : Heap} (h : heap.Reached) : heap.Ascending := by
  induction h with
  | refl =>
      intro id scope hs
      simp [empty] at hs
  | tail _ hstep ih => exact hstep.ascending ih

/-! ## Links and bindings -/

/-- The first scope stands in the second one. -/
def StandsIn (heap : Heap) (id outer : ScopeId) : Prop :=
  ∃ scope, heap.scopes[id]? = some scope ∧ scope.outer = some outer

/-- The scope itself binds the name to the value. -/
def Binds (heap : Heap) (id : ScopeId) (name : String) (value : Value) : Prop :=
  ∃ scope, heap.scopes[id]? = some scope ∧ (name, value) ∈ scope.bindings

/-- The nearest scope from a scope outwards that binds the name. -/
inductive Nearest (heap : Heap) (name : String) : ScopeId → ScopeId → Prop where
  | here {id : ScopeId} {value : Value} (h : heap.Binds id name value) : Nearest heap name id id
  | outward {id outer owner : ScopeId} (hnone : ∀ value, ¬ heap.Binds id name value)
      (hout : heap.StandsIn id outer) (h : Nearest heap name outer owner) :
      Nearest heap name id owner

variable {heap : Heap} {id outer owner target : ScopeId} {name : String} {value : Value}

/-- There is no way outwards without an end: numbers of scopes get smaller along it. -/
theorem exists_not_standsIn (heap : Heap) (path : Nat → ScopeId) :
    ∃ k, ¬ heap.StandsIn (path k) (path (k + 1)) := by
  obtain ⟨k, hk⟩ := WellFounded.not_rel_apply_succ (r := (· < ·)) path
  refine ⟨k, ?_⟩
  intro ⟨scope, hs, ho⟩
  exact hk (heap.outer_lt _ scope _ hs ho)

/-- A scope has a value for each name that it binds. -/
theorem lookup?_isSome_iff :
    (heap.lookup? id name).isSome = true ↔ ∃ value, heap.Binds id name value := by
  unfold lookup? Binds
  cases heap.scopes[id]? with
  | none => simp
  | some scope =>
      show (scope.bindings.get? name).isSome = true ↔ _
      rw [← Bindings.mem_names_iff]
      simp [Bindings.names]

/-- A scope whose names are in order has one value for each of them. -/
theorem Ascending.lookup?_eq_some_iff (h : heap.Ascending) :
    heap.lookup? id name = some value ↔ heap.Binds id name value := by
  unfold lookup? Binds
  cases hs : heap.scopes[id]? with
  | none => simp
  | some scope => simp [(h id scope hs).get?_eq_some_iff]

/-! ## The walk outwards -/

/-- A name is looked for in the scope itself and then in the one it stands in. -/
theorem owner?_of_some {scope : Scope} (h : heap.scopes[id]? = some scope) (name : String) :
    heap.owner? id name = if (scope.bindings.get? name).isSome then some id
      else scope.outer.bind fun outer => heap.owner? outer name := by
  have hlookup : heap.lookup? id name = scope.bindings.get? name := by rw [lookup?, h]
  rw [owner?, chain_of_some h, List.find?_cons, hlookup]
  cases (scope.bindings.get? name).isSome with
  | true => rfl
  | false =>
      cases scope.outer with
      | none => rfl
      | some outer => rfl

/-- A name is looked up in the scope first and then in the outer one. -/
theorem get?_of_some {scope : Scope} (h : heap.scopes[id]? = some scope) (name : String) :
    heap.get? id name = (scope.bindings.get? name).or
      (scope.outer.bind fun outer => heap.get? outer name) := by
  have hlookup : heap.lookup? id name = scope.bindings.get? name := by rw [lookup?, h]
  rw [get?, chain_of_some h, List.findSome?_cons, hlookup]
  cases scope.bindings.get? name with
  | some value => rfl
  | none =>
      cases scope.outer with
      | none => rfl
      | some outer => rfl

/-- The value of a name is that in the scope where it is found. -/
theorem get?_eq_bind_owner? (heap : Heap) (id : ScopeId) (name : String) :
    heap.get? id name = (heap.owner? id name).bind fun owner => heap.lookup? owner name := by
  unfold get? owner?
  induction heap.chain id with
  | nil => rfl
  | cons first rest ih =>
      rw [List.findSome?_cons, List.find?_cons]
      cases hfirst : heap.lookup? first name with
      | some value => simp [hfirst]
      | none => simpa using ih

theorem Nearest.owner?_eq (h : heap.Nearest name id owner) : heap.owner? id name = some owner := by
  induction h with
  | @here id value hbinds =>
      have hsome := lookup?_isSome_iff.2 ⟨value, hbinds⟩
      obtain ⟨scope, hs, -⟩ := hbinds
      rw [lookup?, hs] at hsome
      rw [owner?_of_some hs, if_pos hsome]
  | outward hnone hout _ ih =>
      obtain ⟨scope, hs, ho⟩ := hout
      have hsome : ¬ (scope.bindings.get? name).isSome = true := by
        intro hsome
        obtain ⟨value, hbinds⟩ := lookup?_isSome_iff.1 (by rw [lookup?, hs]; exact hsome)
        exact hnone value hbinds
      rw [owner?_of_some hs, if_neg hsome, ho]
      exact ih

/-- Induction on the number of the scope, which is larger than that of the scope it stands in. -/
theorem nearest_of_owner? (id : ScopeId) (h : heap.owner? id name = some owner) :
    heap.Nearest name id owner := by
  cases hs : heap.scopes[id]? with
  | none =>
      rw [owner?, chain_of_none hs] at h
      cases h
  | some scope =>
      rw [owner?_of_some hs] at h
      have hlookup : heap.lookup? id name = scope.bindings.get? name := by rw [lookup?, hs]
      rw [← hlookup] at h
      split at h
      next hsome =>
        cases h
        obtain ⟨value, hbinds⟩ := lookup?_isSome_iff.1 hsome
        exact .here hbinds
      next hsome =>
        have hnone : ∀ value, ¬ heap.Binds id name value := by
          intro value hbinds
          exact hsome (lookup?_isSome_iff.2 ⟨value, hbinds⟩)
        obtain ⟨outer, ho, h⟩ := Option.bind_eq_some_iff.1 h
        have hlt : outer < id := heap.outer_lt id scope outer hs ho
        exact .outward hnone ⟨scope, hs, ho⟩ (nearest_of_owner? outer h)
termination_by id

/-- The owner is the nearest scope that binds the name. -/
theorem owner?_eq_some_iff : heap.owner? id name = some owner ↔ heap.Nearest name id owner :=
  ⟨nearest_of_owner? id, Nearest.owner?_eq⟩

/-- A name has no value where no scope owns it. -/
theorem get?_eq_none_iff : heap.get? id name = none ↔ heap.owner? id name = none := by
  rw [get?_eq_bind_owner?]
  cases ho : heap.owner? id name with
  | none => simp
  | some owner =>
      have hsome : (heap.lookup? owner name).isSome = true := by
        have hfound := List.find?_some ho
        exact hfound
      obtain ⟨value, hlookup⟩ := Option.isSome_iff_exists.1 hsome
      simp [hlookup]

/-- The value of a name is the one that its owner binds. -/
theorem Ascending.get?_eq_some_iff (h : heap.Ascending) : heap.get? id name = some value ↔
    ∃ owner, heap.owner? id name = some owner ∧ heap.Binds owner name value := by
  rw [get?_eq_bind_owner?, Option.bind_eq_some_iff]
  constructor
  · intro ⟨owner, howner, hlookup⟩
    exact ⟨owner, howner, h.lookup?_eq_some_iff.1 hlookup⟩
  · intro ⟨owner, howner, hbinds⟩
    exact ⟨owner, howner, h.lookup?_eq_some_iff.2 hbinds⟩

/-! ## Binding a name -/

/-- Binding changes no outer scope. -/
theorem standsIn_bind_iff : (heap.bind target name value).StandsIn id outer ↔
    heap.StandsIn id outer := by
  by_cases hid : target = id
  · subst hid
    cases hs : heap.scopes[target]? with
    | none => simp [StandsIn, scopes_bind_of_none hs, hs]
    | some scope => simp [StandsIn, exists_scope_bind name value hs, hs]
  · simp only [StandsIn, scopes_bind_of_ne hid]

theorem lookup?_bind_self (h : target < heap.scopes.size) (name : String) (value : Value) :
    (heap.bind target name value).lookup? target name = some value := by
  obtain ⟨scope, hs⟩ : ∃ scope, heap.scopes[target]? = some scope :=
    ⟨_, Array.getElem?_eq_getElem h⟩
  rw [lookup?, exists_scope_bind name value hs]
  show (scope.bindings.insert name value).get? name = some value
  rw [Bindings.get?_insert, if_pos rfl]

/-- Another name, or the same one in another scope, keeps its value. -/
theorem lookup?_bind_of_ne {other : String} (h : ¬ (other = name ∧ id = target)) :
    (heap.bind target name value).lookup? id other = heap.lookup? id other := by
  by_cases hid : target = id
  · subst hid
    cases hs : heap.scopes[target]? with
    | none => simp [lookup?, scopes_bind_of_none hs, hs]
    | some scope =>
        have hne : ¬ name = other := fun heq => h ⟨heq.symm, rfl⟩
        simp [lookup?, exists_scope_bind name value hs, hs, Bindings.get?_insert, hne]
  · rw [lookup?, scopes_bind_of_ne hid, lookup?]

/-- A scope still binds what it bound. -/
theorem Binds.bind {other : String} {old : Value} (h : heap.Binds id other old) (target : ScopeId)
    (name : String) (value : Value) :
    ∃ found, (heap.bind target name value).Binds id other found := by
  rw [← lookup?_isSome_iff]
  by_cases hat : other = name ∧ id = target
  · obtain ⟨hother, hid⟩ := hat
    subst hother hid
    obtain ⟨scope, hs, -⟩ := h
    have hlt : id < heap.scopes.size := (Array.getElem?_eq_some_iff.1 hs).1
    rw [lookup?_bind_self hlt, Option.isSome_some]
  · rw [lookup?_bind_of_ne hat]
    exact lookup?_isSome_iff.2 ⟨old, h⟩

theorem exists_binds_of_bind {other : String} {found : Value}
    (h : (heap.bind target name value).Binds id other found)
    (hat : ¬ (other = name ∧ id = target)) : ∃ old, heap.Binds id other old := by
  rw [← lookup?_isSome_iff, ← lookup?_bind_of_ne hat]
  exact lookup?_isSome_iff.2 ⟨found, h⟩

/-- What is nearest before is so afterwards, unless the target is nearer now. -/
theorem Nearest.bind {other : String} (h : heap.Nearest other id owner) (target : ScopeId)
    (name : String) (value : Value) :
    (heap.bind target name value).Nearest other id owner ∨
      other = name ∧ (heap.bind target name value).Nearest name id target := by
  induction h with
  | here hbinds =>
      obtain ⟨found, hfound⟩ := hbinds.bind target name value
      exact .inl (.here hfound)
  | @outward id outer owner hnone hout _ ih =>
      have hout' : (heap.bind target name value).StandsIn id outer := standsIn_bind_iff.2 hout
      by_cases hbound : ∃ found, (heap.bind target name value).Binds id other found
      · obtain ⟨found, hfound⟩ := hbound
        have hat : other = name ∧ id = target := by
          false_or_by_contra
          rename_i hat
          obtain ⟨old, hold⟩ := exists_binds_of_bind hfound hat
          exact hnone old hold
        obtain ⟨hother, hid⟩ := hat
        subst hother hid
        exact .inr ⟨rfl, .here hfound⟩
      · have hnone' : ∀ found, ¬ (heap.bind target name value).Binds id other found :=
          fun found hfound => hbound ⟨found, hfound⟩
        cases ih with
        | inl hnear => exact .inl (.outward hnone' hout' hnear)
        | inr hnear =>
            obtain ⟨hother, hnear⟩ := hnear
            subst hother
            exact .inr ⟨rfl, .outward hnone' hout' hnear⟩

/-- What is nearest afterwards was so before, unless it is the target that binds the name. -/
theorem Nearest.of_bind {other : String}
    (h : (heap.bind target name value).Nearest other id owner) :
    ¬ (other = name ∧ owner = target) → heap.Nearest other id owner := by
  induction h with
  | here hbinds =>
      intro hat
      obtain ⟨old, hold⟩ := exists_binds_of_bind hbinds hat
      exact .here hold
  | outward hnone hout _ ih =>
      intro hat
      apply Nearest.outward _ (standsIn_bind_iff.1 hout) (ih hat)
      intro old hold
      obtain ⟨found, hfound⟩ := hold.bind target name value
      exact hnone found hfound

/-- All that binding a name in a target scope changes. -/
structure Differs (heap : Heap) (target : ScopeId) (name : String) (value : Value)
    (heap' : Heap) : Prop where
  /-- Whoever has the target as the nearest scope sees the value. -/
  get?_eq : ∀ id, heap'.Nearest name id target → heap'.get? id name = some value
  /-- All others, and all who ask for other names, see what they saw where they saw it. -/
  unseen : ∀ id other, ¬ (other = name ∧ heap'.Nearest name id target) →
    heap'.get? id other = heap.get? id other ∧ heap'.owner? id other = heap.owner? id other
  /-- No scope is made. -/
  size_eq : heap'.scopes.size = heap.scopes.size
  /-- The other scopes are as they were. -/
  scopes_eq : ∀ id, id ≠ target → heap'.scopes[id]? = heap.scopes[id]?
  /-- In the target, the other names have the values they had. -/
  binds_iff : ∀ other, other ≠ name → ∀ found,
    heap'.Binds target other found ↔ heap.Binds target other found
  /-- Every scope stands where it stood. -/
  standsIn_iff : ∀ id outer, heap'.StandsIn id outer ↔ heap.StandsIn id outer

/-- The owner of a name changes only for the name that is bound, and only to the scope where it is.
-/
theorem owner?_bind_of_not {other : String}
    (h : ¬ (other = name ∧ (heap.bind target name value).Nearest name id target)) :
    (heap.bind target name value).owner? id other = heap.owner? id other := by
  apply Option.ext
  intro owner
  rw [owner?_eq_some_iff, owner?_eq_some_iff]
  constructor
  · intro hnear
    apply hnear.of_bind
    intro ⟨hother, howner⟩
    subst hother howner
    exact h ⟨rfl, hnear⟩
  · intro hnear
    cases hnear.bind target name value with
    | inl hnear => exact hnear
    | inr hat => exact absurd hat h

/-- After binding, every scope and name sees what it saw, but for those whose nearest scope is the
one that was bound in. -/
theorem differs_bind (ha : heap.Ascending) (ht : target < heap.scopes.size) (name : String)
    (value : Value) : heap.Differs target name value (heap.bind target name value) where
  get?_eq id hnear := by
    rw [get?_eq_bind_owner?, hnear.owner?_eq]
    exact lookup?_bind_self ht name value
  unseen id other hat := by
    have howner := owner?_bind_of_not hat
    refine ⟨?_, howner⟩
    rw [get?_eq_bind_owner?, get?_eq_bind_owner?, ← howner]
    cases ho : (heap.bind target name value).owner? id other with
    | none => rfl
    | some owner =>
        show (heap.bind target name value).lookup? owner other = heap.lookup? owner other
        apply lookup?_bind_of_ne
        intro ⟨hother, hid⟩
        subst hother hid
        exact hat ⟨rfl, owner?_eq_some_iff.1 ho⟩
  size_eq := size_bind heap target name value
  scopes_eq id hid := scopes_bind_of_ne hid.symm name value
  binds_iff other hother found := by
    have hat : ¬ (other = name ∧ target = target) := fun h => hother h.1
    rw [← (ha.bind target name value).lookup?_eq_some_iff, ← ha.lookup?_eq_some_iff,
      lookup?_bind_of_ne hat]
  standsIn_iff _ _ := standsIn_bind_iff

/-- A name that is bound in a scope is found there from it. -/
theorem nearest_bind_self (h : target < heap.scopes.size) (name : String) (value : Value) :
    (heap.bind target name value).Nearest name target target := by
  have hsome : ((heap.bind target name value).lookup? target name).isSome = true := by
    rw [lookup?_bind_self h, Option.isSome_some]
  obtain ⟨found, hfound⟩ := lookup?_isSome_iff.1 hsome
  exact .here hfound

theorem Nearest.lt_size (h : heap.Nearest name id owner) : owner < heap.scopes.size := by
  induction h with
  | here hbinds =>
      obtain ⟨scope, hs, -⟩ := hbinds
      exact (Array.getElem?_eq_some_iff.1 hs).1
  | outward _ _ _ ih => exact ih

/-- An assignment is seen from where it is made. -/
theorem nearest_assign_self (h : id < heap.scopes.size) (name : String) (value : Value) :
    (heap.assign id name value).Nearest name id ((heap.owner? id name).getD id) := by
  unfold assign
  cases ho : heap.owner? id name with
  | none => exact nearest_bind_self h name value
  | some owner =>
      have hnear : heap.Nearest name id owner := owner?_eq_some_iff.1 ho
      cases hnear.bind owner name value with
      | inl hnear => exact hnear
      | inr hat => exact hat.2

/-- What is assigned goes to a scope of the heap. -/
theorem getD_owner?_lt_size (h : id < heap.scopes.size) (name : String) :
    (heap.owner? id name).getD id < heap.scopes.size := by
  cases ho : heap.owner? id name with
  | none => exact h
  | some owner =>
      have hnear : heap.Nearest name id owner := owner?_eq_some_iff.1 ho
      exact hnear.lt_size

/-- In a heap that operations lead to, no way outwards is without an end. Names are looked for scope
by scope on that way, they are found in the nearest scope that binds them, and they have the value
bound there. An assignment changes that scope, or the scope itself if there is none, and a new
binding always the scope itself. Whoever now has it as the nearest scope that binds the name sees
the value, whoever has not sees what was there before, and so does everyone who asks for another
name. -/
theorem nearest_binding (heap : Heap) (h : heap.Reached) :
    (∀ path : Nat → ScopeId, ∃ k, ¬ heap.StandsIn (path k) (path (k + 1))) ∧
    (∀ id scope name, heap.scopes[id]? = some scope →
      heap.get? id name = (scope.bindings.get? name).or
        (scope.outer.bind fun outer => heap.get? outer name) ∧
      heap.owner? id name = if (scope.bindings.get? name).isSome then some id
        else scope.outer.bind fun outer => heap.owner? outer name) ∧
    (∀ id name owner, heap.owner? id name = some owner ↔ heap.Nearest name id owner) ∧
    (∀ id name value, heap.get? id name = some value ↔
      ∃ owner, heap.owner? id name = some owner ∧ heap.Binds owner name value) ∧
    (∀ id name, heap.get? id name = none ↔ heap.owner? id name = none) ∧
    ∀ id name value, id < heap.scopes.size →
      let target := (heap.owner? id name).getD id
      ((heap.assign id name value).Nearest name id target ∧
        heap.Differs target name value (heap.assign id name value)) ∧
      (heap.bind id name value).Nearest name id id ∧
        heap.Differs id name value (heap.bind id name value) := by
  have ha : heap.Ascending := h.ascending
  refine ⟨exists_not_standsIn heap, ?_, ?_, ?_, ?_, ?_⟩
  · intro id scope name hs
    exact ⟨get?_of_some hs name, owner?_of_some hs name⟩
  · intro id name owner
    exact owner?_eq_some_iff
  · intro id name value
    exact ha.get?_eq_some_iff
  · intro id name
    exact get?_eq_none_iff
  · intro id name value hid target
    have htarget : target < heap.scopes.size := getD_owner?_lt_size hid name
    exact ⟨⟨nearest_assign_self hid name value, differs_bind ha htarget name value⟩,
      nearest_bind_self hid name value, differs_bind ha hid name value⟩

/-- Two scopes inside one that binds `x`, and one inside the first of them. -/
def siblings : Heap :=
  let outer := Heap.empty.makeScope.2.assign 0 "x" (.integer 1)
  (((outer.enclose 0).2.enclose 0).2.enclose 1).2

theorem siblings_reached : siblings.Reached := by
  have hempty : Heap.empty.Reached := .refl
  have hmade := hempty.tail (.make _)
  have houter := hmade.tail (@Step.assign _ 0 (by decide +kernel) "x" (.integer 1))
  have hfirst := houter.tail (@Step.enclose _ 0 (by decide +kernel))
  have hsecond := hfirst.tail (@Step.enclose _ 0 (by decide +kernel))
  exact hsecond.tail (@Step.enclose _ 1 (by decide +kernel))

/-- What is assigned in the innermost scope changes the outermost one, and both siblings see it.
What is bound in one sibling is seen inside it, and the other sibling still sees the outermost
scope. -/
theorem nearest_binding_siblings :
    siblings.Reached ∧ siblings.owner? 3 "x" = some 0 ∧
    (let heap := siblings.assign 3 "x" (.integer 9)
    heap.get? 3 "x" = some (.integer 9) ∧ heap.get? 2 "x" = some (.integer 9) ∧
      siblings.Differs 0 "x" (.integer 9) heap) ∧
    let heap := siblings.bind 1 "x" (.integer 7)
    heap.get? 3 "x" = some (.integer 7) ∧ heap.get? 2 "x" = siblings.get? 2 "x" ∧
      siblings.Differs 1 "x" (.integer 7) heap := by
  obtain ⟨-, -, -, -, -, hput⟩ := nearest_binding siblings siblings_reached
  have howner : siblings.owner? 3 "x" = some 0 := by decide +kernel
  have hassign := (hput 3 "x" (.integer 9) (by decide +kernel)).1
  rw [howner] at hassign
  obtain ⟨hnear, hdiffers⟩ := hassign
  have hbeside : (siblings.assign 3 "x" (.integer 9)).Nearest "x" 2 0 := by
    rw [← owner?_eq_some_iff]
    decide +kernel
  obtain ⟨-, hdiffers'⟩ := (hput 1 "x" (.integer 7) (by decide +kernel)).2
  have hinside : (siblings.bind 1 "x" (.integer 7)).Nearest "x" 3 1 := by
    rw [← owner?_eq_some_iff]
    decide +kernel
  have hunseen : ¬ ("x" = "x" ∧ (siblings.bind 1 "x" (.integer 7)).Nearest "x" 2 1) := by
    rw [← owner?_eq_some_iff]
    decide +kernel
  exact ⟨siblings_reached, howner,
    ⟨hdiffers.get?_eq 3 hnear, hdiffers.get?_eq 2 hbeside, hdiffers⟩,
    hdiffers'.get?_eq 3 hinside, (hdiffers'.unseen 2 "x" hunseen).1, hdiffers'⟩

end Heap

end TreeScript
