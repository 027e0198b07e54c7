import TreeScript.Program
import TreeScript.Proofs.Eval.Overlooks

/-!
# Evaluation leaks no names

A name is bound where a tree is evaluated, or in the scope of a call. So of all scopes that are
there before an evaluation, only the one it works in can bind a name that it did not bind before.
All others keep their names, and every scope keeps its outer scope (`names_confined`).

The scope of a call is made during the evaluation and gets names while arguments are evaluated in
another scope. So what a step keeps is said of the scopes below a bound, and the bound is no
larger than the heap before the step.

What a call does to scopes that were there before is due to its arguments alone. These are evaluated
in the scope of the caller, and neither the binding of a parameter nor the body of the function adds
a name anywhere below the bound (`ArgumentsLead`). If nothing leads out of the heap, the arguments
do not see the scope of the call. Then the names are those that evaluating the arguments without a
call adds (`exists_mapM_of_bindArguments`).
-/

namespace TreeScript

/-- Inserting adds the name that is bound and no other. -/
theorem Bindings.mem_names_insert {name other : String} {value : Value} {bindings : Bindings} :
    other ∈ (bindings.insert name value).names ↔ other = name ∨ other ∈ bindings.names := by
  rw [mem_names_iff, get?_insert, mem_names_iff]
  by_cases h : name = other
  · simp [h]
  · have h' : ¬ other = name := fun he => h he.symm
    simp [h, h']

namespace Heap

/-! ## The names of a scope in two heaps -/

/-- In the other heap the scope stands where it stood and still binds what it bound. -/
def NamesGrow (heap heap' : Heap) (id : ScopeId) : Prop :=
  ∀ scope, heap.scopes[id]? = some scope → ∃ scope', heap'.scopes[id]? = some scope' ∧
    scope'.outer = scope.outer ∧ ∀ name ∈ scope.bindings.names, name ∈ scope'.bindings.names

/-- In the other heap the scope stands where it stood and binds the same names. -/
def NamesKept (heap heap' : Heap) (id : ScopeId) : Prop :=
  ∀ scope, heap.scopes[id]? = some scope → ∃ scope', heap'.scopes[id]? = some scope' ∧
    scope'.outer = scope.outer ∧ ∀ name, name ∈ scope'.bindings.names ↔ name ∈ scope.bindings.names

/-- Of the scopes below the bound, at most the given one binds more names in the other heap. -/
structure KeepsNames (bound : Nat) (scope : ScopeId) (heap heap' : Heap) : Prop where
  /-- No scope is lost. -/
  size : heap.scopes.size ≤ heap'.scopes.size
  /-- Every scope keeps its names. -/
  grow : ∀ id < bound, heap.NamesGrow heap' id
  /-- The other scopes get no new ones. -/
  kept : ∀ id < bound, id ≠ scope → heap.NamesKept heap' id

variable {heap heap' heap'' : Heap} {bound : Nat} {scope id : ScopeId}

/-- A scope that is the same in both heaps has the same names there. -/
theorem namesKept_of_eq (h : heap'.scopes[id]? = heap.scopes[id]?) : heap.NamesKept heap' id :=
  fun scope hs => ⟨scope, h.trans hs, rfl, fun _ => Iff.rfl⟩

theorem NamesKept.refl (heap : Heap) (id : ScopeId) : heap.NamesKept heap id :=
  namesKept_of_eq rfl

theorem NamesKept.grow (h : heap.NamesKept heap' id) : heap.NamesGrow heap' id := by
  intro scope hs
  obtain ⟨scope', hs', ho, hn⟩ := h scope hs
  exact ⟨scope', hs', ho, fun name => (hn name).2⟩

theorem NamesGrow.trans (h : heap.NamesGrow heap' id) (h' : heap'.NamesGrow heap'' id) :
    heap.NamesGrow heap'' id := by
  intro scope hs
  obtain ⟨scope', hs', ho, hn⟩ := h scope hs
  obtain ⟨scope'', hs'', ho', hn'⟩ := h' scope' hs'
  exact ⟨scope'', hs'', ho'.trans ho, fun name hmem => hn' name (hn name hmem)⟩

theorem NamesKept.trans (h : heap.NamesKept heap' id) (h' : heap'.NamesKept heap'' id) :
    heap.NamesKept heap'' id := by
  intro scope hs
  obtain ⟨scope', hs', ho, hn⟩ := h scope hs
  obtain ⟨scope'', hs'', ho', hn'⟩ := h' scope' hs'
  exact ⟨scope'', hs'', ho'.trans ho, fun name => (hn' name).trans (hn name)⟩

/-- If all scopes below the bound keep their names, it does not matter which one may grow. -/
theorem keepsNames_of_kept (hsize : heap.scopes.size ≤ heap'.scopes.size)
    (h : ∀ id < bound, heap.NamesKept heap' id) : heap.KeepsNames bound scope heap' :=
  ⟨hsize, fun id hid => (h id hid).grow, fun id hid _ => h id hid⟩

theorem KeepsNames.refl (heap : Heap) (bound : Nat) (scope : ScopeId) :
    heap.KeepsNames bound scope heap :=
  keepsNames_of_kept (Nat.le_refl _) fun id _ => .refl heap id

theorem KeepsNames.trans (h : heap.KeepsNames bound scope heap')
    (h' : heap'.KeepsNames bound scope heap'') : heap.KeepsNames bound scope heap'' where
  size := Nat.le_trans h.size h'.size
  grow id hid := (h.grow id hid).trans (h'.grow id hid)
  kept id hid hne := (h.kept id hid hne).trans (h'.kept id hid hne)

/-- What a scope beyond the bound binds does not count. -/
theorem KeepsNames.of_le (h : heap.KeepsNames bound id heap') (hle : bound ≤ id) :
    heap.KeepsNames bound scope heap' :=
  keepsNames_of_kept h.size fun other hother => h.kept other hother (by omega)

/-! ## What heap operations keep -/

/-- Binding a name in another scope keeps the names of this one. -/
theorem namesKept_bind_of_ne {target : ScopeId} (name : String) (value : Value)
    (h : target ≠ id) : heap.NamesKept (heap.bind target name value) id :=
  namesKept_of_eq (scopes_bind_of_ne h name value)

/-- Binding a name takes none away, in any scope. -/
theorem namesGrow_bind (heap : Heap) (target : ScopeId) (name : String) (value : Value)
    (id : ScopeId) : heap.NamesGrow (heap.bind target name value) id := by
  by_cases h : target = id
  · subst h
    intro scope hs
    refine ⟨_, exists_scope_bind name value hs, rfl, fun other hmem => ?_⟩
    exact Bindings.mem_names_insert.2 (.inr hmem)
  · exact (namesKept_bind_of_ne name value h).grow

/-- Binding a name again leaves the names as they are. -/
theorem namesKept_bind_of_isSome {target : ScopeId} {name : String} (value : Value)
    (h : (heap.lookup? target name).isSome = true) (id : ScopeId) :
    heap.NamesKept (heap.bind target name value) id := by
  by_cases hid : target = id
  · subst hid
    intro scope hs
    rw [lookup?, hs] at h
    have hbound : name ∈ scope.bindings.names := (Bindings.mem_names_iff _ _).2 h
    refine ⟨_, exists_scope_bind name value hs, rfl, fun other => ?_⟩
    rw [Bindings.mem_names_insert]
    exact or_iff_right_of_imp fun he => he ▸ hbound
  · exact namesKept_bind_of_ne name value hid

/-- A binding in the scope that may grow keeps the names of all others. -/
theorem keepsNames_bind (heap : Heap) (bound : Nat) (scope : ScopeId) (name : String)
    (value : Value) : heap.KeepsNames bound scope (heap.bind scope name value) where
  size := Nat.le_of_eq (size_bind heap scope name value).symm
  grow id _ := namesGrow_bind heap scope name value id
  kept _ _ hne := namesKept_bind_of_ne name value hne.symm

/-- An assignment binds a new name only in the scope itself. -/
theorem keepsNames_assign (heap : Heap) (bound : Nat) (scope : ScopeId) (name : String)
    (value : Value) : heap.KeepsNames bound scope (heap.assign scope name value) := by
  unfold assign
  cases ho : heap.owner? scope name with
  | none => exact keepsNames_bind heap bound scope name value
  | some owner =>
      have hsome : (heap.lookup? owner name).isSome = true := by
        have hfound := List.find?_some ho
        exact hfound
      exact keepsNames_of_kept (Nat.le_of_eq (size_bind heap owner name value).symm)
        fun id _ => namesKept_bind_of_isSome value hsome id

/-- A new scope is none of those below the bound. -/
theorem keepsNames_enclose (hb : bound ≤ heap.scopes.size) (outer : ScopeId) :
    heap.KeepsNames bound scope (heap.enclose outer).2 :=
  keepsNames_of_kept (by rw [size_enclose]; omega) fun _ hid =>
    namesKept_of_eq (scopes_enclose_of_lt (Nat.lt_of_lt_of_le hid hb) outer)

theorem keepsNames_makeFunction (heap : Heap) (name : String) (parameters body : Tree)
    (scope : ScopeId) :
    heap.KeepsNames bound scope (heap.makeFunction name parameters body scope).2 :=
  keepsNames_of_kept (Nat.le_refl _) fun id _ => .refl heap id

end Heap

namespace Eval

/-! ## Steps that keep names -/

variable {α β : Type} {bound : Nat} {scope : ScopeId} {x : Evaluator α}

/-- From a heap that is not smaller than the bound, only the given scope gets new names. -/
def Keeps (bound : Nat) (scope : ScopeId) (x : Evaluator α) : Prop :=
  ∀ heap : Heap, bound ≤ heap.scopes.size → x.Ensures heap
    (fun _ heap' => heap.KeepsNames bound scope heap') fun _ heap' =>
      heap.KeepsNames bound scope heap'

theorem keeps_pure (a : α) : Keeps bound scope (pure a) := fun heap _ => .refl heap bound scope

theorem keeps_fail (e : EvalError) : Keeps bound scope (Action.fail e : Evaluator α) :=
  fun heap _ => .refl heap bound scope

theorem keeps_unfinished : Keeps bound scope (Action.unfinished : Evaluator α) :=
  fun _ _ => trivial

theorem keeps_tell (event : Event) : Keeps bound scope (Action.tell event : Evaluator Unit) :=
  fun heap _ => .refl heap bound scope

theorem keeps_ofExcept (result : Except EvalError α) :
    Keeps bound scope (Action.ofExcept result) := by
  cases result with
  | ok a => exact keeps_pure a
  | error e => exact keeps_fail e

/-- An update keeps names if it does so on each heap with the scopes below the bound. -/
theorem keeps_update {f : Heap → Heap}
    (h : ∀ heap : Heap, bound ≤ heap.scopes.size → heap.KeepsNames bound scope (f heap)) :
    Keeps bound scope (Action.update f : Evaluator Unit) := h

/-- What follows starts where at least as many scopes are there. -/
theorem Keeps.bind {f : α → Evaluator β} (h : Keeps bound scope x)
    (hf : ∀ a, Keeps bound scope (f a)) : Keeps bound scope (x >>= f) := by
  intro heap hb
  rw [Action.ensures_bind]
  refine (h heap hb).mono (fun a heap' hk => ?_) (fun _ _ hk => hk)
  exact (hf a heap' (Nat.le_trans hb hk.size)).mono (fun _ _ hk' => hk.trans hk')
    fun _ _ hk' => hk.trans hk'

/-- A scope at the bound or above it counts as none, so any other one may grow in its place. -/
theorem Keeps.of_le {id : ScopeId} (h : Keeps bound id x) (hle : bound ≤ id) :
    Keeps bound scope x :=
  fun heap hb => (h heap hb).mono (fun _ _ hk => hk.of_le hle) fun _ _ hk => hk.of_le hle

/-- A loop keeps names if each turn does. -/
theorem keeps_iterate {body : β → Evaluator (β ⊕ α)} (h : ∀ b, Keeps bound scope (body b))
    (n : Nat) (b : β) : Keeps bound scope (Action.iterate body n b) := by
  induction n generalizing b with
  | zero => exact keeps_unfinished
  | succ n ih =>
      rw [Action.iterate_succ]
      refine (h b).bind fun result => ?_
      cases result with
      | inl b' => exact ih b'
      | inr a => exact keeps_pure a

theorem keeps_child (tree : Tree) (index : Nat) : Keeps bound scope (child tree index) :=
  keeps_ofExcept _

theorem keeps_nameOf (tree : Tree) : Keeps bound scope (nameOf tree) := by
  unfold nameOf
  split
  · exact keeps_pure _
  · exact keeps_fail _

/-- Assigning binds a name in its owner, which has it already, or in the innermost scope. -/
theorem keeps_assign (target : Tree) (value : Value) (scope : ScopeId) :
    Keeps bound scope (assign target value scope) := by
  unfold assign
  split
  · refine Keeps.bind (keeps_update fun heap _ => ?_) fun _ => keeps_pure value
    exact heap.keepsNames_assign bound scope _ value
  · exact keeps_fail _

/-- A definition binds its name in the scope where it is evaluated. -/
theorem keeps_definition (tree : Tree) (scope : ScopeId) :
    Keeps bound scope (definition tree scope) := by
  unfold definition
  refine (keeps_child tree 0).bind fun leaf => (keeps_nameOf leaf).bind fun name => ?_
  refine (keeps_child tree 1).bind fun parameters => (keeps_child tree 2).bind fun body => ?_
  refine (keeps_tell _).bind fun _ => ?_
  refine Keeps.bind (fun heap _ => heap.keepsNames_makeFunction name parameters body scope)
    fun function => ?_
  refine Keeps.bind (keeps_update fun heap _ => ?_) fun _ => keeps_pure _
  exact heap.keepsNames_bind bound scope name _

theorem keeps_valueOf (name : String) (scope : ScopeId) :
    Keeps bound scope (valueOf name scope) := by
  unfold valueOf
  refine Keeps.bind (fun heap _ => .refl heap bound scope) fun found => ?_
  cases found with
  | some value => exact keeps_pure value
  | none => exact keeps_fail _

theorem keeps_numberOf (token : Token) : Keeps bound scope (numberOf token) := by
  unfold numberOf
  split
  · exact keeps_pure _
  · exact keeps_fail _

/-! ## Parts of the evaluator -/

section Recursor

variable {eval : Recursor}
  (he : ∀ (bound : Nat) (tree : Tree) (scope : ScopeId), Keeps bound scope (eval tree scope))
include he

/-- The operands are evaluated in one scope, and an assignment starts from there too. -/
theorem keeps_binary (tree : Tree) (scope : ScopeId) :
    Keeps bound scope (binary eval tree scope) := by
  unfold binary
  refine (keeps_child tree 0).bind fun left => (keeps_child tree 1).bind fun middle => ?_
  refine (keeps_nameOf middle).bind fun operator => (keeps_child tree 2).bind fun right => ?_
  split
  · exact (he bound right scope).bind fun value => keeps_assign left value scope
  · exact (he bound left scope).bind fun _ => (he bound right scope).bind fun _ => keeps_ofExcept _

/-- Arguments may bind names in the caller's scope. The names of parameters are bound beyond the
bound. -/
theorem keeps_bindArguments {callee : ScopeId} (hcallee : bound ≤ callee) (caller : ScopeId) :
    ∀ parameters arguments : List Tree,
      Keeps bound caller (bindArguments eval caller callee parameters arguments)
  | [], _ => keeps_pure ()
  | _ :: _, [] => keeps_pure ()
  | parameter :: parameters, argument :: arguments => by
      rw [bindArguments]
      refine (he bound argument caller).bind fun value => ?_
      refine (keeps_nameOf parameter).bind fun name => ?_
      refine Keeps.bind (keeps_update fun heap _ => ?_) fun _ => ?_
      · exact (heap.keepsNames_bind bound callee name value).of_le hcallee
      · exact keeps_bindArguments hcallee caller parameters arguments

/-- The callee has a new scope, and the arguments are evaluated in the caller's. -/
theorem keeps_call (arguments : List Tree) (scope : ScopeId) (callee : Value) :
    Keeps bound scope (call eval arguments scope callee) := by
  cases callee with
  | integer n => exact keeps_fail _
  | text s => exact keeps_fail _
  | nil => exact keeps_fail _
  | function f =>
      rw [call]
      split
      · intro heap hb
        rw [Action.ensures_bind, Action.ensures_transition]
        have henclose : heap.KeepsNames bound scope (heap.enclose f.scope).2 :=
          Heap.keepsNames_enclose hb f.scope
        have hrest : Keeps bound scope (do
            bindArguments eval scope (heap.enclose f.scope).1 f.parameters.children arguments
            Action.tell (.calling f.name f.arity)
            eval f.body (heap.enclose f.scope).1) := by
          refine (keeps_bindArguments he hb scope _ _).bind fun _ => (keeps_tell _).bind fun _ => ?_
          exact (he bound f.body _).of_le hb
        exact (hrest _ (Nat.le_trans hb henclose.size)).mono (fun _ _ hk => henclose.trans hk)
          fun _ _ hk => henclose.trans hk
      · exact keeps_fail _

/-- Each postfix is a call in the scope of the operand. -/
theorem keeps_primary (tree : Tree) (scope : ScopeId) :
    ∀ k : Nat, Keeps bound scope (primary eval tree scope k)
  | 0 => (keeps_child tree 0).bind fun operand => he bound operand scope
  | k + 1 => by
      rw [primary]
      refine (keeps_primary tree scope k).bind fun target => ?_
      refine (keeps_child tree (k + 1)).bind fun following => ?_
      unfold applyPostfix
      split
      · exact keeps_call he _ scope target
      · exact keeps_fail _

theorem keeps_sequence (scope : ScopeId) : ∀ (statements : List Tree) (result : Value),
    Keeps bound scope (sequence (eval · scope) result statements)
  | [], result => keeps_pure result
  | statement :: statements, result => by
      rw [sequence]
      split
      · exact keeps_sequence scope statements result
      · exact (he bound statement scope).bind fun value => keeps_sequence scope statements value

theorem keeps_conditional (tree : Tree) (scope : ScopeId) :
    Keeps bound scope (conditional eval tree scope) := by
  unfold conditional
  refine (keeps_child tree 0).bind fun condition => (he bound condition scope).bind fun value => ?_
  split
  · exact (keeps_child tree 1).bind fun body => he bound body scope
  · split
    · exact he bound _ scope
    · exact keeps_pure _

theorem keeps_loop (budget : Nat) (tree : Tree) (scope : ScopeId) :
    Keeps bound scope (loop eval budget tree scope) := by
  unfold loop
  refine (keeps_child tree 0).bind fun condition => (keeps_child tree 1).bind fun body => ?_
  refine keeps_iterate (fun result => ?_) budget _
  unfold turn
  refine (he bound condition scope).bind fun value => ?_
  split
  · exact keeps_pure _
  · exact (he bound body scope).bind fun _ => keeps_pure _

/-- One step of evaluation keeps names if evaluation of the trees in it does. -/
theorem keeps_step (budget : Nat) (tree : Tree) (scope : ScopeId) :
    Keeps bound scope (step eval budget tree scope) := by
  unfold step
  split
  · exact keeps_numberOf _
  · exact keeps_pure _
  · exact keeps_valueOf _ scope
  · refine (keeps_child _ 0).bind fun operand => (he bound operand scope).bind fun value => ?_
    exact keeps_ofExcept _
  · exact keeps_binary he _ scope
  · exact keeps_primary he _ scope _
  · exact keeps_sequence he scope _ _
  · exact keeps_conditional he _ scope
  · exact keeps_loop he budget _ scope
  · exact keeps_pure _
  · exact keeps_definition _ scope
  · exact keeps_fail _
  · exact keeps_fail _
  · exact keeps_fail _
  · exact keeps_fail _

end Recursor

/-- Evaluation within any budget keeps names. -/
theorem keeps_eval : ∀ (n bound : Nat) (tree : Tree) (scope : ScopeId),
    Keeps bound scope (eval n tree scope)
  | 0, _, _, _ => keeps_unfinished
  | n + 1, _, tree, scope => keeps_step (keeps_eval n) n tree scope

/-- To whatever heap an action leads, by a value or by an error, the names are kept. -/
theorem Keeps.of_leads {heap heap' : Heap} (h : Keeps bound scope x)
    (hb : bound ≤ heap.scopes.size) (hx : x.Leads heap heap') :
    heap.KeepsNames bound scope heap' := (h heap hb).of_leads hx

/-! ## What a call adds -/

section Calls

variable {budget : Nat} {caller callee : ScopeId} {parameters arguments : List Tree}
  {heap heap' : Heap} {bindings : Bindings} {f : Function} {target : Value}

/-- `ArgumentsLead budget caller bound arguments heap heap'`: the first ones of the arguments are
evaluated in the scope of the caller one after the other, and the last one of them may fail. Between
two of them the scopes below the bound stay as they are. -/
inductive ArgumentsLead (budget : Nat) (caller : ScopeId) (bound : Nat) :
    List Tree → Heap → Heap → Prop where
  /-- No argument is evaluated any more. -/
  | none {arguments : List Tree} {heap : Heap} :
      ArgumentsLead budget caller bound arguments heap heap
  /-- The last argument that is evaluated has a value or fails. -/
  | last {argument : Tree} {arguments : List Tree} {heap heap' : Heap} :
      (eval budget argument caller).Leads heap heap' →
      ArgumentsLead budget caller bound (argument :: arguments) heap heap'
  /-- After an argument there may be others. -/
  | more {argument : Tree} {arguments : List Tree} {value : Value}
      {heap middle middle' heap' : Heap} :
      (eval budget argument caller).Gives heap value middle →
      (∀ id < bound, middle'.scopes[id]? = middle.scopes[id]?) →
      ArgumentsLead budget caller bound arguments middle' heap' →
      ArgumentsLead budget caller bound (argument :: arguments) heap heap'

/-- Binding parameters ends with the first argument, or it binds the first parameter and goes on. -/
theorem leads_bindArguments_cons {evaluate : Recursor} {parameter argument : Tree}
    (h : (bindArguments evaluate caller callee (parameter :: parameters)
      (argument :: arguments)).Leads heap heap') :
    (evaluate argument caller).Leads heap heap' ∨ ∃ value name middle,
      (evaluate argument caller).Gives heap value middle ∧
        (bindArguments evaluate caller callee parameters arguments).Leads
          (middle.bind callee name value) heap' := by
  rw [bindArguments] at h
  rcases h.of_bind with hstops | ⟨value, middle, hvalue, h⟩
  · exact .inl (.inr hstops)
  · rcases h.of_bind with ⟨e, hname⟩ | ⟨name, named, hname, h⟩
    · unfold nameOf at hname
      split at hname
      · obtain ⟨journal, hname⟩ := hname
        cases hname
      · obtain ⟨journal, hname⟩ := hname
        cases hname
        exact .inl (.inl ⟨value, hvalue⟩)
    · have hnamed : named = middle := by
        unfold nameOf at hname
        split at hname
        · exact (Action.gives_pure_iff.1 hname).2
        · obtain ⟨journal, hname⟩ := hname
          cases hname
      rw [hnamed] at h
      rcases h.of_bind with ⟨e, journal, hbound⟩ | ⟨_, _, ⟨journal, hbound⟩, h⟩
      · cases hbound
      · cases hbound
        exact .inr ⟨value, name, middle, hvalue, h⟩

/-- A parameter is bound in the scope of the call, and no scope below it changes by that. -/
theorem argumentsLead_of_bindArguments (hcallee : bound ≤ callee)
    (h : (bindArguments (eval budget) caller callee parameters arguments).Leads heap heap') :
    ArgumentsLead budget caller bound arguments heap heap' := by
  induction parameters generalizing arguments heap with
  | nil =>
      rw [Action.leads_pure_iff.1 h]
      exact .none
  | cons parameter parameters ih =>
      cases arguments with
      | nil =>
          rw [Action.leads_pure_iff.1 h]
          exact .none
      | cons argument arguments =>
          rcases leads_bindArguments_cons h with hlast | ⟨value, name, middle, hvalue, hrest⟩
          · exact .last hlast
          · refine .more hvalue (fun id hid => ?_) (ih hrest)
            exact Heap.scopes_bind_of_ne (Nat.ne_of_gt (Nat.lt_of_lt_of_le hid hcallee)) name value

/-- If the caller does not reach the scope of the call, binding parameters leads where the first
ones of the arguments lead on their own, but for what the scope of the call binds. -/
theorem exists_mapM_of_bindArguments (hcallee : callee < heap.scopes.size)
    (hn : ¬ heap.Reaches caller callee)
    (h : (bindArguments (eval budget) caller callee parameters arguments).Leads
      (heap.refill callee bindings) heap') :
    ∃ first rest after bindings', arguments = first ++ rest ∧
      (first.mapM (eval budget · caller)).Leads heap after ∧
      heap' = after.refill callee bindings' := by
  induction parameters generalizing arguments heap bindings with
  | nil =>
      rw [Action.leads_pure_iff.1 h]
      exact ⟨[], arguments, heap, bindings, rfl, Action.leads_pure_iff.2 rfl, rfl⟩
  | cons parameter parameters ih =>
      cases arguments with
      | nil =>
          rw [Action.leads_pure_iff.1 h]
          exact ⟨[], [], heap, bindings, rfl, Action.leads_pure_iff.2 rfl, rfl⟩
      | cons argument arguments =>
          have hoverlooks := overlooks_eval budget argument hcallee hn
          rcases leads_bindArguments_cons h with
            (⟨value, hvalue⟩ | ⟨e, hstops⟩) | ⟨value, name, middle, hvalue, hrest⟩
          · obtain ⟨after, hown, rfl⟩ := hoverlooks.exists_gives hvalue
            exact ⟨[argument], arguments, after, bindings, rfl,
              Action.leads_mapM_cons_iff.2 (.inr ⟨value, after, hown, Action.leads_pure_iff.2 rfl⟩),
              rfl⟩
          · obtain ⟨after, hown, rfl⟩ := hoverlooks.exists_stops hstops
            exact ⟨[argument], arguments, after, bindings, rfl,
              Action.leads_mapM_cons_iff.2 (.inl ⟨e, hown⟩), rfl⟩
          · obtain ⟨after, hown, rfl⟩ := hoverlooks.exists_gives hvalue
            have hleads : (eval budget argument caller).Leads heap after := .inl ⟨value, hown⟩
            obtain ⟨other, hheaps⟩ := exists_heaps_of_leads hleads
            rw [Heap.bind_refill] at hrest
            obtain ⟨first, rest, last, bindings', rfl, hfirst, rfl⟩ :=
              ih (Nat.lt_of_lt_of_le hcallee hheaps.before_le)
                (not_reaches_of_leads hcallee hn hleads) hrest
            exact ⟨argument :: first, rest, last, bindings', rfl,
              Action.leads_mapM_cons_iff.2 (.inr ⟨value, after, hown, hfirst⟩), rfl⟩

/-- A call does nothing, or it binds the parameters of a function and then changes the names of no
scope that was there before. -/
theorem exists_arguments_of_call
    (h : (call (eval budget) arguments caller target).Leads heap heap') :
    heap' = heap ∨ ∃ f, target = .function f ∧ ∃ middle,
      (bindArguments (eval budget) caller heap.scopes.size f.parameters.children arguments).Leads
        (heap.enclose f.scope).2 middle ∧
      ∀ id < heap.scopes.size, middle.NamesKept heap' id := by
  cases target with
  | integer | text | nil =>
      obtain ⟨_, _, hfail⟩ | ⟨_, _, hfail⟩ := h
      · cases hfail
      · cases hfail
        exact .inl rfl
  | function f =>
      rw [call] at h
      split at h
      · obtain ⟨_, _, ⟨⟩⟩ | ⟨made, _, ⟨_, ⟨⟩⟩, h⟩ := h.of_bind
        refine .inr ⟨f, rfl, ?_⟩
        rcases h.of_bind with ⟨e, hs⟩ | ⟨_, middle, hg, h⟩
        · exact ⟨heap', .inr ⟨e, hs⟩, fun id _ => .refl heap' id⟩
        · have hleads : (bindArguments (eval budget) caller heap.scopes.size f.parameters.children
              arguments).Leads (heap.enclose f.scope).2 middle := .inl ⟨_, hg⟩
          have hsize : heap.scopes.size ≤ middle.scopes.size := by
            have hmade := Nat.le_of_eq (heap.size_enclose f.scope).symm
            exact Nat.le_trans (Nat.le_trans (Nat.le_succ _) hmade)
              ((keeps_bindArguments (keeps_eval budget) (Nat.le_refl _) caller _ _).of_leads
                (Nat.le_trans (Nat.le_succ _) hmade) hleads).size
          refine ⟨middle, hleads, fun id hid => ?_⟩
          have hbody := (keeps_tell (.calling f.name f.arity)).bind
            fun _ => keeps_eval budget heap.scopes.size f.body heap.scopes.size
          exact (hbody.of_leads hsize h).kept id hid (Nat.ne_of_lt hid)
      · obtain ⟨_, _, hfail⟩ | ⟨_, _, hfail⟩ := h
        · cases hfail
        · cases hfail
          exact .inl rfl

end Calls

/-- Evaluation changes the outer link of no scope, takes no name away, and binds new names in no
scope that was there before but its own. A call binds new names in no such scope at all, so neither
its parameters nor what its body binds show up there. What changes is due to its arguments, up to
the first one that fails. These are evaluated in the scope of the caller, and between them no scope
changes but the new one. If nothing leads out of the heap, the names are those that evaluating the
arguments without the call adds. -/
theorem names_confined (budget : Nat) :
    (∀ (tree : Tree) (scope : ScopeId) (heap heap' : Heap),
      (eval budget tree scope).Leads heap heap' →
      heap.NamesGrow heap' scope ∧ ∀ id, id ≠ scope → heap.NamesKept heap' id) ∧
    ∀ (target : Value) (arguments : List Tree) (scope : ScopeId) (heap heap' : Heap),
      (call (eval budget) arguments scope target).Leads heap heap' →
      heap' = heap ∨ ∃ f, target = .function f ∧
        (∃ middle, ArgumentsLead budget scope heap.scopes.size arguments
            (heap.enclose f.scope).2 middle ∧
          ∀ id < heap.scopes.size, middle.NamesKept heap' id) ∧
        (heap.Closed → scope < heap.scopes.size →
          ∃ first rest after, arguments = first ++ rest ∧
            (first.mapM (eval budget · scope)).Leads (heap.enclose f.scope).2 after ∧
            ∀ id < heap.scopes.size, after.NamesKept heap' id) := by
  refine ⟨fun tree scope heap heap' h => ?_, fun target arguments scope heap heap' h => ?_⟩
  · have hkeeps := (keeps_eval budget heap.scopes.size tree scope).of_leads (Nat.le_refl _) h
    have hthere : ∀ {id : ScopeId} {old : Scope}, heap.scopes[id]? = some old →
        id < heap.scopes.size := fun hold => (Array.getElem?_eq_some_iff.1 hold).1
    exact ⟨fun old hold => hkeeps.grow scope (hthere hold) old hold,
      fun id hne old hold => hkeeps.kept id (hthere hold) hne old hold⟩
  · refine (exists_arguments_of_call h).imp_right fun ⟨f, hf, middle, hbound, hkept⟩ =>
      ⟨f, hf, ⟨middle, argumentsLead_of_bindArguments (Nat.le_refl _) hbound, hkept⟩,
        fun hclosed hscope => ?_⟩
    have hsize : heap.scopes.size < (heap.enclose f.scope).2.scopes.size := by
      rw [Heap.size_enclose]
      exact Nat.lt_succ_self _
    obtain ⟨made, hmade⟩ : ∃ made, (heap.enclose f.scope).2.scopes[heap.scopes.size]? = some made :=
      ⟨_, Array.getElem?_eq_getElem hsize⟩
    rw [← Heap.refill_self hmade] at hbound
    obtain ⟨first, rest, after, bindings, harguments, hfirst, rfl⟩ :=
      exists_mapM_of_bindArguments hsize (hclosed.not_reaches_enclose hscope f.scope) hbound
    refine ⟨first, rest, after, harguments, hfirst, fun id hid => ?_⟩
    have hsame : after.NamesKept (after.refill heap.scopes.size bindings) id :=
      Heap.namesKept_of_eq (by rw [Heap.scopes_refill, if_neg (Nat.ne_of_gt hid)])
    exact hsame.trans (hkept id hid)

/-- The tree of `z = 1`. -/
def assigningArgument : Tree :=
  .branch .binary [.leaf .variable ⟨.word "z", 1⟩, .leaf .plain ⟨.word "=", 1⟩,
    .leaf .number ⟨.number 1, 1⟩]

/-- The tree of `f(z = 1)`. -/
def assigningCall : Tree :=
  .branch .primary [.leaf .variable ⟨.word "f", 1⟩, .branch .arguments [assigningArgument]]

/-- A program starts with one scope and no function. -/
theorem closed_initialHeap : Program.initialHeap.Closed := by
  intro id scope f hs hf
  have hglobal : Program.initialHeap.scopes[0]? = some ⟨[], none⟩ := rfl
  have hid : id = 0 := Nat.lt_one_iff.1 (Array.getElem?_eq_some_iff.1 hs).1
  rw [hid, hglobal] at hs
  cases hs
  obtain ⟨name, hmem⟩ := hf
  cases hmem

/-- A function with a parameter `x`, a local `y` and a nested definition `g`, defined and then
called. Of these names none shows up in the scope of the call, which gets `z` from the
argument. -/
theorem names_confined_nested :
    let global := Program.globalScope
    let text := "def f(x) \x7b y = x; def g() \x7b y \x7d; g() \x7d\n"
    ∃ tree stream heap heap' heap'' f,
      Language.full.statement.Gives (.ofSource (.ofText text)) tree stream ∧
      (eval 20 tree global).Leads Program.initialHeap heap ∧
      heap.Closed ∧ global < heap.scopes.size ∧ heap.get? global "f" = some (.function f) ∧
      (eval 20 assigningCall global).Leads heap heap' ∧
      (call (eval 20) [assigningArgument] global (.function f)).Leads heap heap'' ∧
      heap.names global = ["f"] ∧ heap'.names global = ["f", "z"] ∧
      heap''.names global = ["f", "z"] ∧
      (heap.NamesGrow heap' global ∧ ∀ id, id ≠ global → heap.NamesKept heap' id) ∧
      (∃ middle, ArgumentsLead 20 global heap.scopes.size [assigningArgument]
          (heap.enclose f.scope).2 middle ∧
        ∀ id < heap.scopes.size, middle.NamesKept heap'' id) ∧
      ∃ first rest after, [assigningArgument] = first ++ rest ∧
        (first.mapM (eval 20 · global)).Leads (heap.enclose f.scope).2 after ∧
        ∀ id < heap.scopes.size, after.NamesKept heap'' id := by
  intro global text
  have hnames : ((Language.full.statement (.ofSource (.ofText text))).value?.bind fun parsed =>
      (eval 20 parsed.1 global Program.initialHeap).value?.bind fun defined =>
        (defined.2.get? global "f").bind fun value => value.function?.bind fun f =>
          (eval 20 assigningCall global defined.2).value?.bind fun assigned =>
            (call (eval 20) [assigningArgument] global (.function f) defined.2).value?.map
              fun called =>
                [defined.2.names global, assigned.2.names global, called.2.names global]) =
      some [["f"], ["f", "z"], ["f", "z"]] := by decide +kernel
  obtain ⟨⟨tree, stream⟩, hparse, hnames⟩ := Option.bind_eq_some_iff.1 hnames
  obtain ⟨⟨_, heap⟩, hdefine, hnames⟩ := Option.bind_eq_some_iff.1 hnames
  obtain ⟨value, hget, hnames⟩ := Option.bind_eq_some_iff.1 hnames
  obtain ⟨f, hf, hnames⟩ := Option.bind_eq_some_iff.1 hnames
  obtain ⟨⟨_, heap'⟩, heval, hnames⟩ := Option.bind_eq_some_iff.1 hnames
  obtain ⟨⟨_, heap''⟩, hcall, hnames⟩ := Option.map_eq_some_iff.1 hnames
  rw [Value.function?_eq_some_iff.1 hf] at hget
  simp only [List.cons.injEq, and_true] at hnames
  obtain ⟨hnames, hnames', hnames''⟩ := hnames
  have hdefine : (eval 20 tree global).Leads Program.initialHeap heap :=
    .inl ⟨_, Action.gives_of_value? hdefine⟩
  obtain ⟨hclosed, hsize⟩ := closed_of_leads closed_initialHeap Nat.zero_lt_one hdefine
  have hleads : (eval 20 assigningCall global).Leads heap heap' :=
    .inl ⟨_, Action.gives_of_value? heval⟩
  have hleads' : (call (eval 20) [assigningArgument] global (.function f)).Leads heap heap'' :=
    .inl ⟨_, Action.gives_of_value? hcall⟩
  have hcalled := (names_confined 20).2 (.function f) _ _ _ _ hleads'
  refine ⟨tree, stream, heap, heap', heap'', f, Action.gives_of_value? hparse, hdefine, hclosed,
    hsize, hget, hleads, hleads', hnames, hnames', hnames'',
    (names_confined 20).1 _ _ _ _ hleads, ?_⟩
  rcases hcalled with heq | ⟨_, ⟨⟩, hstepwise, halone⟩
  · rw [heq, hnames] at hnames''
    cases hnames''
  · exact ⟨hstepwise, halone hclosed hsize⟩

end Eval

end TreeScript
