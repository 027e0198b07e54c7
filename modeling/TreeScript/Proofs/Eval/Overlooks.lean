import TreeScript.Proofs.Eval.Confined

/-!
# Scopes that an evaluation does not see

In a heap that is `Closed` no stored function has captured a scope that is not there, and an
evaluation leaves such a heap behind. So no way leads to a scope that has just been made, and as
long as nobody is given its number none does: a scope that cannot be reached before an evaluation
cannot be reached after it (`not_reaches_of_leads`).

What cannot be reached is overlooked (`overlooks_eval`). The evaluation does the same whatever that
scope binds, down to the numbers of new functions, and leaves it as it is.
-/

namespace TreeScript

namespace Heap

/-! ## Other bindings in one scope -/

/-- The heap with other bindings in one scope. -/
def refill (heap : Heap) (id : ScopeId) (bindings : Bindings) : Heap :=
  { scopes := heap.scopes.modify id fun scope => { scope with bindings := bindings }
    functions := heap.functions
    outer_lt := outer_lt_modify heap.outer_lt id fun _ => bindings }

variable {heap heap' : Heap} {id other : ScopeId} {bindings : Bindings} {scope : Scope}

/-- A heap is its scopes and its functions. -/
theorem eq_of_scopes (hs : ∀ id : ScopeId, heap.scopes[id]? = heap'.scopes[id]?)
    (hf : heap.functions = heap'.functions) : heap = heap' := by
  obtain ⟨scopes, functions, hlt⟩ := heap
  obtain ⟨scopes', functions', hlt'⟩ := heap'
  have hscopes : scopes = scopes' := Array.ext_getElem? hs
  have hfunctions : functions = functions' := hf
  subst hscopes hfunctions
  rfl

theorem scopes_refill (heap : Heap) (id : ScopeId) (bindings : Bindings) (other : ScopeId) :
    (heap.refill id bindings).scopes[other]? = if id = other then
      heap.scopes[other]?.map fun scope => { scope with bindings := bindings }
      else heap.scopes[other]? := Array.getElem?_modify

theorem size_refill (heap : Heap) (id : ScopeId) (bindings : Bindings) :
    (heap.refill id bindings).scopes.size = heap.scopes.size := Array.size_modify

/-- Filling a scope with what it binds changes nothing. -/
theorem refill_self (h : heap.scopes[id]? = some scope) : heap.refill id scope.bindings = heap := by
  refine eq_of_scopes (fun other => ?_) rfl
  rw [scopes_refill]
  split
  next hid =>
    subst hid
    rw [h, Option.map_some]
  next => rfl

/-- To bind a name in a scope that is filled again is to fill it with one more name. -/
theorem bind_refill (heap : Heap) (id : ScopeId) (bindings : Bindings) (name : String)
    (value : Value) : (heap.refill id bindings).bind id name value =
      heap.refill id (bindings.insert name value) := by
  refine eq_of_scopes (fun other => ?_) rfl
  rw [bind, Array.getElem?_modify, scopes_refill, scopes_refill]
  split
  next => rw [Option.map_map]; rfl
  next => rfl

/-! ## Heaps that nothing leads out of -/

/-- Every stored function has captured a scope that is there. -/
def Closed (heap : Heap) : Prop :=
  ∀ (id : ScopeId) (scope : Scope) (f : Function), heap.scopes[id]? = some scope →
    scope.Stores f → f.scope < heap.scopes.size

/-- Whatever is reached from a scope of a closed heap is a scope of that heap. -/
theorem Closed.lt_of_reaches {start : ScopeId} (h : heap.Closed)
    (hstart : start < heap.scopes.size) (hr : heap.Reaches start id) : id < heap.scopes.size := by
  induction hr with
  | start => exact hstart
  | outer _ hs ho ih => exact Nat.lt_trans (heap.outer_lt _ _ _ hs ho) ih
  | captured _ hs hf _ => exact h _ _ _ hs hf

/-- The scope of a call stands in the scope that the function has captured. -/
theorem scopes_enclose (h : other < heap.scopes.size) :
    (heap.enclose other).2.scopes = heap.scopes.push ⟨[], some other⟩ := by
  show heap.scopes.push ⟨[], if other < heap.scopes.size then some other else none⟩ = _
  rw [if_pos h]

/-- No way leads to a scope that has just been made. -/
theorem Closed.not_reaches_enclose {start : ScopeId} (h : heap.Closed)
    (hstart : start < heap.scopes.size) (outer : ScopeId) :
    ¬ (heap.enclose outer).2.Reaches start heap.scopes.size := by
  have hlt : ∀ id, (heap.enclose outer).2.Reaches start id → id < heap.scopes.size := by
    intro id hr
    induction hr with
    | start => exact hstart
    | outer _ hs ho ih =>
        rw [scopes_enclose_of_lt ih] at hs
        exact Nat.lt_trans (heap.outer_lt _ _ _ hs ho) ih
    | captured _ hs hf ih =>
        rw [scopes_enclose_of_lt ih] at hs
        exact h _ _ _ hs hf
  exact fun hr => Nat.lt_irrefl _ (hlt _ hr)

end Heap

/-! ## Numbers that stay -/

theorem Value.renumbered_id (value : Value) : value.renumbered id = value := by
  cases value <;> rfl

theorem Scope.renumbered_id (scope : Scope) : scope.renumbered id = scope := by
  simp [Scope.renumbered, Value.renumbered_id]

namespace Eval

open Likeness

variable {heap heap' other' : Heap} {start id : ScopeId} {budget : Nat} {tree : Tree}

/-! ## What is reached after an evaluation -/

/-- After an evaluation, what is reached was within reach before or is new. -/
theorem within_of_reaches (h : (confined start heap heap).Heaps heap' other')
    (hr : heap'.Reaches start id) : heap.Within start heap' id := by
  induction hr with
  | start => exact .inl .start
  | @outer id outer scope _ hs ho ih =>
      rcases h.scope_cases ih with ⟨hn, -⟩ | ⟨found, found', hfound, -, hscope⟩
      · rw [hs] at hn
        cases hn
      · rw [hs] at hfound
        cases hfound
        exact hscope.outer_visible outer ho
  | captured _ hs hf ih => exact within_of_stores h ih hs hf

/-- A scope that is there and is not reached is not reached after an evaluation. -/
theorem not_reaches_of_leads (hid : id < heap.scopes.size) (hn : ¬ heap.Reaches start id)
    (h : (eval budget tree start).Leads heap heap') : ¬ heap'.Reaches start id := by
  intro hr
  obtain ⟨other', hheaps⟩ := exists_heaps_of_leads h
  cases within_of_reaches hheaps hr with
  | inl hreached => exact hn hreached
  | inr hmade => exact absurd hid (Nat.not_lt_of_le hmade.1)

/-- An evaluation leaves a closed heap closed. -/
theorem closed_of_heaps (hclosed : heap.Closed) (hstart : start < heap.scopes.size)
    (h : (confined start heap heap).Heaps heap' other') : heap'.Closed := by
  have hwithin : ∀ {id : ScopeId}, heap.Within start heap' id → id < heap'.scopes.size := by
    intro id hid
    cases hid with
    | inl hr => exact Nat.lt_of_lt_of_le (hclosed.lt_of_reaches hstart hr) h.before_le
    | inr hmade => exact hmade.2
  intro id scope f hs hf
  by_cases hid : heap.Within start heap' id
  · exact hwithin (within_of_stores h hid hs hf)
  · have hnot : ¬ heap.Reaches start id := fun hr => hid (.inl hr)
    have hlt : id < heap.scopes.size := by
      have hlt' : id < heap'.scopes.size := (Array.getElem?_eq_some_iff.1 hs).1
      exact Nat.lt_of_not_le fun hle => hid (.inr ⟨hle, hlt'⟩)
    rw [(h.outside id hlt hnot).1] at hs
    exact Nat.lt_of_lt_of_le (hclosed id scope f hs hf) h.before_le

/-- An evaluation leaves a closed heap behind, which has at least as many scopes. -/
theorem closed_of_leads (hclosed : heap.Closed) (hstart : start < heap.scopes.size)
    (h : (eval budget tree start).Leads heap heap') :
    heap'.Closed ∧ heap.scopes.size ≤ heap'.scopes.size := by
  obtain ⟨other', hheaps⟩ := exists_heaps_of_leads h
  exact ⟨closed_of_heaps hclosed hstart hheaps, hheaps.before_le⟩

/-- What the callee of a call leaves behind: a heap that is closed again, and a value that has
captured a scope of it if it is a function. -/
theorem closed_of_primary {value : Value} {k : Nat} (hclosed : heap.Closed)
    (hstart : start < heap.scopes.size)
    (h : (primary (eval budget) tree start k).Gives heap value heap') :
    heap'.Closed ∧ heap.scopes.size ≤ heap'.scopes.size ∧
      ∀ f, value = .function f → f.scope < heap'.scopes.size := by
  have htree : (confined start heap heap).Trees tree tree := rfl
  have halike := alike_primary (n := 0) (alike_eval (Nat.le_refl budget)) htree (.inl .start) k
  obtain ⟨value', other', -, ⟨hheaps, -⟩, hv⟩ :=
    halike.of_gives ⟨heaps_confined (.refl heap start), Nat.zero_le _⟩ h
  refine ⟨closed_of_heaps hclosed hstart hheaps, hheaps.before_le, ?_⟩
  intro f hf
  subst hf
  cases hv with
  | function _ hvisible =>
      cases hvisible with
      | inl hr => exact Nat.lt_of_lt_of_le (hclosed.lt_of_reaches hstart hr) hheaps.before_le
      | inr hmade => exact hmade.2

/-! ## Scopes that an evaluation does not see -/

/-- From the heap, the action neither reads nor changes the scope: it leaves the scope as it is, and
it does the same whatever the scope binds. -/
structure Overlooks {α : Type} (heap : Heap) (id : ScopeId) (x : Evaluator α) : Prop where
  kept : ∀ heap', x.Leads heap heap' → heap'.scopes[id]? = heap.scopes[id]?
  gives : ∀ bindings a heap', x.Gives heap a heap' →
    x.Gives (heap.refill id bindings) a (heap'.refill id bindings)
  stops : ∀ bindings e heap', x.Stops heap e heap' →
    x.Stops (heap.refill id bindings) e (heap'.refill id bindings)
  ends_iff : ∀ bindings, x.Ends (heap.refill id bindings) ↔ x.Ends heap

section

variable {α : Type} {x : Evaluator α} {bindings : Bindings}

/-- A value that is given with other bindings in the scope is given with its own ones. -/
theorem Overlooks.exists_gives (h : Overlooks heap id x) {a : α}
    (hx : x.Gives (heap.refill id bindings) a other') :
    ∃ heap', x.Gives heap a heap' ∧ other' = heap'.refill id bindings := by
  rcases ((h.ends_iff bindings).1 hx.ends).gives_or_stops with ⟨b, heap', hg⟩ | ⟨e, heap', hs⟩
  · obtain ⟨rfl, rfl⟩ := hx.unique (h.gives bindings b heap' hg)
    exact ⟨heap', hg, rfl⟩
  · exact absurd (h.stops bindings e heap' hs) hx.not_stops

/-- An error that comes up with other bindings in the scope comes up with its own ones. -/
theorem Overlooks.exists_stops (h : Overlooks heap id x) {e : EvalError}
    (hx : x.Stops (heap.refill id bindings) e other') :
    ∃ heap', x.Stops heap e heap' ∧ other' = heap'.refill id bindings := by
  rcases ((h.ends_iff bindings).1 hx.ends).gives_or_stops with ⟨b, heap', hg⟩ | ⟨e', heap', hs⟩
  · exact absurd hx (h.gives bindings b heap' hg).not_stops
  · obtain ⟨rfl, rfl⟩ := hx.unique (h.stops bindings e' heap' hs)
    exact ⟨heap', hs, rfl⟩

end

/-- What is bound in a scope out of reach does not matter. -/
theorem agreesFrom_refill (hn : ¬ heap.Reaches start id) (bindings : Bindings) :
    heap.AgreesFrom start (heap.refill id bindings) where
  size_eq := heap.size_refill id bindings
  scopes_eq other hr := by
    have hne : id ≠ other := fun heq => hn (heq ▸ hr)
    rw [heap.scopes_refill, if_neg hne]
  numbered hne := absurd rfl hne

/-- Heaps that differ in a scope that is not reached still differ in that scope alone. -/
theorem eq_refill_of_heaps {hidden : ScopeId} {bindings : Bindings}
    (hid : hidden < heap.scopes.size) (hn : ¬ heap.Reaches start hidden)
    (h : (confined start heap (heap.refill hidden bindings)).Heaps heap' other') :
    other' = heap'.refill hidden bindings := by
  have hnumbers : renumber heap.functions (heap.refill hidden bindings).functions = id :=
    renumber_self heap.functions
  have hwithin := agreesWithin_of_heaps h
  rw [hnumbers] at hwithin
  refine Heap.eq_of_scopes (fun other => ?_) ?_
  · rw [heap'.scopes_refill]
    by_cases hother : heap.Within start heap' other
    · have hne : hidden ≠ other := by
        intro heq
        subst heq
        cases hother with
        | inl hr => exact hn hr
        | inr hmade => exact absurd hid (Nat.not_lt_of_le hmade.1)
      rw [if_neg hne, hwithin.2 other hother]
      cases heap'.scopes[other]? with
      | none => rfl
      | some scope => rw [Option.map_some, scope.renumbered_id]
    · have hnot : ¬ heap.Reaches start other := fun hr => hother (.inl hr)
      by_cases hlt : other < heap.scopes.size
      · obtain ⟨hs, hs'⟩ := h.outside other hlt hnot
        rw [hs, hs']
        exact heap.scopes_refill hidden bindings other
      · have hle : heap'.scopes.size ≤ other :=
          Nat.le_of_not_lt fun hlt' => hother (.inr ⟨Nat.le_of_not_lt hlt, hlt'⟩)
        have hnone : heap'.scopes[other]? = none := Array.getElem?_eq_none hle
        have hnone' : other'.scopes[other]? = none :=
          Array.getElem?_eq_none (hwithin.1 ▸ hle)
        rw [hnone, hnone', Option.map_none, ite_self]
  · obtain ⟨hle, hcount⟩ := h.counts
    have hcount : other'.functions = heap'.functions - heap.functions + heap.functions := hcount
    rw [hcount, Nat.sub_add_cancel hle]
    rfl

/-- An evaluation overlooks each scope that it does not reach. -/
theorem overlooks_eval (budget : Nat) (tree : Tree) (hid : id < heap.scopes.size)
    (hn : ¬ heap.Reaches start id) : Overlooks heap id (eval budget tree start) where
  kept heap' h := by
    obtain ⟨other', hheaps⟩ := exists_heaps_of_leads h
    exact (hheaps.outside id hid hn).1
  gives bindings value heap' h := by
    obtain ⟨value', other', hg, hheaps, hv⟩ :=
      exists_gives_of_agrees (agreesFrom_refill hn bindings) h
    have hvalue : value' = value := by
      rw [hv.eq_of_confined]
      show value.renumbered (renumber heap.functions heap.functions) = value
      rw [renumber_self, value.renumbered_id]
    rw [← eq_refill_of_heaps hid hn hheaps, ← hvalue]
    exact hg
  stops bindings e heap' h := by
    obtain ⟨other', hs, hheaps⟩ := exists_stops_of_agrees (agreesFrom_refill hn bindings) h
    rw [← eq_refill_of_heaps hid hn hheaps]
    exact hs
  ends_iff bindings :=
    ⟨ends_of_agrees (agreesFrom_refill hn bindings).symm,
      ends_of_agrees (agreesFrom_refill hn bindings)⟩

end Eval

end TreeScript
