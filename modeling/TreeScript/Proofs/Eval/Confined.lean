import TreeScript.Proofs.Eval.Alike
import TreeScript.Proofs.Heap

/-!
# Evaluation is confined to what it can reach

From a scope others are reached through outer links and through the scopes that stored functions
have captured. An evaluation changes no other scope that was there before, and no function that it
gives or leaves behind in a scope it can reach has captured one. Nor does it depend on one: in two
heaps that agree on what can be reached, it ends in the same way and the heaps agree again
(`eval_confined`).

Functions are numbered in the order they are made. If the two heaps have seen different numbers of
functions, those made by the evaluation differ in their numbers and in nothing else, so the heaps
agree up to `renumber`.
-/

namespace TreeScript

/-! ## What can be reached -/

/-- The scope binds some name to the function. -/
def Scope.Stores (scope : Scope) (f : Function) : Prop :=
  ∃ name, (name, Value.function f) ∈ scope.bindings

namespace Heap

/-- The scopes that can be reached from one of them. -/
inductive Reaches (heap : Heap) (start : ScopeId) : ScopeId → Prop where
  /-- The scope itself. -/
  | start : Reaches heap start start
  /-- The scope that one stands in. -/
  | outer {id outer : ScopeId} {scope : Scope} (h : Reaches heap start id)
      (hs : heap.scopes[id]? = some scope) (ho : scope.outer = some outer) :
      Reaches heap start outer
  /-- The scope that a stored function has captured. -/
  | captured {id : ScopeId} {scope : Scope} {f : Function} (h : Reaches heap start id)
      (hs : heap.scopes[id]? = some scope) (hf : scope.Stores f) :
      Reaches heap start f.scope

/-- The scope could be reached before or was made since. -/
def Within (heap : Heap) (start : ScopeId) (heap' : Heap) (id : ScopeId) : Prop :=
  heap.Reaches start id ∨ heap.scopes.size ≤ id ∧ id < heap'.scopes.size

/-- The heaps have the same scopes and agree on those that can be reached. If they have seen
different numbers of functions, the functions that can be reached are among both. -/
structure AgreesFrom (heap : Heap) (start : ScopeId) (other : Heap) : Prop where
  size_eq : other.scopes.size = heap.scopes.size
  scopes_eq : ∀ id, heap.Reaches start id → other.scopes[id]? = heap.scopes[id]?
  numbered : heap.functions ≠ other.functions → ∀ id scope f, heap.Reaches start id →
    heap.scopes[id]? = some scope → scope.Stores f → f.id < heap.functions ∧ f.id < other.functions

variable {heap other : Heap} {start id : ScopeId}

theorem AgreesFrom.refl (heap : Heap) (start : ScopeId) : heap.AgreesFrom start heap :=
  ⟨rfl, fun _ _ => rfl, fun h => absurd rfl h⟩

/-- Heaps that agree on what can be reached reach the same. -/
theorem AgreesFrom.reaches_iff (h : heap.AgreesFrom start other) :
    other.Reaches start id ↔ heap.Reaches start id := by
  constructor
  · intro hr
    induction hr with
    | start => exact .start
    | outer _ hs ho ih =>
        rw [h.scopes_eq _ ih] at hs
        exact .outer ih hs ho
    | captured _ hs hf ih =>
        rw [h.scopes_eq _ ih] at hs
        exact .captured ih hs hf
  · intro hr
    induction hr with
    | start => exact .start
    | outer hr hs ho ih =>
        rw [← h.scopes_eq _ hr] at hs
        exact .outer ih hs ho
    | captured hr hs hf ih =>
        rw [← h.scopes_eq _ hr] at hs
        exact .captured ih hs hf

theorem AgreesFrom.symm (h : heap.AgreesFrom start other) : other.AgreesFrom start heap where
  size_eq := h.size_eq.symm
  scopes_eq id hr := (h.scopes_eq id (h.reaches_iff.1 hr)).symm
  numbered hne id scope f hr hs hf := by
    have hr := h.reaches_iff.1 hr
    rw [h.scopes_eq id hr] at hs
    exact (h.numbered hne.symm id scope f hr hs hf).symm

end Heap

/-! ## Numbers of functions -/

/-- The number in a heap with `made'` functions of a function that has this number in one with
`made` functions. Those made since are counted on. -/
def renumber (made made' number : Nat) : Nat :=
  if number < made then number else number - made + made'

/-- The value with another number if it is a function. -/
def Value.renumbered (g : Nat → Nat) : Value → Value
  | .function f => .function { f with id := g f.id }
  | value => value

/-- The scope with other numbers for the functions in it. -/
def Scope.renumbered (g : Nat → Nat) (scope : Scope) : Scope :=
  { scope with bindings := scope.bindings.map fun binding => (binding.1, binding.2.renumbered g) }

/-- Without a difference between the heaps nothing is renumbered. -/
theorem renumber_self (made : Nat) : renumber made made = id := by
  funext number
  unfold renumber
  split
  · rfl
  · exact Nat.sub_add_cancel (Nat.le_of_not_lt ‹_›)

/-! ## Two evaluations that reach the same -/

namespace Likeness

/-- Only what can be reached counts. New functions are numbered on from what the heaps have seen. -/
def confined (start : ScopeId) (heap other : Heap) : Likeness where
  Trees := Eq
  Numbers m m' := m' = renumber heap.functions other.functions m ∧
    (m < heap.functions → heap.functions = other.functions ∨ m < other.functions)
  Counts m m' := heap.functions ≤ m ∧ m' = m - heap.functions + other.functions
  Fixed _ := False
  Shared := heap.Reaches start
  before := heap
  before' := other
  trees_match := Tree.matches_of_eq
  numbers_eq_iff := by
    rintro m _ n _ ⟨rfl, hm⟩ ⟨rfl, hn⟩
    unfold renumber
    split <;> split <;> omega
  numbers_of_counts := by
    rintro m _ ⟨hle, rfl⟩
    unfold renumber
    split <;> omega
  counts_succ := by
    rintro m _ ⟨hle, rfl⟩
    omega
  not_fixed_of_counts _ := id

variable {heap other heap' other' : Heap} {start : ScopeId} {n : Nat}

/-- Heaps that agree on what can be reached are tied. -/
theorem heaps_confined (h : heap.AgreesFrom start other) :
    (confined start heap other).Heaps heap other where
  size_eq := h.size_eq
  before_le := Nat.le_refl _
  counts := ⟨Nat.le_refl _, by omega⟩
  outside _ _ _ := ⟨rfl, rfl⟩
  scopes id hid := by
    have hr : heap.Reaches start id := by
      rcases hid with hr | ⟨hle, hlt⟩
      · exact hr
      · exact absurd hlt (Nat.not_lt_of_le hle)
    rw [h.scopes_eq id hr]
    cases hs : heap.scopes[id]? with
    | none => exact .none
    | some scope =>
        refine .some ⟨List.forall₂_same.2 fun binding hmem => ⟨rfl, ?_⟩, rfl, fun outer ho => ?_⟩
        · obtain ⟨name, value⟩ := binding
          cases value with
          | integer k => exact .integer k
          | text s => exact .text s
          | nil => exact .nil
          | function f =>
              have hf : scope.Stores f := ⟨name, hmem⟩
              refine .function ⟨?_, rfl, rfl, rfl, rfl, nofun⟩ (.inl (.captured hr hs hf))
              have hnumbered := fun hne => h.numbered hne id scope f hr hs hf
              show f.id = renumber _ _ f.id ∧ _
              unfold renumber
              split <;> omega
        · exact .inl (.outer hr hs ho)

/-- Alike functions are equal but for their numbers. -/
theorem Functions.eq_of_confined {f f' : Function}
    (h : (confined start heap other).Functions f f') :
    f' = { f with id := renumber heap.functions other.functions f.id } := by
  obtain ⟨⟨hid, -⟩, hname, hparameters, hbody, hscope, -⟩ := h
  cases f'
  cases hname
  cases hparameters
  cases hbody
  cases hscope
  cases hid
  rfl

/-- Alike values are equal but for the numbers of functions. -/
theorem Values.eq_of_confined {v v' : Value} (h : (confined start heap other).Values n v v') :
    v' = v.renumbered (renumber heap.functions other.functions) := by
  cases h with
  | function hf _ => rw [Functions.eq_of_confined hf, Value.renumbered]
  | _ => rfl

/-- Alike scopes are equal but for the numbers of functions. -/
theorem Scopes.eq_of_confined {scope scope' : Scope}
    (h : (confined start heap other).Scopes n scope scope') :
    scope' = scope.renumbered (renumber heap.functions other.functions) := by
  obtain ⟨bindings, outer⟩ := scope
  obtain ⟨bindings', outer'⟩ := scope'
  obtain ⟨hbindings, houter, -⟩ := h
  simp only at hbindings houter
  rw [Scope.renumbered, houter]
  congr 1
  induction hbindings with
  | nil => rfl
  | @cons binding binding' rest rest' hb _ ih =>
      rw [List.map_cons, ← ih, ← hb.2.eq_of_confined, ← hb.1]

end Likeness

/-- The heaps have the same scopes and agree up to numbers on those that could be reached before or
were made since. -/
def Heap.AgreesWithin (heap : Heap) (start : ScopeId) (g : Nat → Nat) (heap' other' : Heap) :
    Prop :=
  other'.scopes.size = heap'.scopes.size ∧ ∀ id, heap.Within start heap' id →
    other'.scopes[id]? = heap'.scopes[id]?.map (·.renumbered g)

namespace Eval

open Likeness

variable {heap other heap' other' : Heap} {start : ScopeId}

/-- Heaps that are alike have the same scopes within reach, up to the numbers of functions. -/
theorem agreesWithin_of_heaps (h : (confined start heap other).Heaps heap' other') :
    heap.AgreesWithin start (renumber heap.functions other.functions) heap' other' := by
  refine ⟨h.size_eq, fun id hid => ?_⟩
  rcases h.scope_cases hid with ⟨hs, hs'⟩ | ⟨scope, scope', hs, hs', hscope⟩
  · rw [hs, hs', Option.map_none]
  · rw [hs, hs', Option.map_some, hscope.eq_of_confined]

/-- A function in a scope that counts has captured one that counts. -/
theorem within_of_stores {id : ScopeId} {scope : Scope} {f : Function}
    (h : (confined start heap heap).Heaps heap' other') (hid : heap.Within start heap' id)
    (hs : heap'.scopes[id]? = some scope) (hf : scope.Stores f) :
    heap.Within start heap' f.scope := by
  rcases h.scope_cases hid with ⟨hn, -⟩ | ⟨found, found', hfound, -, hscope⟩
  · rw [hs] at hn
    cases hn
  · rw [hs] at hfound
    cases hfound
    obtain ⟨name, hmem⟩ := hf
    obtain ⟨⟨name', value'⟩, -, -, hv⟩ := exists_of_forall₂ hscope.bindings hmem
    cases hv with
    | function _ hvisible => exact hvisible

section

variable {budget : Nat} {tree : Tree}

/-- In heaps that agree on what can be reached, what gives a value in one does so in the other. -/
theorem exists_gives_of_agrees {value : Value} (h : heap.AgreesFrom start other)
    (hg : (eval budget tree start).Gives heap value heap') :
    ∃ value' other', (eval budget tree start).Gives other value' other' ∧
      (confined start heap other).Heaps heap' other' ∧
      (confined start heap other).Values heap'.scopes.size value value' := by
  have halike := alike_eval (L := confined start heap other) (Nat.le_refl budget) 0 tree tree start
    rfl (.inl .start)
  obtain ⟨value', other', hg', ⟨hheaps, -⟩, hv⟩ :=
    halike.of_gives ⟨heaps_confined h, Nat.zero_le _⟩ hg
  exact ⟨value', other', hg', hheaps, hv⟩

/-- What stops with an error in one stops with it in the other. -/
theorem exists_stops_of_agrees {error : EvalError} (h : heap.AgreesFrom start other)
    (hs : (eval budget tree start).Stops heap error heap') :
    ∃ other', (eval budget tree start).Stops other error other' ∧
      (confined start heap other).Heaps heap' other' := by
  have halike := alike_eval (L := confined start heap other) (Nat.le_refl budget) 0 tree tree start
    rfl (.inl .start)
  obtain ⟨error', other', hs', rfl, hheaps, -⟩ :=
    halike.of_stops ⟨heaps_confined h, Nat.zero_le _⟩ hs
  exact ⟨other', hs', hheaps⟩

/-- Whether an evaluation ends does not depend on scopes out of reach. -/
theorem ends_of_agrees (h : heap.AgreesFrom start other) (he : (eval budget tree start).Ends heap) :
    (eval budget tree start).Ends other := by
  rcases he.gives_or_stops with ⟨value, heap', hg⟩ | ⟨error, heap', hs⟩
  · obtain ⟨value', other', hg', -⟩ := exists_gives_of_agrees h hg
    exact hg'.ends
  · obtain ⟨other', hs', -⟩ := exists_stops_of_agrees h hs
    exact hs'.ends

/-- A heap agrees with itself, so what is tied after an evaluation says what it can have done. -/
theorem exists_heaps_of_leads (h : (eval budget tree start).Leads heap heap') :
    ∃ other', (confined start heap heap).Heaps heap' other' := by
  rcases h with ⟨value, hg⟩ | ⟨error, hs⟩
  · obtain ⟨_, other', -, hheaps, -⟩ := exists_gives_of_agrees (.refl heap start) hg
    exact ⟨other', hheaps⟩
  · obtain ⟨other', -, hheaps⟩ := exists_stops_of_agrees (.refl heap start) hs
    exact ⟨other', hheaps⟩

end

/-- An evaluation leaves alone every scope that was there and cannot be reached from its own. The
functions that it gives or that are stored where it can reach have captured a scope that could be
reached or was made since. In heaps that agree on what can be reached it gives the same value or the
same error, up to the numbers of new functions, or ends in neither, and the heaps agree again on
what could be reached and on all that was made since. -/
theorem eval_confined (budget : Nat) (tree : Tree) (scope : ScopeId) (heap : Heap) :
    (∀ heap', (eval budget tree scope).Leads heap heap' →
      (∀ id < heap.scopes.size, ¬ heap.Reaches scope id →
        heap'.scopes[id]? = heap.scopes[id]?) ∧
      ∀ id found f, heap.Within scope heap' id → heap'.scopes[id]? = some found → found.Stores f →
        heap.Within scope heap' f.scope) ∧
    (∀ f heap', (eval budget tree scope).Gives heap (.function f) heap' →
      heap.Within scope heap' f.scope) ∧
    ∀ other, heap.AgreesFrom scope other →
      let g := renumber heap.functions other.functions
      (heap.functions = other.functions → g = id) ∧
      (∀ value heap', (eval budget tree scope).Gives heap value heap' →
        ∃ other', (eval budget tree scope).Gives other (value.renumbered g) other' ∧
          heap.AgreesWithin scope g heap' other') ∧
      (∀ error heap', (eval budget tree scope).Stops heap error heap' →
        ∃ other', (eval budget tree scope).Stops other error other' ∧
          heap.AgreesWithin scope g heap' other') ∧
      ((eval budget tree scope).Ends other ↔ (eval budget tree scope).Ends heap) := by
  refine ⟨fun heap' hleads => ?_, fun f heap' hg => ?_, fun other h => ⟨?_, ?_, ?_, ?_⟩⟩
  · obtain ⟨other', hheaps⟩ := exists_heaps_of_leads hleads
    exact ⟨fun id hlt hid => (hheaps.outside id hlt hid).1,
      fun id found f hid hs hf => within_of_stores hheaps hid hs hf⟩
  · obtain ⟨_, _, -, -, hv⟩ := exists_gives_of_agrees (.refl heap scope) hg
    cases hv with
    | function _ hvisible => exact hvisible
  · intro hmade
    rw [← hmade, renumber_self]
  · intro value heap' hg
    obtain ⟨value', other', hg', hheaps, hv⟩ := exists_gives_of_agrees h hg
    exact ⟨other', hv.eq_of_confined ▸ hg', agreesWithin_of_heaps hheaps⟩
  · intro error heap' hs
    obtain ⟨other', hs', hheaps⟩ := exists_stops_of_agrees h hs
    exact ⟨other', hs', agreesWithin_of_heaps hheaps⟩
  · exact ⟨ends_of_agrees h.symm, ends_of_agrees h⟩

/-- The tree of a block that defines `def f(n) { def g() { n } g }` and assigns `h = f(3)`. -/
def closureBlock : Tree :=
  let name (text : String) : Tree := .leaf .variable ⟨.word text, 1⟩
  let inner : Tree := .branch .definition
    [.leaf .plain ⟨.word "g", 1⟩, .branch .parameters [], .branch .block [name "n"]]
  .branch .block
    [.branch .definition [.leaf .plain ⟨.word "f", 1⟩,
      .branch .parameters [.leaf .plain ⟨.word "n", 1⟩], .branch .block [inner, name "g"]],
    .branch .binary [name "h", .leaf .plain ⟨.word "=", 1⟩,
      .branch .primary [name "f", .branch .arguments [.leaf .number ⟨.number 3, 1⟩]]]]

/-- The heap with an empty scope and beside it one that binds `n`. -/
def besideScope (value : Value) : Heap := Heap.empty.makeScope.2.makeScope.2.bind 1 "n" value

/-- From the empty scope the other one cannot be reached. A function that is made and stored leaves
it alone and captures the scope of the call, whatever the other scope binds and however many
functions there were. The name that the other scope binds is not found. -/
theorem eval_confined_closure :
    let heap := besideScope (.integer 7)
    let other := { besideScope (.integer 8) with functions := 5 }
    let hidden : Tree := .leaf .variable ⟨.word "n", 1⟩
    ¬ heap.Reaches 0 1 ∧ heap.AgreesFrom 0 other ∧
      (∃ f stored heap' found, (eval 10 closureBlock 0).Gives heap (.function f) heap' ∧
        heap'.scopes[1]? = heap.scopes[1]? ∧ f.scope = 2 ∧ heap.Within 0 heap' f.scope ∧
        heap'.scopes[0]? = some found ∧ found.Stores stored ∧ stored.scope = 2 ∧
        heap.Within 0 heap' stored.scope ∧
        ∃ other', (eval 10 closureBlock 0).Gives other (.function { f with id := 6 }) other' ∧
          heap.AgreesWithin 0 (renumber 0 5) heap' other') ∧
      ∃ heap' other', (eval 10 hidden 0).Stops heap (.undefinedName "n") heap' ∧
        (eval 10 hidden 0).Stops other (.undefinedName "n") other' ∧
        heap.AgreesWithin 0 (renumber 0 5) heap' other' := by
  intro heap other hidden
  have hglobal : heap.scopes[0]? = some ⟨[], none⟩ := rfl
  have hreach : ∀ id, heap.Reaches 0 id → id = 0 := by
    intro id hr
    induction hr with
    | start => rfl
    | outer _ hs ho ih =>
        rw [ih, hglobal] at hs
        cases hs
        cases ho
    | captured _ hs hf ih =>
        rw [ih, hglobal] at hs
        cases hs
        obtain ⟨name, hmem⟩ := hf
        cases hmem
  have hagrees : heap.AgreesFrom 0 other := by
    refine ⟨rfl, fun id hr => ?_, fun _ id scope f hr hs hf => ?_⟩
    · rw [hreach id hr]
      rfl
    · rw [hreach id hr, hglobal] at hs
      cases hs
      obtain ⟨name, hmem⟩ := hf
      cases hmem
  have hunreached : ¬ heap.Reaches 0 1 := fun hr => absurd (hreach 1 hr) (by decide)
  refine ⟨hunreached, hagrees, ?_, ?_⟩
  · obtain ⟨hleads, hgives, hagree⟩ := eval_confined 10 closureBlock 0 heap
    have hrun : ((eval 10 closureBlock 0 heap).value?.bind fun block =>
        block.1.function?.bind fun f => block.2.scopes[0]?.bind fun found =>
          (found.bindings.get? "h").bind fun value => value.function?.map fun stored =>
            (f.id, f.scope, stored.scope)) = some (1, 2, 2) := by decide +kernel
    obtain ⟨⟨result, heap'⟩, heval, hrun⟩ := Option.bind_eq_some_iff.1 hrun
    obtain ⟨f, hf, hrun⟩ := Option.bind_eq_some_iff.1 hrun
    obtain ⟨found, hs, hrun⟩ := Option.bind_eq_some_iff.1 hrun
    obtain ⟨value, hget, hrun⟩ := Option.bind_eq_some_iff.1 hrun
    obtain ⟨stored, hvalue, hrun⟩ := Option.map_eq_some_iff.1 hrun
    have hresult : result = .function f := Value.function?_eq_some_iff.1 hf
    rw [hresult] at heval
    rw [Value.function?_eq_some_iff.1 hvalue] at hget
    simp only [Prod.mk.injEq] at hrun
    obtain ⟨hid, hscope, hscope'⟩ := hrun
    have hg : (eval 10 closureBlock 0).Gives heap (.function f) heap' :=
      Action.gives_of_value? heval
    have hf : found.Stores stored := ⟨"h", Bindings.mem_of_get? hget⟩
    obtain ⟨hkept, hstored⟩ := hleads heap' (.inl ⟨_, hg⟩)
    obtain ⟨other', hg', hwithin⟩ := (hagree other hagrees).2.1 _ heap' hg
    rw [Value.renumbered, hid] at hg'
    exact ⟨f, stored, heap', found, hg, hkept 1 (by decide) hunreached, hscope,
      hgives f heap' hg, hs, hf, hscope', hstored 0 found stored (.inl .start) hs hf,
      other', hg', hwithin⟩
  · have hrun : ((eval 10 hidden 0 heap).error?.map Prod.fst) = some (.undefinedName "n") := by
      decide +kernel
    obtain ⟨⟨error, heap'⟩, herror, rfl⟩ := Option.map_eq_some_iff.1 hrun
    have hs := Action.stops_of_error? herror
    obtain ⟨other', hs', hwithin⟩ :=
      ((eval_confined 10 hidden 0 heap).2.2 other hagrees).2.2.1 _ _ hs
    exact ⟨heap', other', hs, hs', hwithin⟩

end Eval

end TreeScript
