import TreeScript.Proofs.Eval.Overlooks
import TreeScript.Proofs.Heap.Nearest

/-!
# How a call goes

A call first makes its scope and then fills it, one parameter after each argument. The arguments
run in the scope of the caller. They may call the same function, assign to what it has captured or
define it anew, while its half-filled scope is already there.

Still no argument sees that scope, since no way leads there from the caller. So the scope may as
well be filled after all arguments are evaluated (`bindArguments_after`), and this is how `Proceeds`
tells what a call does. `call_protocol` is about a call as it stands in a tree, after its callee has
been evaluated.
-/

namespace TreeScript

/-! ## Bindings of parameters -/

namespace Bindings

/-- The bindings with values for names, one after the other. -/
def insertAll (bindings : Bindings) (pairs : List (String × Value)) : Bindings :=
  pairs.foldl (fun bindings pair => bindings.insert pair.1 pair.2) bindings

/-- Each name is bound to its value, and to the last one if it is there more than once. Nothing else
is bound. -/
def Pairs (bindings : Bindings) (names : List String) (values : List Value) : Prop :=
  ∀ name value, (name, value) ∈ bindings ↔ (names.zip values).reverse.lookup name = some value

theorem insertAll_cons (bindings : Bindings) (name : String) (value : Value)
    (pairs : List (String × Value)) :
    bindings.insertAll ((name, value) :: pairs) =
      (bindings.insert name value).insertAll pairs := rfl

/-- Of several values for one name the last one counts. -/
theorem get?_insertAll (name : String) (pairs : List (String × Value)) :
    ∀ bindings : Bindings, (bindings.insertAll pairs).get? name =
      (pairs.reverse.lookup name).or (bindings.get? name) := by
  induction pairs with
  | nil => exact fun _ => rfl
  | cons pair pairs ih =>
      intro bindings
      obtain ⟨bound, value⟩ := pair
      rw [insertAll_cons, ih, get?_insert, List.reverse_cons, List.lookup_append, Option.or_assoc]
      congr 1
      by_cases h : bound = name
      · subst h
        rw [List.lookup_cons_self, if_pos rfl, Option.some_or]
      · have h' : (name == bound) = false := beq_false_of_ne fun heq => h heq.symm
        rw [List.lookup_cons, h', if_neg h]
        rfl

theorem Ascending.insertAll (pairs : List (String × Value)) :
    ∀ {bindings : Bindings}, bindings.Ascending → (bindings.insertAll pairs).Ascending := by
  induction pairs with
  | nil => exact fun h => h
  | cons pair pairs ih => exact fun h => ih h.insert

/-- What is inserted in an empty scope are the pairs of names and values. -/
theorem pairs_insertAll (names : List String) (values : List Value) :
    Pairs (insertAll [] (names.zip values)) names values := by
  intro name value
  have hascending : (insertAll [] (names.zip values)).Ascending := .insertAll _ .nil
  rw [← hascending.get?_eq_some_iff, get?_insertAll]
  simp [get?]

end Bindings

namespace Eval

variable {heap heap' : Heap} {budget : Nat} {tree : Tree}

/-! ## Arguments -/

variable {caller callee scope : ScopeId} {f : Function} {arguments : List Tree}
variable {names : List String}

/-- Binding parameters goes on from arguments that have been evaluated, as if their values had been
bound in the scope of the call afterwards. -/
theorem bindArguments_after {first : List Tree} (rest : List Tree) :
    ∀ {parameters : List Tree} {names : List String} {heap middle : Heap} {values : List Value}
      (bindings : Bindings), callee < heap.scopes.size → ¬ heap.Reaches caller callee →
      parameters.map Tree.name? = names.map some → first.length ≤ parameters.length →
      (first.mapM (eval budget · caller)).Gives heap values middle →
      callee < middle.scopes.size ∧ ¬ middle.Reaches caller callee ∧
      middle.scopes[callee]? = heap.scopes[callee]? ∧
      ∃ journal, bindArguments (eval budget) caller callee parameters (first ++ rest)
          (heap.refill callee bindings) =
        (bindArguments (eval budget) caller callee (parameters.drop first.length) rest
          (middle.refill callee (bindings.insertAll (names.zip values)))).after journal := by
  induction first with
  | nil =>
      intro parameters names heap middle values bindings hcallee hn _ _ hvalues
      rw [List.mapM_nil] at hvalues
      obtain ⟨hvalues, hmiddle⟩ := Action.gives_pure_iff.1 hvalues
      subst hvalues hmiddle
      refine ⟨hcallee, hn, rfl, [], ?_⟩
      rw [List.zip_nil_right, Outcome.after_nil]
      rfl
  | cons argument first ih =>
      intro parameters names heap middle values bindings hcallee hn hnames hlength hvalues
      obtain ⟨value, heap₁, values', hvalue, hvalues', hcons⟩ :=
        Action.gives_mapM_cons_iff.1 hvalues
      subst hcons
      cases parameters with
      | nil => exact absurd hlength (Nat.not_succ_le_zero _)
      | cons parameter parameters =>
          cases names with
          | nil => cases hnames
          | cons name names =>
              obtain ⟨hname, hnames⟩ := List.cons_eq_cons.1 hnames
              have hoverlooks := overlooks_eval budget argument hcallee hn
              have hleads : (eval budget argument caller).Leads heap heap₁ := .inl ⟨value, hvalue⟩
              have hkept := hoverlooks.kept heap₁ hleads
              have hcallee₁ : callee < heap₁.scopes.size := by
                obtain ⟨other', hheaps⟩ := exists_heaps_of_leads hleads
                exact Nat.lt_of_lt_of_le hcallee hheaps.before_le
              have hn₁ := not_reaches_of_leads hcallee hn hleads
              obtain ⟨hcallee', hn', hkept', journal', hrest⟩ :=
                ih (bindings.insert name value) hcallee₁ hn₁ hnames (Nat.le_of_succ_le_succ hlength)
                  hvalues'
              obtain ⟨journal, hrun⟩ := hoverlooks.gives bindings value heap₁ hvalue
              refine ⟨hcallee', hn', hkept'.trans hkept, journal ++ journal', ?_⟩
              rw [List.cons_append, bindArguments, Action.bind_of_value _ hrun, nameOf, hname]
              show (bindArguments (eval budget) caller callee parameters (first ++ rest)
                ((heap₁.refill callee bindings).bind callee name value)).after journal = _
              rw [Heap.bind_refill, hrest, Outcome.after_after]
              rfl

/-! ## Calls -/

/-- What a call to a function does from a heap, told as if the scope of the call were filled after
the arguments are evaluated. The scope of the call is the next one. -/
inductive Proceeds (budget : Nat) (scope : ScopeId) (f : Function) (names : List String)
    (arguments : List Tree) (heap : Heap) (outcome : Outcome Heap EvalError Value) : Prop where
  /-- All arguments have values, and the body is evaluated in the scope of the call. -/
  | entered {values : List Value} {after : Heap} {bindings : Bindings} {journal : List Event}
      (hvalues : (arguments.mapM (eval budget · scope)).Gives (heap.enclose f.scope).2 values after)
      (hbindings : bindings.Pairs names values)
      (hscope : (after.refill heap.scopes.size bindings).scopes[heap.scopes.size]? =
        some ⟨bindings, some f.scope⟩)
      (houtcome : outcome = (eval budget f.body heap.scopes.size
        (after.refill heap.scopes.size bindings)).after journal) :
      Proceeds budget scope f names arguments heap outcome
  /-- An argument fails after all those before it have had values. -/
  | failed {first rest : List Tree} {argument : Tree} {values : List Value} {middle after : Heap}
      {error : EvalError} {bindings : Bindings} {journal : List Event}
      (harguments : arguments = first ++ argument :: rest)
      (hvalues : (first.mapM (eval budget · scope)).Gives (heap.enclose f.scope).2 values middle)
      (hfails : (eval budget argument scope).Stops middle error after)
      (hbindings : bindings.Pairs names values)
      (houtcome : outcome = .error error (after.refill heap.scopes.size bindings) journal) :
      Proceeds budget scope f names arguments heap outcome
  /-- An argument does not end after all those before it have had values. -/
  | unfinished {first rest : List Tree} {argument : Tree} {values : List Value} {middle : Heap}
      (harguments : arguments = first ++ argument :: rest)
      (hvalues : (first.mapM (eval budget · scope)).Gives (heap.enclose f.scope).2 values middle)
      (hends : ¬ (eval budget argument scope).Ends middle)
      (houtcome : outcome = .unfinished) :
      Proceeds budget scope f names arguments heap outcome

/-- What happened before a call does not matter to it. -/
theorem Proceeds.after {outcome : Outcome Heap EvalError Value}
    (h : Proceeds budget scope f names arguments heap outcome) (journal : List Event) :
    Proceeds budget scope f names arguments heap (outcome.after journal) := by
  cases h with
  | entered hvalues hbindings hscope houtcome =>
      subst houtcome
      exact .entered hvalues hbindings hscope (Outcome.after_after _ _ _)
  | failed harguments hvalues hfails hbindings houtcome =>
      subst houtcome
      exact .failed harguments hvalues hfails hbindings rfl
  | unfinished harguments hvalues hends houtcome =>
      subst houtcome
      exact .unfinished harguments hvalues hends rfl

section Matching

variable (hclosed : heap.Closed) (hscope : scope < heap.scopes.size)
  (hcaptured : f.scope < heap.scopes.size)
  (hnames : f.parameters.children.map Tree.name? = names.map some)
  (hcount : arguments.length = f.arity)
include hclosed hscope hcaptured hnames hcount

/-- Where a call is when its first arguments have had values. -/
theorem call_after {first rest : List Tree} {values : List Value} {middle : Heap}
    (harguments : arguments = first ++ rest)
    (hvalues : (first.mapM (eval budget · scope)).Gives (heap.enclose f.scope).2 values middle) :
    heap.scopes.size < middle.scopes.size ∧ ¬ middle.Reaches scope heap.scopes.size ∧
    middle.scopes[heap.scopes.size]? = some ⟨[], some f.scope⟩ ∧
    ∃ bindings journal, bindings.Pairs names values ∧
      call (eval budget) arguments scope (.function f) heap =
        ((bindArguments (eval budget) scope heap.scopes.size
            (f.parameters.children.drop first.length) rest >>= fun _ => do
          Action.tell (.calling f.name f.arity)
          eval budget f.body heap.scopes.size)
          (middle.refill heap.scopes.size bindings)).after journal := by
  have hmade : (heap.enclose f.scope).2.scopes[heap.scopes.size]? = some ⟨[], some f.scope⟩ := by
    rw [Heap.scopes_enclose hcaptured, Array.getElem?_push, if_pos rfl]
  have hsize : heap.scopes.size < (heap.enclose f.scope).2.scopes.size := by
    rw [Heap.size_enclose]
    exact Nat.lt_succ_self _
  have hlength : first.length ≤ f.parameters.children.length := by
    rw [harguments, List.length_append] at hcount
    exact Nat.le_trans (Nat.le_add_right _ _) (Nat.le_of_eq hcount)
  obtain ⟨hlt, hn, hkept, journal, hrun⟩ := bindArguments_after rest [] hsize
    (hclosed.not_reaches_enclose hscope f.scope) hnames hlength hvalues
  have hempty : (heap.enclose f.scope).2.refill heap.scopes.size [] = (heap.enclose f.scope).2 :=
    Heap.refill_self hmade
  rw [hempty, ← harguments] at hrun
  refine ⟨hlt, hn, hkept.trans hmade, _, journal, Bindings.pairs_insertAll names values, ?_⟩
  rw [call, if_pos hcount]
  exact Action.bind_of_after hrun _

/-- A call with as many arguments as there are parameters. -/
theorem proceeds_call : Proceeds budget scope f names arguments heap
    (call (eval budget) arguments scope (.function f) heap) := by
  cases Action.mapM_cases (eval budget · scope) arguments (heap.enclose f.scope).2 with
  | inl hall =>
      obtain ⟨values, after, hvalues⟩ := hall
      obtain ⟨hlt, hn, hfresh, bindings, journal, hbindings, hrun⟩ :=
        call_after hclosed hscope hcaptured hnames hcount (List.append_nil _).symm hvalues
      have hdrop : f.parameters.children.drop arguments.length = [] :=
        List.drop_eq_nil_of_le (Nat.le_of_eq hcount.symm)
      rw [hdrop] at hrun
      apply Proceeds.entered hvalues hbindings
      · rw [Heap.scopes_refill, if_pos rfl, hfresh, Option.map_some]
      · rw [hrun]
        exact Outcome.after_after journal [.calling f.name f.arity] _
  | inr hfirst =>
      obtain ⟨first, argument, rest, values, middle, harguments, hvalues, hlast⟩ := hfirst
      obtain ⟨hlt, hn, -, bindings, journal, hbindings, hrun⟩ :=
        call_after hclosed hscope hcaptured hnames hcount harguments hvalues
      have hoverlooks := overlooks_eval budget argument hlt hn
      obtain ⟨parameter, parameters, hdrop⟩ : ∃ parameter parameters,
          f.parameters.children.drop first.length = parameter :: parameters := by
        apply List.exists_cons_of_length_pos
        rw [List.length_drop]
        rw [harguments, List.length_append, List.length_cons] at hcount
        have harity : f.parameters.children.length = f.arity := rfl
        omega
      rw [hdrop, bindArguments] at hrun
      cases hlast with
      | inl hstops =>
          obtain ⟨error, after, hstops⟩ := hstops
          obtain ⟨journal', herror⟩ := hoverlooks.stops bindings error after hstops
          apply Proceeds.failed harguments hvalues hstops hbindings
          rw [hrun, Action.bind_of_error _ (Action.bind_of_error _ herror)]
          rfl
      | inr hends =>
          have hends' : ¬ (eval budget argument scope).Ends
              (middle.refill heap.scopes.size bindings) :=
            fun h => hends ((hoverlooks.ends_iff bindings).1 h)
          have hunfinished := Classical.not_not.1 hends'
          apply Proceeds.unfinished harguments hvalues hends
          rw [hrun, Action.bind_of_unfinished _ (Action.bind_of_unfinished _ hunfinished)]
          rfl

end Matching

/-- A call goes on where its callee has left off. -/
theorem primary_succ_of_gives {evaluate : Recursor} {k : Nat} {target : Value}
    (harguments : tree.children[k + 1]? = some (.branch .arguments arguments))
    (htarget : (primary evaluate tree scope k).Gives heap target heap') :
    ∃ journal, primary evaluate tree scope (k + 1) heap =
      (call evaluate arguments scope target heap').after journal := by
  obtain ⟨journal, hrun⟩ := htarget
  refine ⟨journal, ?_⟩
  rw [primary, Action.bind_of_value _ hrun, child, Tree.child, harguments]
  rfl

/-- Where the callee of a call has given no function, the call fails, and so it does if the function
has another number of parameters than there are arguments. It does so in the heap that the callee
has left, whatever arguments are evaluated to. Otherwise a scope is made inside the one that the
function has captured. All arguments are evaluated in the caller's scope from left to right, and
none reads or changes the new scope. If one fails the call fails with it, and else the body is
evaluated in the new scope, which then binds each parameter to the value of its argument and nothing
else. -/
theorem call_protocol {k : Nat} {target : Value} (hclosed : heap.Closed)
    (hscope : scope < heap.scopes.size)
    (harguments : tree.children[k + 1]? = some (.branch .arguments arguments))
    (htarget : (primary (eval budget) tree scope k).Gives heap target heap') :
    ((∀ f, target ≠ .function f) →
      (primary (eval budget) tree scope (k + 1)).Stops heap (.badFunction target.printed) heap' ∧
      ∀ evaluate, call evaluate arguments scope target heap' =
        .error (.badFunction target.printed) heap' []) ∧
    ∀ f, target = .function f →
      (arguments.length ≠ f.arity →
        (primary (eval budget) tree scope (k + 1)).Stops heap
          (.badArgumentCount f.arity arguments.length) heap' ∧
        ∀ evaluate, call evaluate arguments scope target heap' =
          .error (.badArgumentCount f.arity arguments.length) heap' []) ∧
      ∀ names : List String, f.parameters.children.map Tree.name? = names.map some →
        arguments.length = f.arity →
        (heap'.enclose f.scope).2.scopes = heap'.scopes.push ⟨[], some f.scope⟩ ∧
        (∀ first argument rest values middle, arguments = first ++ argument :: rest →
          (first.mapM (eval budget · scope)).Gives (heap'.enclose f.scope).2 values middle →
          middle.scopes[heap'.scopes.size]? = some ⟨[], some f.scope⟩ ∧
            Overlooks middle heap'.scopes.size (eval budget argument scope)) ∧
        Proceeds budget scope f names arguments heap'
          (primary (eval budget) tree scope (k + 1) heap) := by
  obtain ⟨journal, hrun⟩ := primary_succ_of_gives harguments htarget
  obtain ⟨hclosed', hle, hcaptured⟩ := closed_of_primary hclosed hscope htarget
  have hscope' : scope < heap'.scopes.size := Nat.lt_of_lt_of_le hscope hle
  constructor
  · intro hnot
    have hcall : ∀ evaluate, call evaluate arguments scope target heap' =
        .error (.badFunction target.printed) heap' [] := by
      intro evaluate
      cases target with
      | function f => exact absurd rfl (hnot f)
      | integer | text | nil => rfl
    rw [hcall] at hrun
    exact ⟨⟨_, hrun⟩, hcall⟩
  · intro f hf
    subst hf
    constructor
    · intro hcount
      have hcall : ∀ evaluate, call evaluate arguments scope (.function f) heap' =
          .error (.badArgumentCount f.arity arguments.length) heap' [] := by
        intro evaluate
        rw [call, if_neg hcount]
        rfl
      rw [hcall] at hrun
      exact ⟨⟨_, hrun⟩, hcall⟩
    · intro names hnames hcount
      have hcaptured := hcaptured f rfl
      refine ⟨Heap.scopes_enclose hcaptured, ?_, ?_⟩
      · intro first argument rest values middle hsplit hvalues
        obtain ⟨hlt, hn, hfresh, -⟩ :=
          call_after hclosed' hscope' hcaptured hnames hcount hsplit hvalues
        exact ⟨hfresh, overlooks_eval budget argument hlt hn⟩
      · rw [hrun]
        exact (proceeds_call hclosed' hscope' hcaptured hnames hcount).after journal

/-- A function of three parameters, of which two have one name. -/
def pickLast : Function :=
  let parameter (text : String) : Tree := .leaf .plain ⟨.word text, 1⟩
  ⟨0, "f", .branch .parameters [parameter "a", parameter "b", parameter "a"],
    .branch .block [.leaf .variable ⟨.word "a", 1⟩], 0⟩

/-- The heap with one scope that binds `f` to the function. -/
def pickHeap : Heap :=
  { Heap.empty.makeScope.2.bind 0 "f" (.function pickLast) with functions := 1 }

/-- The tree of `f(..)`. -/
def pickCall (arguments : List Tree) : Tree :=
  .branch .primary [.leaf .variable ⟨.word "f", 1⟩, .branch .arguments arguments]

/-- The tree of `a = 1`. -/
def pickFirst : Tree :=
  .branch .binary [.leaf .variable ⟨.word "a", 1⟩, .leaf .plain ⟨.word "=", 1⟩,
    .leaf .number ⟨.number 1, 1⟩]

/-- The tree of `f(4, 5, 6)`. -/
def pickSecond : Tree :=
  let number (n : Int64) : Tree := .leaf .number ⟨.number n, 1⟩
  pickCall [number 4, number 5, number 6]

theorem closed_pickHeap : pickHeap.Closed := by
  intro id scope f hs hf
  have hscope : pickHeap.scopes[0]? = some ⟨[("f", .function pickLast)], none⟩ := rfl
  have hid : id = 0 := Nat.lt_one_iff.1 (Array.getElem?_eq_some_iff.1 hs).1
  rw [hid, hscope] at hs
  cases hs
  obtain ⟨name, hmem⟩ := hf
  cases List.mem_singleton.1 hmem
  exact Nat.zero_lt_one

theorem gives_valueOf {heap : Heap} {scope : ScopeId} {name : String} {value : Value}
    (h : heap.get? scope name = some value) : (valueOf name scope).Gives heap value heap := by
  have hview : Action.Gives (ε := EvalError) (Action.view fun heap => heap.get? scope name) heap
      (some value) heap := ⟨[], by rw [← h]; rfl⟩
  exact hview.bind (Action.gives_pure value)

theorem gives_pickLast (arguments : List Tree) :
    (primary (eval 20) (pickCall arguments) 0 0).Gives pickHeap (.function pickLast) pickHeap := by
  have hscope : pickHeap.scopes[0]? = some ⟨[("f", .function pickLast)], none⟩ := rfl
  have hget : pickHeap.get? 0 "f" = some (.function pickLast) := by
    rw [Heap.get?_of_some hscope]
    rfl
  have hchild : (child (pickCall arguments) 0).Gives pickHeap (.leaf .variable ⟨.word "f", 1⟩)
      pickHeap := ⟨[], rfl⟩
  exact hchild.bind (gives_valueOf hget)

/-- In `f(a = 1, f(4, 5, 6), a)` the first argument binds a name in the caller's scope that is also
that of a parameter, the second one calls the same function, and the third one finds the name in the
caller's scope. The function gives what its last parameter of that name was bound to. -/
theorem call_protocol_pickLast :
    let arguments := [pickFirst, pickSecond, .leaf .variable ⟨.word "a", 1⟩]
    let called := primary (eval 20) (pickCall arguments) 0 1
    pickHeap.Closed ∧
      (primary (eval 20) (pickCall []) 0 1).Stops pickHeap (.badArgumentCount 3 0) pickHeap ∧
      Proceeds 20 0 pickLast ["a", "b", "a"] arguments pickHeap (called pickHeap) ∧
      (∃ values middle,
        ([pickFirst].mapM (eval 20 · 0)).Gives (pickHeap.enclose 0).2 values middle ∧
          Overlooks middle 1 (eval 20 pickSecond 0)) ∧
      ∃ value heap', called.Gives pickHeap value heap' ∧ value.printed = "1" := by
  intro arguments called
  have hscope : 0 < pickHeap.scopes.size := by decide
  obtain ⟨-, hnone⟩ := call_protocol closed_pickHeap hscope rfl (gives_pickLast [])
  obtain ⟨-, hall⟩ := call_protocol closed_pickHeap hscope rfl (gives_pickLast arguments)
  obtain ⟨-, hoverlooks, hproceeds⟩ := (hall pickLast rfl).2 ["a", "b", "a"] rfl rfl
  have hfirst : (([pickFirst].mapM (eval 20 · 0) (pickHeap.enclose 0).2).value?.map
      fun result => result.1.length) = some 1 := by decide +kernel
  obtain ⟨⟨values, middle⟩, hvalue, -⟩ := Option.map_eq_some_iff.1 hfirst
  have hvalues := Action.gives_of_value? hvalue
  have hrun : ((called pickHeap).value?.map fun result => result.1.printed) = some "1" := by
    decide +kernel
  obtain ⟨⟨result, heap'⟩, hcalled, hprinted⟩ := Option.map_eq_some_iff.1 hrun
  refine ⟨closed_pickHeap, ((hnone pickLast rfl).1 (by decide)).1, hproceeds, ?_, ?_⟩
  · exact ⟨values, middle, hvalues, (hoverlooks [pickFirst] _ _ values middle rfl hvalues).2⟩
  · exact ⟨result, heap', Action.gives_of_value? hcalled, hprinted⟩

end Eval

end TreeScript
