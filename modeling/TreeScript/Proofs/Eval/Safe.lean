import TreeScript.Eval
import TreeScript.Proofs.Action
import TreeScript.Proofs.Heap
import TreeScript.Proofs.Language.Opening
import TreeScript.Proofs.Language.Shape

/-!
# Evaluation meets no internal error

Some errors of evaluation are about the tree and not about the program: a kind that has no
value, a missing child, an unknown operator. They do not come up as long as trees have the
shapes that parsing gives them and the functions in the heap were made from such trees.

`Proper` says of a value what keeps this going: it is not `nil`, and a function comes from a
definition in a known tree. An evaluation is `Safe` if it keeps every value in the heap proper,
and meets no internal error. Each part of the evaluator is safe if evaluation of the trees in
it is, so evaluation within any budget is safe (`safe_eval`).
-/

namespace TreeScript

/-- The errors that no program should meet. -/
def EvalError.Internal : EvalError → Prop
  | .badOperator _ => True
  | .cannotEval _ => True
  | .malformed _ => True
  | _ => False

namespace Eval

open TreeScript.Tree

/-! ## Values and functions -/

/-- A function that was made from a definition in a known tree. -/
structure Built (Known : Tree → Prop) (function : Function) : Prop where
  /-- Its parameters and its body stand in a definition. -/
  known : ∃ token, Known
    (.branch .definition [.leaf .plain token, function.parameters, function.body])
  /-- Its parameters are names. -/
  parameters : IsParameters function.parameters
  /-- Its body is a block. -/
  body : IsBlock function.body

/-- A value that a name may have. -/
def Proper (Known : Tree → Prop) : Value → Prop
  | .integer _ => True
  | .text _ => True
  | .function function => Built Known function
  | .nil => False

/-- Every value in the heap is proper. -/
abbrev ProperHeap (Known : Tree → Prop) (heap : Heap) : Prop := heap.Holds (Proper Known)

/-- Known trees have known children. -/
def ClosedDown (Known : Tree → Prop) : Prop :=
  ∀ kind children child, Known (.branch kind children) → child ∈ children → Known child

/-! ## Safe steps -/

variable {Known : Tree → Prop} {α β : Type}

/-- From a proper heap, a value meets `Q`, an error is not internal, and the heap stays
proper. -/
def Safe (Known : Tree → Prop) (Q : α → Prop) (x : Evaluator α) : Prop :=
  ∀ heap, ProperHeap Known heap → x.Ensures heap (fun a heap' => Q a ∧ ProperHeap Known heap')
    fun e heap' => ¬ e.Internal ∧ ProperHeap Known heap'

variable {Q : α → Prop} {Q' : β → Prop} {x : Evaluator α}

theorem safe_pure {a : α} (h : Q a) : Safe Known Q (pure a) := fun _ hp => ⟨h, hp⟩

theorem safe_fail {e : EvalError} (h : ¬ e.Internal) : Safe Known Q (Action.fail e) :=
  fun _ hp => ⟨h, hp⟩

theorem safe_unfinished : Safe Known Q (Action.unfinished : Evaluator α) := fun _ _ => trivial

/-- What follows may use what is known of the value. -/
theorem Safe.bind {f : α → Evaluator β} (h : Safe Known Q x)
    (hf : ∀ a, Q a → Safe Known Q' (f a)) : Safe Known Q' (x >>= f) := by
  intro heap hp
  rw [Action.ensures_bind]
  exact (h heap hp).mono (fun a heap' ha => hf a ha.1 heap' ha.2) (fun _ _ he => he)

theorem Safe.mono {R : α → Prop} (h : Safe Known Q x) (hr : ∀ a, Q a → R a) : Safe Known R x :=
  fun heap hp => (h heap hp).mono (fun a _ ha => ⟨hr a ha.1, ha.2⟩) (fun _ _ he => he)

/-- The value of a computation is proper, or its error is not internal. -/
def SafeResult (Known : Tree → Prop) : Except EvalError Value → Prop
  | .ok value => Proper Known value
  | .error e => ¬ e.Internal

theorem safe_ofExcept {result : Except EvalError Value} (h : SafeResult Known result) :
    Safe Known (Proper Known) (Action.ofExcept result) := by
  cases result with
  | ok value => exact safe_pure h
  | error e => exact safe_fail h

theorem safe_tell (event : Event) :
    Safe Known (fun _ => True) (Action.tell event : Evaluator Unit) :=
  fun _ hp => ⟨trivial, hp⟩

/-- An update of the heap is safe if it leaves a proper heap proper. -/
theorem safe_update {f : Heap → Heap}
    (h : ∀ heap, ProperHeap Known heap → ProperHeap Known (f heap)) :
    Safe Known (fun _ => True) (Action.update f : Evaluator Unit) :=
  fun heap hp => ⟨trivial, h heap hp⟩

theorem safe_transition {f : Heap → α × Heap}
    (h : ∀ heap, ProperHeap Known heap → Q (f heap).1 ∧ ProperHeap Known (f heap).2) :
    Safe Known Q (Action.transition f : Evaluator α) := fun heap hp => h heap hp

/-- A repetition is safe if each turn is. -/
theorem safe_iterate {body : β → Evaluator (β ⊕ α)}
    (h : ∀ b, Q' b → Safe Known (fun result => result.elim Q' Q) (body b)) (n : Nat) {b : β}
    (hb : Q' b) : Safe Known Q (Action.iterate body n b) := by
  intro heap hp
  refine Action.ensures_iterate (fun b heap => Q' b ∧ ProperHeap Known heap) ?_ n b heap ⟨hb, hp⟩
  rintro b heap ⟨hb, hp⟩
  refine (h b hb heap hp).mono ?_ (fun _ _ he => he)
  rintro result heap' ⟨hr, hp'⟩
  cases result with
  | inl b' => exact ⟨hr, hp'⟩
  | inr a => exact ⟨hr, hp'⟩

/-- Trees that have a value, with the trees they come from. -/
def Valued (Known : Tree → Prop) (tree : Tree) : Prop :=
  Known tree ∧ (IsStatement tree ∨ IsBlock tree)

/-- The trees in a tree are evaluated safely. -/
def SafeRecursor (Known : Tree → Prop) (eval : Recursor) : Prop :=
  ∀ tree scope, Valued Known tree → Safe Known (Proper Known) (eval tree scope)

/-- A part that is there is given without a fault. -/
theorem child_eq {tree part : Tree} {index : Nat} (h : tree.children[index]? = some part) :
    child tree index = pure part := by
  simp only [child, Tree.child, h]
  rfl

theorem primary_zero_eq {eval : Recursor} {tree operand : Tree} {scope : ScopeId}
    (h : tree.children[0]? = some operand) : primary eval tree scope 0 = eval operand scope := by
  rw [primary, child_eq h, pure_bind]

theorem primary_succ_eq {eval : Recursor} {tree following : Tree} {scope : ScopeId} {k : Nat}
    (h : tree.children[k + 1]? = some following) :
    primary eval tree scope (k + 1) =
      (do applyPostfix eval following scope (← primary eval tree scope k)) := by
  simp only [primary, child_eq h, pure_bind]

/-- A leaf with a name has one to give. -/
theorem nameOf_eq {token : Token} (h : token.isName = true) :
    ∃ name, nameOf (.leaf .plain token) = pure name := by
  obtain ⟨kind, line⟩ := token
  cases kind with
  | word text => exact ⟨text, rfl⟩
  | number value => cases h
  | string value => cases h
  | endOfLine => cases h
  | endOfFile => cases h

/-! ## Operators -/

/-- To negate what is no integer is an error of the script. -/
theorem safeResult_negate (value : Value) : SafeResult Known (negate value) := by
  cases value with
  | integer n => trivial
  | text s => exact id
  | function f => exact id
  | nil => exact id

/-- The operators of the table but assignment. -/
def computing : List String := ["==", ">", "<", "+", "-", "*", "/", "%"]

/-- All operators but the assignment compute. -/
theorem mem_computing {text : String} {precedence : Grammar.Precedence}
    (h : Language.operators.get? text = some precedence) (hne : text ≠ "=") :
    text ∈ computing := by
  obtain ⟨before, after, hrows, -⟩ := List.lookup_eq_some_iff.1 h
  have hmem : (text, precedence) ∈ Language.operators.rows := by
    rw [hrows]
    simp
  have hall : ∀ row ∈ Language.operators.rows, row.1 ≠ "=" → row.1 ∈ computing := by decide
  exact hall _ hmem hne

/-- Division by zero is an error of the script. -/
theorem safeResult_divide {right result : Int64} :
    SafeResult Known
      (if right = 0 then .error .divisionByZero else .ok (.integer result)) := by
  split
  · exact id
  · trivial

theorem safeResult_integerOperator {operator : String} (h : operator ∈ computing)
    (left right : Int64) : SafeResult Known (integerOperator operator left right) := by
  simp only [computing, List.mem_cons, List.not_mem_nil, or_false] at h
  rcases h with rfl | rfl | rfl | rfl | rfl | rfl | rfl | rfl
  · trivial
  · trivial
  · trivial
  · trivial
  · trivial
  · trivial
  · exact safeResult_divide
  · exact safeResult_divide

/-- Operators that compute know all values that a script can have. -/
theorem safeResult_applyOperator {operator : String} (h : operator ∈ computing)
    (left right : Value) : SafeResult Known (applyOperator operator left right) := by
  unfold applyOperator
  split
  · exact safeResult_integerOperator h _ _
  · split
    · trivial
    · split
      · trivial
      · exact id

/-- To assign to what is no name is an error of the script. -/
theorem safe_assign {target : Tree} {value : Value} (h : Proper Known value) (scope : ScopeId) :
    Safe Known (Proper Known) (assign target value scope) := by
  unfold assign
  split
  · exact (safe_update fun heap hp => hp.assign h scope _).bind fun _ _ => safe_pure h
  · exact safe_fail id

section Recursor

variable {eval : Recursor} (he : SafeRecursor Known eval) (hd : ClosedDown Known)
include he

/-- An expression is a statement, so the recursor is safe for it. -/
theorem safe_expression {tree : Tree} (hk : Known tree) (h : IsExpression tree) (scope : ScopeId) :
    Safe Known (Proper Known) (eval tree scope) := he tree scope ⟨hk, .inl (.expression h)⟩

/-- Parameters are names and arguments are expressions, so binding them meets no fault. -/
theorem safe_bindArguments (caller callee : ScopeId) :
    ∀ {parameters arguments : List Tree}, (∀ parameter ∈ parameters, IsParameter parameter) →
      (∀ argument ∈ arguments, Known argument ∧ IsExpression argument) →
      Safe Known (fun _ => True) (bindArguments eval caller callee parameters arguments)
  | [], _, _, _ => safe_pure trivial
  | _ :: _, [], _, _ => safe_pure trivial
  | parameter :: parameters, argument :: arguments, hp, ha => by
      obtain ⟨hk, hargument⟩ := ha argument List.mem_cons_self
      have hname : ∃ name, nameOf parameter = pure name := by
        cases hp parameter List.mem_cons_self with
        | name hname => exact nameOf_eq hname
      obtain ⟨name, hname⟩ := hname
      rw [bindArguments]
      refine (safe_expression he hk hargument caller).bind fun value hv => ?_
      rw [hname, pure_bind]
      refine (safe_update fun heap hh => hh.bind hv callee name).bind fun _ _ => ?_
      exact safe_bindArguments caller callee (fun p hmem => hp p (List.mem_cons_of_mem _ hmem))
        fun a hmem => ha a (List.mem_cons_of_mem _ hmem)

include hd

/-- The operator of an operation is one of the language. -/
theorem safe_binary {left right : Tree} {token : Token} {precedence : Grammar.Precedence}
    (hk : Known (.branch .binary [left, .leaf .plain token, right])) (hl : IsExpression left)
    (ho : Language.operators.ofToken? token = some precedence) (hr : IsExpression right)
    (scope : ScopeId) :
    Safe Known (Proper Known)
      (binary eval (.branch .binary [left, .leaf .plain token, right]) scope) := by
  obtain ⟨text, hword, hget⟩ := Derivation.isWord_of_ofToken? ho
  have hname : nameOf (.leaf .plain token) = pure text := by
    obtain ⟨kind, line⟩ := token
    obtain rfl : kind = .word text := hword
    rfl
  have hleft := safe_expression he (hd _ _ left hk (by simp)) hl scope
  have hright := safe_expression he (hd _ _ right hk (by simp)) hr scope
  unfold binary
  rw [child_eq rfl, child_eq rfl, child_eq rfl, pure_bind, pure_bind, hname, pure_bind, pure_bind]
  split
  · exact hright.bind fun value hv => safe_assign hv scope
  · next hne =>
      exact hleft.bind fun l _ => hright.bind fun r _ =>
        safe_ofExcept (safeResult_applyOperator (mem_computing hget hne) l r)

/-! ## Calls -/

/-- To call what is no function is an error of the script, and the body of a proper function is
known. -/
theorem safe_call {arguments : List Tree}
    (ha : ∀ argument ∈ arguments, Known argument ∧ IsExpression argument) (scope : ScopeId)
    {callee : Value} (hc : Proper Known callee) :
    Safe Known (Proper Known) (call eval arguments scope callee) := by
  cases callee with
  | integer n => exact safe_fail id
  | text s => exact safe_fail id
  | nil => exact safe_fail id
  | function f =>
      obtain ⟨⟨token, hknown⟩, hparameters, hbody⟩ := hc
      have hnames : ∀ parameter ∈ f.parameters.children, IsParameter parameter := by
        cases hf : f.parameters with
        | leaf kind token => simp [children]
        | branch kind children =>
            rw [hf] at hparameters
            cases hparameters with
            | parameters hnames => exact hnames
      rw [call]
      split
      · refine (safe_transition (Q := fun _ => True) fun heap hh =>
          ⟨trivial, hh.enclose f.scope⟩).bind fun id _ => ?_
        refine (safe_bindArguments he scope id hnames ha).bind fun _ _ => ?_
        refine (safe_tell _).bind fun _ _ => ?_
        exact he f.body id ⟨hd _ _ f.body hknown (by simp), .inr hbody⟩
      · exact safe_fail id

/-- An operand with any number of its calls. -/
theorem safe_primary {target : Tree} {calls : List (List Tree)}
    (hk : Known (.branch .primary (target :: calls.map (.branch .arguments))))
    (ht : IsExpression target)
    (ha : ∀ arguments ∈ calls, ∀ argument ∈ arguments, IsExpression argument) (scope : ScopeId) :
    ∀ k ≤ calls.length, Safe Known (Proper Known)
      (primary eval (.branch .primary (target :: calls.map (.branch .arguments))) scope k)
  | 0, _ => by
      rw [primary_zero_eq rfl]
      exact safe_expression he (hd _ _ target hk (by simp)) ht scope
  | k + 1, hle => by
      have hchild :
          (Tree.branch .primary (target :: calls.map (.branch .arguments))).children[k + 1]? =
          some (.branch .arguments calls[k]) := by
        simp [children]
      have hmem : calls[k] ∈ calls := List.getElem_mem _
      have hknown : Known (.branch .arguments calls[k]) :=
        hd _ _ _ hk (List.mem_cons_of_mem _ (List.mem_map_of_mem hmem))
      rw [primary_succ_eq hchild]
      refine (safe_primary hk ht ha scope k (Nat.le_of_succ_le hle)).bind fun value hv => ?_
      exact safe_call he hd (fun argument harg => ⟨hd _ _ _ hknown harg, ha _ hmem argument harg⟩)
        scope hv

/-! ## Statements -/

omit hd in
/-- The induction is on the statements. Each one gives a proper value. -/
theorem safe_sequence (scope : ScopeId) : ∀ {statements : List Tree} {result : Value},
    (∀ statement ∈ statements, Known statement ∧ IsStatement statement) → Proper Known result →
    Safe Known (Proper Known) (sequence (eval · scope) result statements)
  | [], _, _, hr => safe_pure hr
  | statement :: statements, result, hs, hr => by
      obtain ⟨hk, hstatement⟩ := hs statement List.mem_cons_self
      rw [sequence, hstatement.isNull_eq]
      refine (he statement scope ⟨hk, .inl hstatement⟩).bind fun value hv => ?_
      exact safe_sequence scope (fun s hmem => hs s (List.mem_cons_of_mem _ hmem)) hv

theorem safe_block {tree : Tree} (hk : Known tree) (h : IsBlock tree) (scope : ScopeId) :
    Safe Known (Proper Known) (sequence (eval · scope) (.integer 0) tree.children) := by
  cases h with
  | block hs =>
      exact safe_sequence he scope (fun s hmem => ⟨hd _ _ s hk hmem, hs s hmem⟩) trivial

/-- There are a condition and a block, and perhaps another block. -/
theorem safe_conditional {condition body : Tree} {rest : List Tree}
    (hk : Known (.branch .conditional (condition :: body :: rest))) (hc : IsExpression condition)
    (hb : IsBlock body) (hr : ∀ tree ∈ rest, IsBlock tree) (scope : ScopeId) :
    Safe Known (Proper Known)
      (conditional eval (.branch .conditional (condition :: body :: rest)) scope) := by
  unfold conditional
  rw [child_eq rfl, child_eq rfl, pure_bind, pure_bind]
  refine (safe_expression he (hd _ _ condition hk (by simp)) hc scope).bind fun value _ => ?_
  split
  · exact he body scope ⟨hd _ _ body hk (by simp), .inr hb⟩
  · split
    · next otherwise hother =>
        have hmem : otherwise ∈ rest := List.mem_of_getElem? hother
        exact he otherwise scope ⟨hd _ _ otherwise hk (by simp [hmem]), .inr (hr otherwise hmem)⟩
    · exact safe_pure trivial

/-- There are a condition and a block. -/
theorem safe_loop {condition body : Tree} (hk : Known (.branch .loop [condition, body]))
    (hc : IsExpression condition) (hb : IsBlock body) (budget : Nat) (scope : ScopeId) :
    Safe Known (Proper Known) (loop eval budget (.branch .loop [condition, body]) scope) := by
  unfold loop
  rw [child_eq rfl, child_eq rfl, pure_bind, pure_bind]
  refine safe_iterate (fun result hresult => ?_) budget
    (show Proper Known (.integer 0) from trivial)
  unfold turn
  refine (safe_expression he (hd _ _ condition hk (by simp)) hc scope).bind fun value _ => ?_
  split
  · exact safe_pure hresult
  · exact (he body scope ⟨hd _ _ body hk (by simp), .inr hb⟩).bind fun _ hv => safe_pure hv

end Recursor

/-- There are a name, parameters and a block, and the function that is made is proper. -/
theorem safe_definition {token : Token} {parameters body : Tree}
    (hk : Known (.branch .definition [.leaf .plain token, parameters, body]))
    (hn : token.isName = true) (hp : IsParameters parameters) (hb : IsBlock body)
    (scope : ScopeId) :
    Safe Known (Proper Known)
      (definition (.branch .definition [.leaf .plain token, parameters, body]) scope) := by
  obtain ⟨name, hname⟩ := nameOf_eq hn
  unfold definition
  rw [child_eq rfl, child_eq rfl, child_eq rfl, pure_bind, hname, pure_bind, pure_bind, pure_bind]
  refine (safe_tell _).bind fun _ _ => ?_
  refine (safe_transition (Q := Built Known) fun heap hh =>
    ⟨⟨⟨token, hk⟩, hp, hb⟩, hh.makeFunction name parameters body scope⟩).bind fun function hf => ?_
  have hproper : Proper Known (.function function) := hf
  refine (safe_update fun heap hh => hh.bind hproper scope name).bind fun _ _ => ?_
  exact safe_pure trivial

/-! ## Trees -/

theorem safe_valueOf (name : String) (scope : ScopeId) :
    Safe Known (Proper Known) (valueOf name scope) := by
  intro heap hp
  rw [valueOf, Action.ensures_bind, Action.ensures_view]
  split
  · next value hget => exact ⟨hp.of_get? hget, hp⟩
  · exact ⟨id, hp⟩

/-- A number has digits, so there is an integer to give. -/
theorem safe_numberOf {token : Token} (h : token.isNumber = true) :
    Safe Known (Proper Known) (numberOf token) := by
  obtain ⟨kind, line⟩ := token
  cases kind with
  | number value => exact safe_pure trivial
  | word text => cases h
  | string value => cases h
  | endOfLine => cases h
  | endOfFile => cases h

/-- One step of evaluation is safe if evaluation of the trees in it is. -/
theorem safe_step {eval : Recursor} (he : SafeRecursor Known eval) (hd : ClosedDown Known)
    (budget : Nat) : SafeRecursor Known (step eval budget) := by
  rintro tree scope ⟨hk, h | h⟩
  · cases h with
    | expression h =>
        cases h with
        | number hn => exact safe_numberOf hn
        | string => exact safe_pure trivial
        | name => exact safe_valueOf _ scope
        | @negative operand ho =>
            rw [step, child_eq rfl, pure_bind]
            have hoperand := safe_expression he (hd _ _ operand hk (by simp)) ho scope
            refine hoperand.bind fun value _ => ?_
            exact safe_ofExcept (safeResult_negate value)
        | binary hl ho hr => exact safe_binary he hd hk hl ho hr scope
        | @primary target calls ht _ ha =>
            exact safe_primary he hd hk ht ha scope _ (by simp)
    | conditional hc hb =>
        exact safe_conditional he hd hk hc (.block hb) (by simp) scope
    | alternative hc hb hb' =>
        exact safe_conditional he hd hk hc (.block hb) (by simpa using .block hb') scope
    | loop hc hb => exact safe_loop he hd hk hc (.block hb) budget scope
    | definition hn hp hb => exact safe_definition hk hn hp (.block hb) scope
  · cases h with
    | block hs => exact safe_block he hd hk (.block hs) scope

/-- Evaluation within any budget is safe. -/
theorem safe_eval (hd : ClosedDown Known) : ∀ n : Nat, SafeRecursor Known (eval n)
  | 0, _, _, _ => safe_unfinished
  | n + 1, tree, scope, h => safe_step (safe_eval hd n) hd n tree scope h

end Eval

end TreeScript
