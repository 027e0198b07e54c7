import Mathlib.Data.Nat.PSub
import TreeScript.Proofs.Eval.Safe

/-!
# Chains of postfixes

An operand may have any number of postfixes. Its value is computed first, and then each postfix is
applied to the value of all that stands before it, up to the first error. So a chain is a left fold
over its postfixes (`leftFold`), whatever trees stand in it and however these are evaluated.

One may also go through a chain from its end and count the postfixes that are left out
(`fromEnd?`). Then a postfix is found by subtracting from the number of children. No such
subtraction goes below zero and no index past the end, so this is the same chain once more.
-/

namespace TreeScript

namespace Eval

open TreeScript.Tree

variable {evaluate : Recursor} {tree operand : Tree} {postfixes : List Tree} {scope : ScopeId}

/-- The value of an operand, to which postfixes are applied one after the other. -/
def leftFold (evaluate : Recursor) (scope : ScopeId) (operand : Tree) (postfixes : List Tree) :
    Evaluator Value := do
  let value ← evaluate operand scope
  postfixes.foldlM (fun target following => applyPostfix evaluate following scope target) value

/-- An operand with all but the last `nest` of its postfixes. There is no result if a subtraction
would go below zero or an index past the end of the children. -/
def fromEnd? (evaluate : Recursor) (tree : Tree) (scope : ScopeId) (nest : Nat) :
    Option (Evaluator Value) := do
  if nest + 1 < tree.children.length then
    let target ← fromEnd? evaluate tree scope (nest + 1)
    let index ← (tree.children.length.psub nest).bind (·.psub 1)
    let following ← tree.children[index]?
    return do applyPostfix evaluate following scope (← target)
  else
    let operand ← tree.children[0]?
    return evaluate operand scope
termination_by tree.children.length - nest

/-- Further postfixes are applied to the value of all before them. -/
theorem leftFold_append (more : List Tree) :
    leftFold evaluate scope operand (postfixes ++ more) =
      leftFold evaluate scope operand postfixes >>=
        more.foldlM fun target following => applyPostfix evaluate following scope target := by
  simp only [leftFold, List.foldlM_append, bind_assoc]

/-- The first postfixes are applied from the left. -/
theorem primary_eq_leftFold {k : Nat} (hk : k ≤ postfixes.length) :
    primary evaluate (.branch .primary (operand :: postfixes)) scope k =
      leftFold evaluate scope operand (postfixes.take k) := by
  induction k with
  | zero =>
      have hoperand : (branch .primary (operand :: postfixes)).children[0]? = some operand := rfl
      rw [primary_zero_eq hoperand, leftFold, List.take_zero]
      exact (bind_pure _).symm
  | succ k ih =>
      have hfollowing : (branch .primary (operand :: postfixes)).children[k + 1]? =
          some postfixes[k] := List.getElem?_eq_getElem hk
      rw [primary_succ_eq hfollowing, ih (Nat.le_of_succ_le hk), ← List.take_append_getElem hk,
        leftFold_append]
      simp only [List.foldlM_cons, List.foldlM_nil, bind_pure]

/-- Counting from the end stays within the children. -/
theorem fromEnd?_eq {k nest : Nat} (h : nest + (k + 1) = tree.children.length) :
    fromEnd? evaluate tree scope nest = some (primary evaluate tree scope k) := by
  induction k generalizing nest with
  | zero =>
      obtain ⟨operand, hoperand⟩ : ∃ operand, tree.children[0]? = some operand :=
        ⟨_, List.getElem?_eq_getElem (by omega)⟩
      rw [fromEnd?, if_neg (by omega), hoperand, primary_zero_eq hoperand]
      rfl
  | succ k ih =>
      have hindex : (tree.children.length.psub nest).bind (·.psub 1) = some (k + 1) := by
        rw [Nat.psub_eq_some.2 (show k + 1 + 1 + nest = _ by omega)]
        rfl
      obtain ⟨following, hfollowing⟩ : ∃ following, tree.children[k + 1]? = some following :=
        ⟨_, List.getElem?_eq_getElem (by omega)⟩
      rw [fromEnd?, if_pos (by omega), ih (by omega), hindex, primary_succ_eq hfollowing]
      simp only [Option.bind_eq_bind, Option.bind_some, hfollowing]
      rfl

/-- The value of an operand with postfixes is their left fold, with the same outcome and the same
heap, and an error of the first postfixes is one of all. This holds whatever the trees are and
however they are evaluated, and so for each budget. Counting from the end gives the same, without a
subtraction below zero or an index past the end. -/
theorem postfixes_fold_left (operand : Tree) (postfixes : List Tree) (scope : ScopeId) :
    let tree := branch .primary (operand :: postfixes)
    (∀ evaluate : Recursor,
      primary evaluate tree scope postfixes.length = leftFold evaluate scope operand postfixes ∧
      fromEnd? evaluate tree scope 0 = some (leftFold evaluate scope operand postfixes) ∧
      ∀ first rest heap error heap', postfixes = first ++ rest →
        (leftFold evaluate scope operand first).Stops heap error heap' →
        (leftFold evaluate scope operand postfixes).Stops heap error heap') ∧
    ∀ budget, eval (budget + 1) tree scope = leftFold (eval budget) scope operand postfixes := by
  intro tree
  have hfold : ∀ evaluate : Recursor,
      primary evaluate tree scope postfixes.length = leftFold evaluate scope operand postfixes := by
    intro evaluate
    rw [primary_eq_leftFold (Nat.le_refl _), List.take_length]
  refine ⟨fun evaluate => ⟨hfold evaluate, ?_, ?_⟩, fun budget => hfold (eval budget)⟩
  · rw [fromEnd?_eq (Nat.zero_add _), hfold]
  · rintro first rest heap error heap' rfl hstops
    rw [leftFold_append]
    exact hstops.bind _

end Eval

end TreeScript
