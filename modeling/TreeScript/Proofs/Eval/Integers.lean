import Mathlib.Data.Int.ModEq
import TreeScript.Proofs.Eval.Call

/-!
# Integer expressions

Integers have 64 bits, and every operation wraps around. Sums, differences, products and changes of
sign respect congruence modulo 2 to the 64, so it makes no difference whether one wraps around at
every step or once at the end: the value of a tree is the integer of 64 bits that is congruent to
its exact value (`exists_gives_of_exactValue`).

Division does not respect congruence. It is that of the two integers as they are, towards zero, and
only the smallest integer divided by minus one wraps around (`divides_int64`).
-/

namespace TreeScript

/-! ## Integers of 64 bits -/

/-- The integer of 64 bits stands for this one, which need not fit in 64 bits. -/
def Wraps (k : Int64) (v : Int) : Prop := k.toInt ≡ v [ZMOD 2 ^ 64]

section Wraps

variable {m n k : Int64} {v w : Int}

theorem wraps_self (k : Int64) : Wraps k k.toInt := Int.ModEq.refl _

/-- The balanced remainder is what wraps around. -/
theorem wraps_of_bmod (h : k.toInt = v.bmod (2 ^ 64)) : Wraps k v := by
  rw [Wraps, Int.ModEq, h]
  exact Int.bmod_emod

/-- Negation wraps around. -/
theorem Wraps.neg (h : Wraps k v) : Wraps (-k) (-v) :=
  (wraps_of_bmod (Int64.toInt_neg k)).trans (Int.ModEq.neg h)

/-- Addition wraps around. -/
theorem Wraps.add (h : Wraps m v) (h' : Wraps n w) : Wraps (m + n) (v + w) :=
  (wraps_of_bmod (Int64.toInt_add m n)).trans (Int.ModEq.add h h')

/-- Subtraction wraps around. -/
theorem Wraps.sub (h : Wraps m v) (h' : Wraps n w) : Wraps (m - n) (v - w) :=
  (wraps_of_bmod (Int64.toInt_sub m n)).trans (Int.ModEq.sub h h')

/-- Multiplication wraps around. -/
theorem Wraps.mul (h : Wraps m v) (h' : Wraps n w) : Wraps (m * n) (v * w) :=
  (wraps_of_bmod (Int64.toInt_mul m n)).trans (Int.ModEq.mul h h')

/-- An integer within 64 bits that is congruent is the one that stands for it. -/
theorem Wraps.eq_toInt (h : Wraps k v) (hlow : -2 ^ 63 ≤ w) (hhigh : w < 2 ^ 63)
    (hw : w ≡ v [ZMOD 2 ^ 64]) : w = k.toInt := by
  have hsame : w % 2 ^ 64 = k.toInt % 2 ^ 64 := hw.trans (Int.ModEq.symm h)
  have hk := k.le_toInt
  have hk' := k.toInt_lt
  omega

end Wraps

/-- Division of integers of 64 bits, with quotient and remainder. -/
structure Divides (x y q r : Int64) : Prop where
  /-- Multiplied back, the quotient and the remainder give the first integer. -/
  back : x.toInt ≡ q.toInt * y.toInt + r.toInt [ZMOD 2 ^ 64]
  /-- The remainder is smaller than the second integer. -/
  small : |r.toInt| < |y.toInt|
  /-- The remainder is zero or has the sign of the first integer. -/
  sign : r = 0 ∨ r.toInt.sign = x.toInt.sign
  /-- The quotient is rounded towards zero. -/
  truncated : ¬ (x.toInt = -2 ^ 63 ∧ y.toInt = -1) → q.toInt = x.toInt.tdiv y.toInt
  /-- Only here it does not fit in 64 bits. -/
  overflow : x.toInt = -2 ^ 63 ∧ y.toInt = -1 → q = x

/-- But for the least integer by minus one, division does not overflow. -/
theorem toInt_div_of_fits {x y : Int64} (h : ¬ (x.toInt = -2 ^ 63 ∧ y.toInt = -1)) :
    (x / y).toInt = x.toInt.tdiv y.toInt := by
  by_cases hx : x = Int64.minValue
  · apply Int64.toInt_div_of_ne_right
    intro hy
    subst hx hy
    exact h ⟨Int64.toInt_minValue, rfl⟩
  · exact Int64.toInt_div_of_ne_left x y hx

/-- Division and remainder of machine integers are those of integers where the quotient fits. -/
theorem divides_int64 (x : Int64) {y : Int64} (hy : y ≠ 0) : Divides x y (x / y) (x % y) where
  back := by
    have hdiv : Wraps (x / y) (x.toInt.tdiv y.toInt) := wraps_of_bmod (Int64.toInt_div x y)
    have hback : x.toInt.tdiv y.toInt * y.toInt + x.toInt.tmod y.toInt = x.toInt := by
      rw [mul_comm]
      exact Int.mul_tdiv_add_tmod _ _
    have hmul : (x / y).toInt * y.toInt ≡ x.toInt.tdiv y.toInt * y.toInt [ZMOD 2 ^ 64] :=
      Int.ModEq.mul_right _ hdiv
    have hall := (hmul.add_right (x.toInt.tmod y.toInt)).symm
    rw [hback] at hall
    rw [Int64.toInt_mod]
    exact hall
  small := by
    have hy' : y.toInt ≠ 0 := fun h => hy (Int64.toInt_inj.1 h)
    rw [Int64.toInt_mod, Int.abs_eq_natAbs, Int.abs_eq_natAbs, Int.natAbs_tmod]
    exact Int.ofNat_lt.2 (Nat.mod_lt _ (Int.natAbs_pos.2 hy'))
  sign := by
    by_cases hdvd : y.toInt ∣ x.toInt
    · refine .inl (Int64.toInt_inj.1 ?_)
      rw [Int64.toInt_mod, Int.tmod_eq_zero_of_dvd hdvd]
      rfl
    · refine .inr ?_
      rw [Int64.toInt_mod, Int.sign_tmod, if_neg hdvd]
  truncated := toInt_div_of_fits
  overflow := by
    intro ⟨hx, hy⟩
    obtain rfl : x = Int64.minValue := Int64.toInt_inj.1 (hx.trans Int64.toInt_minValue.symm)
    obtain rfl : y = -1 := Int64.toInt_inj.1 hy
    decide

namespace Eval

/-! ## Operations -/

/-- Two operands with an operator between them, as a tree. -/
def operation (left : Tree) (operator : Token) (right : Tree) : Tree :=
  .branch .binary [left, .leaf .plain operator, right]

section Operations

variable {heap middle heap' : Heap} {scope : ScopeId} {budget : Nat} {left right : Tree}
  {operator : Token} {name : String} {l r : Value}

/-- Operands that have values come to what the operator makes of them. -/
theorem result?_operation (hname : operator.word? = some name) (hassign : name ≠ "=")
    (hleft : (eval budget left scope).Gives heap l middle)
    (hright : (eval budget right scope).Gives middle r heap') :
    (eval (budget + 1) (operation left operator right) scope heap).result? =
      (Action.ofExcept (applyOperator name l r) heap').result? := by
  have hoperands : (child (operation left operator right) 0).Gives heap left heap ∧
      (child (operation left operator right) 1).Gives heap (.leaf .plain operator) heap ∧
      (child (operation left operator right) 2).Gives heap right heap :=
    ⟨⟨[], rfl⟩, ⟨[], rfl⟩, ⟨[], rfl⟩⟩
  have hoperator : (nameOf (.leaf .plain operator)).Gives heap name heap := by
    rw [nameOf, Tree.name?, hname]
    exact Action.gives_pure name
  show (binary (eval budget) (operation left operator right) scope heap).result? = _
  rw [binary, hoperands.1.result?_bind, hoperands.2.1.result?_bind, hoperator.result?_bind,
    hoperands.2.2.result?_bind, if_neg hassign, hleft.result?_bind, hright.result?_bind]

/-- An operation gives what its operator gives for the values of both sides, the left one first. -/
theorem gives_operation {value : Value} (hname : operator.word? = some name) (hassign : name ≠ "=")
    (hleft : (eval budget left scope).Gives heap l middle)
    (hright : (eval budget right scope).Gives middle r heap')
    (h : applyOperator name l r = .ok value) :
    (eval (budget + 1) (operation left operator right) scope).Gives heap value heap' := by
  rw [Action.gives_iff, result?_operation hname hassign hleft hright, h]
  rfl

/-- An operation fails as its operator does for the values of both sides. -/
theorem stops_operation {error : EvalError} (hname : operator.word? = some name)
    (hassign : name ≠ "=") (hleft : (eval budget left scope).Gives heap l middle)
    (hright : (eval budget right scope).Gives middle r heap')
    (h : applyOperator name l r = .error error) :
    (eval (budget + 1) (operation left operator right) scope).Stops heap error heap' := by
  rw [Action.stops_iff, result?_operation hname hassign hleft hright, h]
  rfl

end Operations

/-! ## Exact values -/

/-- What an operator means if nothing wraps around. -/
def exactOperator? : String → Option (Int → Int → Int)
  | "+" => some (· + ·)
  | "-" => some (· - ·)
  | "*" => some (· * ·)
  | _ => none

/-- The tree is made of integer literals, names of integers, minus signs and the operators `+`, `-`
and `*`, and this is its value if nothing wraps around. -/
inductive ExactValue (heap : Heap) (scope : ScopeId) : Tree → Int → Prop where
  | number {token : Token} {n : Int64} :
      token.number? = some n → ExactValue heap scope (.leaf .number token) n.toInt
  | name {token : Token} {n : Int64} :
      heap.get? scope token.toText = some (.integer n) →
      ExactValue heap scope (.leaf .variable token) n.toInt
  | negative {tree : Tree} {v : Int} :
      ExactValue heap scope tree v → ExactValue heap scope (.branch .negative [tree]) (-v)
  | operation {left right : Tree} {operator : Token} {name : String} {f : Int → Int → Int}
      {v w : Int} : operator.word? = some name → exactOperator? name = some f →
      ExactValue heap scope left v → ExactValue heap scope right w →
      ExactValue heap scope (operation left operator right) (f v w)

/-- An operator with an exact meaning wraps its result around. -/
theorem exists_applyOperator {name : String} {f : Int → Int → Int}
    (h : exactOperator? name = some f) {m n : Int64} {v w : Int} (hm : Wraps m v)
    (hn : Wraps n w) :
    name ≠ "=" ∧ ∃ k, applyOperator name (.integer m) (.integer n) = .ok (.integer k) ∧
      Wraps k (f v w) := by
  unfold exactOperator? at h
  split at h
  · cases h
    exact ⟨by decide, m + n, rfl, hm.add hn⟩
  · cases h
    exact ⟨by decide, m - n, rfl, hm.sub hn⟩
  · cases h
    exact ⟨by decide, m * n, rfl, hm.mul hn⟩
  · cases h

section ExactValue

variable {heap : Heap} {scope : ScopeId} {tree : Tree} {v : Int}

/-- The tree gives an integer that stands for its exact value, and changes nothing. -/
theorem exists_gives_of_exactValue (h : ExactValue heap scope tree v) :
    ∃ k, Wraps k v ∧ ∃ least, ∀ budget ≥ least,
      (eval budget tree scope).Gives heap (.integer k) heap := by
  induction h with
  | @number token n hnumber =>
      refine ⟨n, wraps_self n, 1, fun budget hbudget => ?_⟩
      obtain ⟨budget, rfl⟩ := Nat.exists_eq_add_of_le' hbudget
      show (numberOf token).Gives heap (.integer n) heap
      rw [numberOf, hnumber]
      exact Action.gives_pure _
  | @name token n hget =>
      refine ⟨n, wraps_self n, 1, fun budget hbudget => ?_⟩
      obtain ⟨budget, rfl⟩ := Nat.exists_eq_add_of_le' hbudget
      exact gives_valueOf hget
  | @negative tree v _ ih =>
      obtain ⟨k, hk, least, hgives⟩ := ih
      refine ⟨-k, hk.neg, least + 1, fun budget hbudget => ?_⟩
      obtain ⟨budget, rfl⟩ := Nat.exists_eq_add_of_le' (Nat.le_of_add_left_le hbudget)
      have hchild : (child (.branch .negative [tree]) 0).Gives heap tree heap := ⟨[], rfl⟩
      exact hchild.bind ((hgives budget (Nat.le_of_succ_le_succ hbudget)).bind ⟨[], rfl⟩)
  | operation hname hexact _ _ ihleft ihright =>
      obtain ⟨m, hm, least, hleft⟩ := ihleft
      obtain ⟨n, hn, least', hright⟩ := ihright
      obtain ⟨hassign, k, hvalue, hk⟩ := exists_applyOperator hexact hm hn
      refine ⟨k, hk, max least least' + 1, fun budget hbudget => ?_⟩
      obtain ⟨budget, rfl⟩ := Nat.exists_eq_add_of_le' (Nat.le_of_add_left_le hbudget)
      have hle : max least least' ≤ budget := Nat.le_of_succ_le_succ hbudget
      exact gives_operation hname hassign (hleft budget ((le_max_left _ _).trans hle))
        (hright budget ((le_max_right _ _).trans hle)) hvalue

end ExactValue

/-- An expression of integers gives the only integer of 64 bits that is congruent to its exact
value. Two operands that give integers can be divided unless the second one is zero, and then both
the quotient and the remainder are an error. -/
theorem integers_wrap (heap : Heap) (scope : ScopeId) :
    (∀ tree v, ExactValue heap scope tree v → ∃ k : Int64,
      -2 ^ 63 ≤ k.toInt ∧ k.toInt < 2 ^ 63 ∧ k.toInt ≡ v [ZMOD 2 ^ 64] ∧
      (∀ w, -2 ^ 63 ≤ w → w < 2 ^ 63 → w ≡ v [ZMOD 2 ^ 64] → w = k.toInt) ∧
      ∃ least, ∀ budget ≥ least, (eval budget tree scope).Gives heap (.integer k) heap) ∧
    ∀ budget left right (x y : Int64) middle heap' line,
      (eval budget left scope).Gives heap (.integer x) middle →
      (eval budget right scope).Gives middle (.integer y) heap' →
      let quotient := eval (budget + 1) (operation left ⟨.word "/", line⟩ right) scope
      let remainder := eval (budget + 1) (operation left ⟨.word "%", line⟩ right) scope
      (y = 0 → quotient.Stops heap .divisionByZero heap' ∧
        remainder.Stops heap .divisionByZero heap') ∧
      (y ≠ 0 → ∃ q r, quotient.Gives heap (.integer q) heap' ∧
        remainder.Gives heap (.integer r) heap' ∧ Divides x y q r) := by
  constructor
  · intro tree v hexact
    obtain ⟨k, hk, hgives⟩ := exists_gives_of_exactValue hexact
    exact ⟨k, k.le_toInt, k.toInt_lt, hk, fun w => hk.eq_toInt, hgives⟩
  · intro budget left right x y middle heap' line hleft hright quotient remainder
    have hquotient : applyOperator "/" (.integer x) (.integer y) =
        if y = 0 then .error .divisionByZero else .ok (.integer (x / y)) := rfl
    have hremainder : applyOperator "%" (.integer x) (.integer y) =
        if y = 0 then .error .divisionByZero else .ok (.integer (x % y)) := rfl
    constructor
    · intro hy
      rw [if_pos hy] at hquotient hremainder
      exact ⟨stops_operation rfl (by decide) hleft hright hquotient,
        stops_operation rfl (by decide) hleft hright hremainder⟩
    · intro hy
      rw [if_neg hy] at hquotient hremainder
      exact ⟨x / y, x % y, gives_operation rfl (by decide) hleft hright hquotient,
        gives_operation rfl (by decide) hleft hright hremainder, divides_int64 x hy⟩

/-- The smallest integer stays as it is if its sign is changed, and one less than its exact opposite
is the largest integer. Divided by minus one it stays as it is as well. -/
theorem integers_wrap_smallest :
    let heap := Heap.empty.makeScope.2.bind 0 "x" (.integer Int64.minValue)
    let smallest := Tree.leaf .variable ⟨.word "x", 1⟩
    let one := Tree.leaf .number ⟨.number 1, 1⟩
    let minusOne := Tree.branch .negative [one]
    let tree := operation (.branch .negative [smallest]) ⟨.word "-", 1⟩ one
    ExactValue heap 0 tree (2 ^ 63 - 1) ∧
      (∃ least, ∀ budget ≥ least, (eval budget tree 0).Gives heap (.integer Int64.maxValue) heap) ∧
      (eval 3 (operation smallest ⟨.word "/", 1⟩ minusOne) 0).Gives heap
        (.integer Int64.minValue) heap ∧
      (eval 3 (operation smallest ⟨.word "%", 1⟩ minusOne) 0).Gives heap (.integer 0) heap := by
  intro heap smallest one minusOne tree
  have hscope : heap.scopes[0]? = some ⟨[("x", .integer Int64.minValue)], none⟩ := rfl
  have hget : heap.get? 0 "x" = some (.integer Int64.minValue) := by
    rw [Heap.get?_of_some hscope]
    rfl
  have hone : ExactValue heap 0 one (Int64.toInt 1) := .number rfl
  have hsmallest : ExactValue heap 0 smallest Int64.minValue.toInt := .name hget
  have htree : ExactValue heap 0 tree (-Int64.minValue.toInt - Int64.toInt 1) :=
    .operation rfl rfl hsmallest.negative hone
  rw [Int64.toInt_minValue] at htree
  obtain ⟨hwraps, hdivides⟩ := integers_wrap heap 0
  refine ⟨htree, ?_, ?_⟩
  · obtain ⟨k, -, -, -, honly, hgives⟩ := hwraps tree _ htree
    have hk := honly (2 ^ 63 - 1) (by decide) (by decide) (Int.ModEq.refl _)
    obtain rfl : k = Int64.maxValue := Int64.toInt_inj.1 (hk.symm.trans rfl)
    exact hgives
  · have hleft : (eval 2 smallest 0).Gives heap (.integer Int64.minValue) heap :=
      gives_valueOf hget
    have hright : (eval 2 minusOne 0).Gives heap (.integer (-1)) heap := ⟨[], rfl⟩
    obtain ⟨-, hvalues⟩ := hdivides 2 smallest minusOne _ _ heap heap 1 hleft hright
    obtain ⟨q, r, hq, hr, hqr⟩ := hvalues (by decide)
    obtain rfl := hqr.overflow ⟨Int64.toInt_minValue, rfl⟩
    have hsmall : |r.toInt| < 1 := hqr.small
    obtain rfl : r = 0 := Int64.toInt_inj.1 (Int.abs_lt_one_iff.1 hsmall)
    exact ⟨hq, hr⟩

end Eval

end TreeScript
