/-!
# Decimal digits

Reading natural numbers from decimal digits. Leading zeros do not change the value,
and there is no largest number. Only the ten digits of ASCII count as digits.
-/

namespace TreeScript.Text

/-- The value of a run of decimal digits, with a value that stands before it. -/
def digitsValueFrom (value : Nat) (cs : List Char) : Nat :=
  cs.foldl (fun value c => 10 * value + (c.toNat - '0'.toNat)) value

/-- The value of a run of decimal digits. -/
def digitsValue (cs : List Char) : Nat := digitsValueFrom 0 cs

/-- Reads a nonempty run of decimal digits. -/
def readDigits? (cs : List Char) : Option Nat :=
  if cs.isEmpty || !cs.all Char.isDigit then none else some (digitsValue cs)

/-- Reads a nonempty run of decimal digits, which may have a plus sign before it. -/
def readNat? : List Char → Option Nat
  | '+' :: cs => readDigits? cs
  | cs => readDigits? cs

example : readNat? "+007".toList = some 7 := by decide
example : readNat? "+".toList = none := by decide
example : readNat? "-0".toList = none := by decide

end TreeScript.Text
