/-!
The integers that a program can write: those of 64 bits with sign. `fit?` refuses any other, and
`read?` reads the decimal form of one with an optional sign.
-/

set_option autoImplicit false
set_option relaxedAutoImplicit false

namespace Presage.Integer

/-- The least of them: two to the power of 63, negated. -/
def least : Int := -9223372036854775808

/-- The greatest of them: one less than two to the power of 63. -/
def greatest : Int := 9223372036854775807

/-- The integer itself when 64 bits hold it. -/
def fit? (value : Int) : Option Int :=
  if least ≤ value ∧ value ≤ greatest then some value else none

/-- The value of a run of decimal digits; other characters and an empty run have none. -/
def readDigits? (digits : List Char) : Option Nat :=
  if digits ≠ [] ∧ digits.all Char.isDigit then
    some (digits.foldl (fun value digit ↦ 10 * value + (digit.toNat - '0'.toNat)) 0)
  else none

/-- The 64-bit integer that a text writes in decimal, with or without a sign. -/
def read? (text : String) : Option Int :=
  match text.toList with
  | '-' :: digits => (readDigits? digits).bind fun value ↦ fit? (-value)
  | '+' :: digits => (readDigits? digits).bind fun value ↦ fit? value
  | digits => (readDigits? digits).bind fun value ↦ fit? value

/-- The decimal form, with a minus sign before a negative integer. -/
def decimal : Int → String
  | .ofNat n => n.repr
  | .negSucc n => "-" ++ (n + 1).repr

end Presage.Integer
