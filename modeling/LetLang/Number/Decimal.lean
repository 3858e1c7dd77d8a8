/-!
# Decimal numbers and their layouts

A `Decimal` is a coefficient with a power of ten.  It is written either positionally, with all
its digits and no exponent, or with one digit before the point and an exponent.
-/

namespace LetLang

/-- The natural number `10 ^ k`. -/
def tenPow (k : Nat) : Nat := Nat.pow 10 k

/-- The number `coefficient * 10 ^ exponent`. -/
structure Decimal where
  /-- The integer factor. -/
  coefficient : Nat
  /-- The power of ten. -/
  exponent : Int
deriving DecidableEq

namespace Decimal

/-- Moves the zeros at the end of a positive coefficient into the exponent. -/
def trimZeros (coefficient : Nat) (exponent : Int) : Decimal :=
  if coefficient ≠ 0 ∧ coefficient % 10 = 0 then trimZeros (coefficient / 10) (exponent + 1)
  else ⟨coefficient, exponent⟩
termination_by coefficient
decreasing_by omega

/-- The same number with no zero at the end of its coefficient. -/
def trim (d : Decimal) : Decimal := trimZeros d.coefficient d.exponent

/-- The digits of the coefficient, the leading one first. -/
def digits (d : Decimal) : List Char := Nat.toDigits 10 d.coefficient

/-- The power of ten that the leading digit counts. -/
def leadingExponent (d : Decimal) : Int := d.exponent + d.digits.length - 1

/-- Writes `places` of the digits behind the point, with zeros in front where there are too
few digits; at least one digit stands before the point. -/
def pointed (digits : List Char) (places : Nat) : List Char :=
  if digits.length ≤ places then
    '0' :: '.' :: (List.replicate (places - digits.length) '0' ++ digits)
  else
    digits.take (digits.length - places) ++ '.' :: digits.drop (digits.length - places)

/-- Positional layout: all digits, never an exponent, and a point only where the number has
places behind it. -/
def positional (d : Decimal) : List Char :=
  match d.exponent with
  | .ofNat k => d.digits ++ List.replicate k '0'
  | .negSucc k => pointed d.digits (k + 1)

/-- Exponent layout: one digit, the others behind a point if there are any, and an exponent that
always carries its sign. -/
def scientific (d : Decimal) : List Char :=
  let lead := d.digits.take 1
  let others := d.digits.drop 1
  let point := if others.isEmpty then [] else '.' :: others
  let sign := if d.leadingExponent < 0 then '-' else '+'
  lead ++ point ++ 'e' :: sign :: Nat.toDigits 10 d.leadingExponent.natAbs

end Decimal

end LetLang
