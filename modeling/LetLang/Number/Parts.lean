/-!
# The exact content of a double

A double stands for an exact rational number, for an infinity, or for no number at all.
`Parts.ofFloat` reads that content off the 64 bits of the double, so that every later question
about its text is a question about natural numbers and integers.
-/

namespace LetLang

/-- The number `mantissa * 2 ^ exponent`. -/
structure Binary where
  /-- The integer factor. -/
  mantissa : Nat
  /-- The power of two. -/
  exponent : Int
deriving DecidableEq

/-- What a double stands for: no number, an infinity, or a signed magnitude. -/
inductive Parts where
  /-- Not a number. -/
  | nan
  /-- An infinity, negative or positive. -/
  | infinite (negative : Bool)
  /-- A finite number, given by its sign and its magnitude. -/
  | finite (negative : Bool) (magnitude : Binary)
deriving DecidableEq

namespace Parts

/-- The number of fractions of one binary exponent, `2 ^ 52`. -/
def fractions : Nat := 4503599627370496

/-- The number of biased exponents, `2 ^ 11`. -/
def exponents : Nat := 2048

/-- The content of a 64-bit word: a sign bit, 11 bits of exponent and 52 bits of fraction.
The largest exponent is kept for infinities and for what is no number; the smallest one
carries no hidden bit. -/
def ofWord (word : Nat) : Parts :=
  let fraction := word % fractions
  let biased := word / fractions % exponents
  let negative := word / fractions / exponents % 2 == 1
  if biased = exponents - 1 then
    if fraction = 0 then .infinite negative else .nan
  else if biased = 0 then
    .finite negative ⟨fraction, -1074⟩
  else
    .finite negative ⟨fraction + fractions, (biased : Int) - 1075⟩

/-- The content of a double. -/
def ofFloat (x : Float) : Parts := ofWord x.toBits.toNat

end Parts

namespace Binary

/-- The natural number that `b` is, if it is one. -/
def whole? (b : Binary) : Option Nat :=
  match b.exponent with
  | .ofNat k => some (b.mantissa <<< k)
  | .negSucc k =>
    if (b.mantissa >>> (k + 1)) <<< (k + 1) = b.mantissa then some (b.mantissa >>> (k + 1)) else none

end Binary

end LetLang
