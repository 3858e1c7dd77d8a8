import LetLang.Number.Shortest

/-!
# The text of a number

Numbers are shown to the user without an exponent.  Whole numbers below `10 ^ 21` appear with
their exact digits, every other finite number with the fewest digits that read back.
-/

namespace LetLang

/-- From this bound on the digits of a whole number are no longer all shown. -/
def exactBound : Nat := 1000000000000000000000

/-- The digits of a positive magnitude. -/
def magnitudeText (b : Binary) : List Char :=
  match b.whole? with
  | some n => if n < exactBound then Nat.toDigits 10 n else (b.shortest .up).positional
  | none => (b.shortest .up).positional

/-- The text of a number; both zeros are `0`. -/
def numberText (x : Float) : String :=
  match Parts.ofFloat x with
  | .nan => "NaN"
  | .infinite negative => if negative then "-Infinity" else "Infinity"
  | .finite negative b =>
    if b.mantissa = 0 then "0"
    else String.ofList (if negative then '-' :: magnitudeText b else magnitudeText b)

end LetLang
