import LetLang.Number.Parts
import LetLang.Number.Decimal

/-!
# The shortest decimal that reads back

Every magnitude of a double is the nearest double of a whole interval of numbers.  Among the
decimals of that interval `Binary.shortest` chooses one with the fewest digits, and the nearest
of these.  All comparisons are exact, between natural numbers.
-/

namespace LetLang

/-- Which of two equally near decimals is chosen. -/
inductive Tie where
  /-- The larger one. -/
  | up
  /-- The one whose last digit is even. -/
  | even
deriving DecidableEq

namespace Binary

/-- The mantissa sits at a power of two above the least exponent, so the next smaller double is
only half as far away as the next larger one. -/
def narrowBelow (b : Binary) : Bool :=
  b.mantissa == Parts.fractions && b.exponent != -1074

/-- The lower end of the numbers that round to `b`, in quarters of a unit of its mantissa. -/
def lowerQuarters (b : Binary) : Nat :=
  4 * b.mantissa - (if b.narrowBelow then 1 else 2)

/-- The upper end of the numbers that round to `b`, in quarters of a unit of its mantissa. -/
def upperQuarters (b : Binary) : Nat := 4 * b.mantissa + 2

/-- Reading `d` and rounding to the nearest double gives `b`: the decimal lies between the two
ends, which belong to `b` exactly when its mantissa is even. -/
def reads (b : Binary) (d : Decimal) : Bool :=
  let here := (d.coefficient * tenPow d.exponent.toNat) <<< (2 - b.exponent).toNat
  let scale := tenPow (-d.exponent).toNat
  let lower := (b.lowerQuarters <<< (b.exponent - 2).toNat) * scale
  let upper := (b.upperQuarters <<< (b.exponent - 2).toNat) * scale
  if b.mantissa % 2 = 0 then lower ≤ here && here ≤ upper else lower < here && here < upper

/-- The multiple of `10 ^ t` that reads back as `b` and is nearest to it, if there is one.  Only
the two multiples next to `b` have to be tried. -/
def nearest? (tie : Tie) (b : Binary) (t : Int) : Option Decimal :=
  let numerator := (b.mantissa <<< b.exponent.toNat) * tenPow (-t).toNat
  let denominator := tenPow t.toNat <<< (-b.exponent).toNat
  let below : Decimal := ⟨numerator / denominator, t⟩
  let above : Decimal := ⟨numerator / denominator + 1, t⟩
  let twice := 2 * (numerator % denominator)
  match b.reads below, b.reads above with
  | false, false => none
  | true, false => some below
  | false, true => some above
  | true, true =>
    if twice < denominator then some below
    else if denominator < twice then some above
    else match tie with
      | .up => some above
      | .even => if below.coefficient % 2 = 0 then some below else some above

/-- Tries `tries` powers of ten from `10 ^ t` downwards. -/
def search (tie : Tie) (b : Binary) : (tries : Nat) → (t : Int) → Option Decimal
  | 0, _ => none
  | tries + 1, t =>
    match b.nearest? tie t with
    | some d => some d
    | none => search tie b tries (t - 1)

/-- All decimal digits of `b`. -/
def expansion (b : Binary) : Decimal :=
  match b.exponent with
  | .ofNat k => ⟨b.mantissa <<< k, 0⟩
  | .negSucc k => ⟨b.mantissa * Nat.pow 5 (k + 1), .negSucc k⟩

/-- A power of ten that is not below `b`. -/
def ceilingExponent (b : Binary) : Int :=
  ((b.mantissa.log2 : Int) + 1 + b.exponent) * 30103 / 100000 + 1

/-- The shortest decimal that reads back as the positive magnitude `b`.  Seventeen digits always
suffice, so the search ends within twenty steps. -/
def shortest (tie : Tie) (b : Binary) : Decimal :=
  ((b.search tie 20 b.ceilingExponent).getD b.expansion).trim

end Binary

end LetLang
