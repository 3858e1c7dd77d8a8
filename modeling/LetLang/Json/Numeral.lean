import LetLang.Json.Basic
import LetLang.Json.SyntaxError

/-!
# JSON numerals

`Numeral.read` takes a numeral off the front of a text, `Numeral.value` gives the number it
stands for.  A whole number that has room in 64 bits is kept exactly.  Any other numeral becomes a
double: as many leading digits as fit into 64 bits are gathered, and the result is scaled by powers
of ten, each a rounded floating-point operation.
-/

namespace LetLang.Json

/-- A numeral, by its digits. -/
structure Numeral where
  /-- A minus sign stands in front. -/
  negative : Bool
  /-- The digits before the point. -/
  whole : List Nat
  /-- The digits behind the point, of which there are none if there is no point. -/
  fraction : List Nat
  /-- The power of ten, if one is given. -/
  exponent : Option Int
deriving DecidableEq

namespace Numeral

/-! ## Reading -/

/-- The value of a decimal digit. -/
def digitValue (c : Char) : Nat := c.toNat - '0'.toNat

/-- The digits at the front of a text. -/
def digitsOf (s : List Char) : List Nat := (s.takeWhile Char.isDigit).map digitValue

/-- What follows the digits at the front of a text. -/
def afterDigits (s : List Char) : List Char := s.dropWhile Char.isDigit

/-- The number that a list of digits stands for. -/
def ofDigits (digits : List Nat) : Nat := digits.foldl (fun n d => n * 10 + d) 0

/-- The fault of a numeral that lacks a digit in front of `rest`. -/
def missingDigit (rest : List Char) : SyntaxError :=
  if rest.isEmpty then .endInValue else .invalidNumber

/-- Reads a point and the digits behind it, if a point comes next. -/
def readFraction : List Char → Except SyntaxError (List Nat × List Char)
  | '.' :: rest =>
    if (digitsOf rest).isEmpty then .error (missingDigit rest)
    else .ok (digitsOf rest, afterDigits rest)
  | s => .ok ([], s)

/-- Reads the digits of a power of ten. -/
def readPower (negative : Bool) (s : List Char) : Except SyntaxError (Option Int × List Char) :=
  if (digitsOf s).isEmpty then .error (missingDigit s)
  else
    let power : Int := ofDigits (digitsOf s)
    .ok (some (if negative then -power else power), afterDigits s)

/-- Reads the sign and the digits of a power of ten. -/
def readSignedPower : List Char → Except SyntaxError (Option Int × List Char)
  | '+' :: rest => readPower false rest
  | '-' :: rest => readPower true rest
  | s => readPower false s

/-- Reads a power of ten, if its mark comes next. -/
def readExponent : List Char → Except SyntaxError (Option Int × List Char)
  | 'e' :: rest => readSignedPower rest
  | 'E' :: rest => readSignedPower rest
  | s => .ok (none, s)

/-- Reads what follows the sign of a numeral. -/
def readUnsigned (negative : Bool) (s : List Char) : Except SyntaxError (Numeral × List Char) :=
  match digitsOf s with
  | [] => .error (missingDigit s)
  | 0 :: _ :: _ => .error .invalidNumber
  | whole =>
    match readFraction (afterDigits s) with
    | .error e => .error e
    | .ok (fraction, s') =>
      match readExponent s' with
      | .error e => .error e
      | .ok (exponent, rest) => .ok (⟨negative, whole, fraction, exponent⟩, rest)

/-- Takes a numeral off the front of a text. -/
def read : List Char → Except SyntaxError (Numeral × List Char)
  | '-' :: rest => readUnsigned true rest
  | s => readUnsigned false s

theorem length_afterDigits_le (s : List Char) : (afterDigits s).length ≤ s.length := by
  induction s with
  | nil => simp [afterDigits]
  | cons c s ih =>
    simp only [afterDigits, List.dropWhile_cons] at ih ⊢
    split
    · exact Nat.le_succ_of_le ih
    · exact Nat.le_refl _

theorem length_afterDigits_lt {s : List Char} (h : digitsOf s ≠ []) :
    (afterDigits s).length < s.length := by
  cases s with
  | nil => simp [digitsOf] at h
  | cons c s =>
    by_cases hc : c.isDigit
    · have := length_afterDigits_le s
      simp only [afterDigits, List.dropWhile_cons, hc, if_true, List.length_cons] at this ⊢
      omega
    · simp [digitsOf, hc] at h

theorem readFraction_length {s r : List Char} {ds : List Nat}
    (h : readFraction s = .ok (ds, r)) : r.length ≤ s.length := by
  unfold readFraction at h
  split at h
  · next rest =>
    split at h
    · cases h
    · cases h
      have := length_afterDigits_le rest
      simp only [List.length_cons]
      omega
  · cases h
    exact Nat.le_refl _

theorem readPower_length {negative : Bool} {s r : List Char} {e : Option Int}
    (h : readPower negative s = .ok (e, r)) : r.length ≤ s.length := by
  unfold readPower at h
  split at h
  · cases h
  · cases h
    exact length_afterDigits_le s

theorem readSignedPower_length {s r : List Char} {e : Option Int}
    (h : readSignedPower s = .ok (e, r)) : r.length ≤ s.length := by
  unfold readSignedPower at h
  split at h
  · exact Nat.le_succ_of_le (readPower_length h)
  · exact Nat.le_succ_of_le (readPower_length h)
  · exact readPower_length h

theorem readExponent_length {s r : List Char} {e : Option Int}
    (h : readExponent s = .ok (e, r)) : r.length ≤ s.length := by
  unfold readExponent at h
  split at h
  · exact Nat.le_succ_of_le (readSignedPower_length h)
  · exact Nat.le_succ_of_le (readSignedPower_length h)
  · cases h
    exact Nat.le_refl _

theorem readUnsigned_length {negative : Bool} {s r : List Char} {n : Numeral}
    (h : readUnsigned negative s = .ok (n, r)) : r.length < s.length := by
  unfold readUnsigned at h
  split at h
  · cases h
  · cases h
  · next hne _ =>
    have hlt := length_afterDigits_lt (s := s) (fun hnil => hne hnil)
    split at h
    · cases h
    · next hf =>
      split at h
      · cases h
      · next he =>
        cases h
        have := readFraction_length hf
        have := readExponent_length he
        omega

/-- A numeral that was read took at least one character. -/
theorem read_length {s r : List Char} {n : Numeral} (h : read s = .ok (n, r)) :
    r.length < s.length := by
  unfold read at h
  split at h
  · exact Nat.lt_succ_of_lt (readUnsigned_length h)
  · exact readUnsigned_length h

/-! ## Value -/

/-- The whole number that the numeral spells, if it has neither point nor power of ten and room in
64 bits.  A zero with a minus sign is none. -/
def integer? (n : Numeral) : Option Number :=
  if n.fraction.isEmpty && n.exponent.isNone && !(n.negative && ofDigits n.whole == 0) then
    let magnitude : Int := ofDigits n.whole
    Number.ofInt? (if n.negative then -magnitude else magnitude)
  else none

/-- Appends digits to a significand as long as it fits into 64 bits, and counts the digits that are
left over. -/
def gather (significand : Nat) : List Nat → Nat × Nat
  | [] => (significand, 0)
  | d :: rest =>
    if significand * 10 + d < 18446744073709551616 then gather (significand * 10 + d) rest
    else (significand, rest.length + 1)

/-- The double nearest to `10 ^ k`. -/
def floatTenPow (k : Nat) : Float := Float.ofScientific 1 false k

/-- Scales `f` by `10 ^ e`, in steps of at most `10 ^ 308`; nothing if the scale is too large. -/
def scale (f : Float) (e : Int) : Option Float :=
  if e < -308 then
    if f == 0 then some f else scale (f / floatTenPow 308) (e + 308)
  else if e < 0 then some (f / floatTenPow (-e).toNat)
  else if e ≤ 308 then some (f * floatTenPow e.toNat)
  else if f == 0 then some f
  else none
termination_by (-e).toNat
decreasing_by omega

/-- The largest power of ten that is taken as it stands. -/
def powerBound : Nat := 2147483647

/-- The significand and the power of ten by which it is scaled. -/
def significand (n : Numeral) : Nat × Int :=
  let (s, extra) := gather 0 n.whole
  let (t, dropped) := gather s n.fraction
  (t, (extra : Int) - ((n.fraction.length : Int) - dropped))

/-- The magnitude of the double that the numeral stands for; nothing if it is out of range. -/
def magnitude? (n : Numeral) : Option Float :=
  let (s, e) := n.significand
  let power := n.exponent.getD 0
  if power.natAbs ≤ powerBound then scale s.toUInt64.toFloat (e + power)
  else if s ≠ 0 ∧ 0 < power then none
  else some (0 : Nat).toUInt64.toFloat

/-- The finite double that the numeral stands for. -/
def double (n : Numeral) : Except SyntaxError Number :=
  match n.magnitude? with
  | none => .error .numberOutOfRange
  | some f =>
    let x := if n.negative then -f else f
    if finite : x.isFinite = true then .ok (.float x finite) else .error .numberOutOfRange

/-- The number that a numeral stands for. -/
def value (n : Numeral) : Except SyntaxError Number :=
  match n.integer? with
  | some i => .ok i
  | none => n.double

end Numeral

end LetLang.Json
