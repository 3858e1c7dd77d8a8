import LetLang.Json.Basic
import Mathlib

/-!
# JSON numbers are finite doubles

A JSON number is read as the double nearest to it, and that double is always a finite one.  For an
integer this is not a matter of its type: 64 bits do not fit into the 53 bits of a mantissa, so the
conversion rounds, and rounding can overflow.  It is followed here through its two shifts.  The
exponent of the result stays far below 971, the largest one of a finite double (`inRange_round`),
and what has such an exponent is packed into a word whose exponent bits are not all set
(`unpackExponent_pack`).
-/

namespace LetLang

open Float.Model (Format UnpackedFloat)
open Float.Model.UnpackedFloat (Accuracy ExtendedMantissa Sign)

/-- A number whose exponent is at most the largest one of a finite double. -/
def InRange : UnpackedFloat → Prop
  | .zero _ => True
  | .finite _ _ exponent _ => exponent ≤ 971
  | .infinity _ => False
  | .notANumber => False

/-! ## Packed doubles -/

/-- A word whose exponent bits are not all set is a finite double. -/
lemma isFinite_unpack {word : BitVec 64}
    (h : @UnpackedFloat.unpackExponent .binary64 word ≠ -1#11) :
    (UnpackedFloat.unpack .binary64 word).isFinite = true := by
  unfold UnpackedFloat.unpack
  simp only [if_neg h]
  split
  · split <;> rfl
  · rfl

/-- The exponent bits of a number in range are not all set. -/
lemma unpackExponent_pack {u : UnpackedFloat} (h : InRange u) :
    @UnpackedFloat.unpackExponent .binary64 (UnpackedFloat.pack .binary64 u) ≠ -1#11 := by
  cases u with
  | zero s => simp [UnpackedFloat.pack, UnpackedFloat.packedZero]
  | infinity s => exact h.elim
  | notANumber => exact h.elim
  | finite s m e hm =>
    have hexponent : e ≤ 971 := h
    have hbias : ((Format.binary64.exponentBias : Nat) : Int) = 1023 := by decide
    have hbits : ((Format.binary64.mantissaBitsWithoutImplicit : Nat) : Int) = 52 := by decide
    have hbiased : (e + Format.binary64.exponentBias +
        Format.binary64.mantissaBitsWithoutImplicit).toNat < 2047 := by
      omega
    simp only [UnpackedFloat.pack]
    rw [if_neg (by omega)]
    split
    · rw [UnpackedFloat.unpackExponent_packComponents]
      intro heq
      have hword := congrArg BitVec.toNat heq
      simp only [BitVec.toNat_ofNat, BitVec.toNat_neg] at hword
      omega
    · rw [UnpackedFloat.unpackExponent_packComponents]
      decide

/-- A number in range is packed into a finite double. -/
lemma isFinite_pack {u : UnpackedFloat} (h : InRange u) :
    (Float.Model.pack u).isFinite = true :=
  isFinite_unpack (unpackExponent_pack h)

/-- The content of a finite double is in range. -/
lemma inRange_unpack {word : BitVec 64}
    (h : (UnpackedFloat.unpack .binary64 word).isFinite = true) :
    InRange (UnpackedFloat.unpack .binary64 word) := by
  have hbias : ((Format.binary64.exponentBias : Nat) : Int) = 1023 := by decide
  have hbits : ((Format.binary64.mantissaBitsWithoutImplicit : Nat) : Int) = 52 := by decide
  unfold UnpackedFloat.unpack at *
  by_cases hexponent : @UnpackedFloat.unpackExponent .binary64 word = -1#11
  · simp only [if_pos hexponent] at h
    split at h <;> cases h
  · have hlt : (@UnpackedFloat.unpackExponent .binary64 word).toNat < 2047 := by
      have hle : (@UnpackedFloat.unpackExponent .binary64 word).toNat < 2048 :=
        (@UnpackedFloat.unpackExponent .binary64 word).isLt
      have hne : (@UnpackedFloat.unpackExponent .binary64 word).toNat ≠ 2047 := by
        intro heq
        exact hexponent (BitVec.eq_of_toNat_eq heq)
      omega
    simp only [if_neg hexponent]
    split
    · next hzero =>
      -- a subnormal number has the exponent of the smallest normal ones
      have hsubnormal : (@UnpackedFloat.unpackExponent .binary64 word).toNat = 0 :=
        congrArg BitVec.toNat hzero
      split
      · trivial
      · simp only [InRange]
        omega
    · simp only [InRange]
      omega

/-- The negative of a finite double is finite. -/
lemma isFinite_neg {x : Float} (h : x.isFinite = true) : (-x).isFinite = true := by
  have hrange : InRange x.toModel.unpack := inRange_unpack h
  have hneg : InRange x.toModel.unpack.neg := by
    revert hrange
    cases x.toModel.unpack <;> exact id
  exact isFinite_pack hneg

/-! ## Rounding -/

/-- Shifting to the right does not enlarge a mantissa. -/
lemma shiftRight_mantissa_le (em : ExtendedMantissa) (n : Nat) :
    (em >>> n).mantissa ≤ em.mantissa := by
  change (n.repeat ExtendedMantissa.shiftRightOne em).mantissa ≤ em.mantissa
  induction n with
  | zero => exact Nat.le_refl _
  | succ n ih => exact Nat.le_trans (Nat.div_le_self _ 2) ih

/-- Rounding adds at most one to a mantissa. -/
lemma roundedMantissa_le (em : ExtendedMantissa) : em.roundedMantissa ≤ em.mantissa + 1 := by
  obtain ⟨m, _ | _, _ | _⟩ := em <;>
    simp only [ExtendedMantissa.roundedMantissa, ExtendedMantissa.accuracy,
      Accuracy.roundToNearestEven] <;> omega

/-- The shift to the target exponent does not enlarge a mantissa. -/
lemma shiftToTargetExponent_mantissa_le (m : Nat) (e : Int) :
    (UnpackedFloat.shiftToTargetExponent .binary64 m e .exact).1.mantissa ≤ m :=
  shiftRight_mantissa_le ⟨m, false, false⟩ _

/-- The exponent after the shift to the target exponent. -/
lemma shiftToTargetExponent_exponent (m : Nat) (e : Int) :
    (UnpackedFloat.shiftToTargetExponent .binary64 m e .exact).2 =
      max e (max (m.log2 + 1 + e - 53) (-1074)) := by
  have hbits : ((Format.binary64.mantissaBits : Nat) : Int) = 53 := by decide
  have hmin : Format.binary64.minExponent = -1074 := by decide
  simp only [UnpackedFloat.shiftToTargetExponent, UnpackedFloat.shiftToExponent,
    Format.targetExponent, Float.Model.totalExponent, hbits, hmin]
  omega

/-- A bound on a number bounds its logarithm. -/
lemma log2_lt_of_lt {m k : Nat} (hk : 0 < k) (h : m < 2 ^ k) : m.log2 < k := by
  rcases Nat.eq_zero_or_pos m with rfl | hpos
  · simpa using hk
  · exact (Nat.log2_lt (by omega)).mpr h

/-- A mantissa of at most 116 bits is rounded to a number in range. -/
lemma inRange_roundWithAccuracy (s : Sign) {m : Nat} {e : Int} (hm : m < 2 ^ 116) (he : e ≤ 0) :
    InRange (UnpackedFloat.roundWithAccuracy .binary64 s m e .exact) := by
  have hexponent := shiftToTargetExponent_exponent m e
  have hmantissa := shiftToTargetExponent_mantissa_le m e
  rcases hshift : UnpackedFloat.shiftToTargetExponent .binary64 m e .exact with ⟨em₁, e₁⟩
  rw [hshift] at hexponent hmantissa
  have hrounded : em₁.roundedMantissa ≤ m + 1 :=
    Nat.le_trans (roundedMantissa_le em₁) (Nat.succ_le_succ hmantissa)
  have hlog : m.log2 < 116 := log2_lt_of_lt (by decide) hm
  have hlog₁ : em₁.roundedMantissa.log2 < 117 := log2_lt_of_lt (by decide) (by omega)
  have hfinal := shiftToTargetExponent_exponent em₁.roundedMantissa e₁
  simp only [UnpackedFloat.roundWithAccuracy, hshift]
  split
  · trivial
  · simp only [InRange]
    simp only at hexponent
    omega

/-- A natural number of 64 bits is rounded to a number in range. -/
lemma inRange_round (s : Sign) {n : Nat} (hn : n < 2 ^ 64) :
    InRange (UnpackedFloat.round .binary64 s n 0) := by
  have hbits : ((Format.binary64.mantissaBits : Nat) : Int) = 53 := by decide
  have hmin : Format.binary64.minExponent = -1074 := by decide
  simp only [UnpackedFloat.round, UnpackedFloat.decreaseExponent, Format.targetExponent,
    Float.Model.totalExponent, hbits, hmin]
  apply inRange_roundWithAccuracy
  · -- a small number is first shifted to the left, by at most 52 bits
    have hshift : (0 - max ((n.log2 : Int) + 1 + 0 - 53) (-1074)).toNat ≤ 52 := by omega
    rw [Nat.shiftLeft_eq]
    calc n * 2 ^ (0 - max ((n.log2 : Int) + 1 + 0 - 53) (-1074)).toNat
      _ ≤ n * 2 ^ 52 := Nat.mul_le_mul_left n (Nat.pow_le_pow_right (by decide) hshift)
      _ < 2 ^ 64 * 2 ^ 52 := Nat.mul_lt_mul_of_pos_right hn (by decide)
      _ = 2 ^ 116 := by decide
  · omega

/-- A word of 64 bits is converted to a finite double. -/
lemma isFinite_ofUInt64 (n : UInt64) : n.toFloat.isFinite = true := by
  apply isFinite_pack
  change InRange (UnpackedFloat.normalize .binary64 (n.toNat : Int) 0 .positive)
  unfold UnpackedFloat.normalize
  split
  · next hlt =>
    have hneg := Std.compare_eq_lt.mp hlt
    omega
  · trivial
  · exact inRange_round .positive n.toNat_lt

namespace Json.Number

/-- The double of an integer is that of its magnitude, with its sign. -/
lemma toFloat_integer (n : Int) (h : -9223372036854775808 ≤ n ∧ n < 18446744073709551616) :
    (integer n h).toFloat =
      if n < 0 then -n.natAbs.toUInt64.toFloat else n.natAbs.toUInt64.toFloat := rfl

/-- Every JSON number is read as a finite double. -/
theorem isFinite_toFloat (n : Number) : n.toFloat.isFinite = true := by
  cases n with
  | integer n hrange =>
    have hmagnitude := isFinite_ofUInt64 n.natAbs.toUInt64
    rw [toFloat_integer]
    split
    · exact isFinite_neg hmagnitude
    · exact hmagnitude
  | float x hfinite => exact hfinite

end Json.Number

end LetLang
