import LetLang.Number.Parts
import LetLang.Json.Numeral
import LetLang.Proofs.FiniteDouble

/-!
# Doubles that are integers

A finite double other than zero has one mantissa and one exponent (`Canonical`), which can be read
off its 64 bits.  Rounding leaves them as they are, with any number of zeros behind the mantissa
(`roundWithAccuracy_mul_two_pow`).  So an integer that is a double is converted to that double
(`toFloat_of_toRat`), and a product with one is the other factor (`mul_floatTenPow_zero`).

The two zeros have no mantissa of this kind.  They are equal without being the same, and
`unsignedZero` makes them one.
-/

namespace LetLang

open Float.Model (Format UnpackedFloat)
open Float.Model.UnpackedFloat (Accuracy ExtendedMantissa Sign)

/-! ## The fields of a word -/

/-- The fraction of a word are its 52 low bits. -/
lemma toNat_unpackMantissa (word : BitVec 64) :
    (@UnpackedFloat.unpackMantissa .binary64 word).toNat = word.toNat % Parts.fractions := by
  rw [UnpackedFloat.unpackMantissa_def, BitVec.extractLsb'_toNat]
  rfl

/-- The biased exponent of a word are the 11 bits above the fraction. -/
lemma toNat_unpackExponent (word : BitVec 64) :
    (@UnpackedFloat.unpackExponent .binary64 word).toNat =
      word.toNat / Parts.fractions % Parts.exponents := by
  rw [UnpackedFloat.unpackExponent_def, BitVec.extractLsb'_toNat, Nat.shiftRight_eq_div_pow]
  rfl

/-- The sign of a word is its highest bit. -/
lemma sign_unpackSign (word : BitVec 64) :
    (Sign.ofBitVec (@UnpackedFloat.unpackSign .binary64 word) = .negative) ↔
      word.toNat / Parts.fractions / Parts.exponents % 2 = 1 := by
  have hbit : (@UnpackedFloat.unpackSign .binary64 word).toNat =
      word.toNat / Parts.fractions / Parts.exponents % 2 := by
    rw [UnpackedFloat.unpackSign_def, BitVec.extractLsb'_toNat, Nat.shiftRight_eq_div_pow,
      Nat.div_div_eq_div_mul]
    rfl
  rw [← hbit, Sign.ofBitVec]
  split
  · next h => simp [h]
  · next h =>
    have hne : (@UnpackedFloat.unpackSign .binary64 word).toNat ≠ 0 := by
      intro h0
      exact h (BitVec.eq_of_toNat_eq h0)
    have hlt := (@UnpackedFloat.unpackSign .binary64 word).isLt
    refine iff_of_true rfl ?_
    omega

/-- A hidden bit in front of a fraction counts `2 ^ 52`. -/
lemma toNat_hidden_bit (fraction : BitVec 52) :
    (1#1 ++ fraction).toNat = fraction.toNat + Parts.fractions := by
  rw [BitVec.toNat_append, ← Nat.shiftLeft_add_eq_or_of_lt fraction.isLt, Nat.add_comm]
  rfl

/-- The content of an unpacked double. -/
def Parts.ofUnpacked : UnpackedFloat → Parts
  | .notANumber => .nan
  | .infinity s => .infinite (s == .negative)
  | .zero s => .finite (s == .negative) ⟨0, -1074⟩
  | .finite s m e _ => .finite (s == .negative) ⟨m, e⟩

/-- The content of a word is what it is unpacked to. -/
lemma Parts.ofWord_toNat (word : BitVec 64) :
    Parts.ofWord word.toNat = Parts.ofUnpacked (UnpackedFloat.unpack .binary64 word) := by
  have hbias : ((Format.binary64.exponentBias : Nat) : Int) = 1023 := by decide
  have hsign : (word.toNat / Parts.fractions / Parts.exponents % 2 == 1) =
      (Sign.ofBitVec (@UnpackedFloat.unpackSign .binary64 word) == .negative) := by
    rw [Bool.eq_iff_iff, beq_iff_eq, beq_iff_eq, sign_unpackSign]
  unfold Parts.ofWord UnpackedFloat.unpack
  simp only [hsign, ← toNat_unpackMantissa, ← toNat_unpackExponent]
  have hfraction : (@UnpackedFloat.unpackMantissa .binary64 word).toNat = 0 ↔
      @UnpackedFloat.unpackMantissa .binary64 word = 0#52 :=
    BitVec.toNat_inj (y := 0#52)
  have hzero : (@UnpackedFloat.unpackExponent .binary64 word).toNat = 0 ↔
      @UnpackedFloat.unpackExponent .binary64 word = 0#11 :=
    BitVec.toNat_inj (y := 0#11)
  have hones : (@UnpackedFloat.unpackExponent .binary64 word).toNat = Parts.exponents - 1 ↔
      @UnpackedFloat.unpackExponent .binary64 word = -1#11 :=
    BitVec.toNat_inj (y := -1#11)
  by_cases hspecial : @UnpackedFloat.unpackExponent .binary64 word = -1#11
  · rw [if_pos (hones.mpr hspecial), if_pos hspecial]
    by_cases hf : @UnpackedFloat.unpackMantissa .binary64 word = 0#52
    · rw [if_pos (hfraction.mpr hf), if_pos hf, Parts.ofUnpacked]
    · rw [if_neg (mt hfraction.mp hf), if_neg hf, Parts.ofUnpacked]
  · rw [if_neg (mt hones.mp hspecial), if_neg hspecial]
    by_cases hsubnormal : @UnpackedFloat.unpackExponent .binary64 word = 0#11
    · rw [if_pos (hzero.mpr hsubnormal), if_pos hsubnormal]
      by_cases hf : @UnpackedFloat.unpackMantissa .binary64 word = 0#52
      · rw [dif_pos hf, Parts.ofUnpacked, hfraction.mpr hf]
      · rw [dif_neg hf, Parts.ofUnpacked, hzero.mpr hsubnormal, hbias]
        rfl
    · rw [if_neg (mt hzero.mp hsubnormal), if_neg hsubnormal, Parts.ofUnpacked,
        toNat_hidden_bit, hbias]
      rfl

/-- The content of a double is what it is unpacked to. -/
lemma Parts.ofFloat_eq (x : Float) : Parts.ofFloat x = Parts.ofUnpacked x.toModel.unpack :=
  Parts.ofWord_toNat x.toModel.toBits.toBitVec

/-- Doubles that are unpacked to the same are the same. -/
lemma eq_of_unpack_eq {x y : Float} (h : x.toModel.unpack = y.toModel.unpack) : x = y := by
  obtain ⟨⟨⟨u⟩, hu⟩⟩ := x
  obtain ⟨⟨⟨v⟩, hv⟩⟩ := y
  obtain rfl : u = v := (UnpackedFloat.unpack_inj_of_valid hu hv).mp h
  rfl

/-! ## Canonical mantissas -/

/-- The mantissa and the exponent of a finite double other than zero: the mantissa has 53 bits, or
fewer with the least exponent. -/
structure Canonical (m : Nat) (e : Int) : Prop where
  pos : 0 < m
  lt : m < 2 ^ 53
  least : -1074 ≤ e
  greatest : e ≤ 971
  normal : 2 ^ 52 ≤ m ∨ e = -1074

/-- The content of every double is canonical. -/
lemma canonical_of_ofFloat {x : Float} {negative : Bool} {m : Nat} {e : Int}
    (h : Parts.ofFloat x = .finite negative ⟨m, e⟩) (hpos : 0 < m) : Canonical m e := by
  unfold Parts.ofFloat Parts.ofWord Parts.fractions Parts.exponents at h
  simp only at h
  split at h
  · split at h <;> cases h
  · split at h
    · simp only [Parts.finite.injEq, Binary.mk.injEq] at h
      exact ⟨hpos, by omega, by omega, by omega, .inr (by omega)⟩
    · simp only [Parts.finite.injEq, Binary.mk.injEq] at h
      exact ⟨hpos, by omega, by omega, by omega, .inl (by omega)⟩

/-- A canonical mantissa has 53 bits exactly if it is normal. -/
lemma Canonical.log2_eq_iff {m : Nat} {e : Int} (h : Canonical m e) :
    m.log2 + 1 = 53 ↔ 2 ^ 52 ≤ m := by
  have hlt : m.log2 < 53 := (Nat.log2_lt h.pos.ne').mpr h.lt
  have hle : 52 ≤ m.log2 ↔ 2 ^ 52 ≤ m := Nat.le_log2 h.pos.ne'
  omega

/-- The word of a normal mantissa: the hidden bit is dropped and put in front again. -/
lemma unpack_packComponents_normal {m : Nat} {e : Int} (h : Canonical m e) (hnormal : 2 ^ 52 ≤ m)
    (s : Sign) :
    UnpackedFloat.unpack .binary64 (UnpackedFloat.packComponents .binary64 s
      (BitVec.ofNat 11 (e + 1023 + 52).toNat) (BitVec.ofNat 52 m)) = .finite s m e h.pos := by
  obtain ⟨-, hlt, hleast, hgreatest, -⟩ := h
  have hbias : ((Format.binary64.exponentBias : Nat) : Int) = 1023 := by decide
  have hexponent : (BitVec.ofNat 11 (e + 1023 + 52).toNat).toNat = (e + 1023 + 52).toNat := by
    rw [BitVec.toNat_ofNat, Nat.mod_eq_of_lt (by omega)]
  have hones : BitVec.ofNat 11 (e + 1023 + 52).toNat ≠ -1#11 := by
    intro heq
    have hword : (e + 1023 + 52).toNat = 2047 := hexponent.symm.trans (congrArg BitVec.toNat heq)
    omega
  have hzero : BitVec.ofNat 11 (e + 1023 + 52).toNat ≠ 0#11 := by
    intro heq
    have hword : (e + 1023 + 52).toNat = 0 := hexponent.symm.trans (congrArg BitVec.toNat heq)
    omega
  have hmantissa : (1#1 ++ BitVec.ofNat 52 m).toNat = m := by
    rw [toNat_hidden_bit, BitVec.toNat_ofNat, Parts.fractions]
    omega
  simp only [UnpackedFloat.unpack, UnpackedFloat.unpackMantissa_packComponents,
    UnpackedFloat.unpackExponent_packComponents, UnpackedFloat.unpackSign_packComponents,
    UnpackedFloat.Sign.ofBitVec_toBitVec, if_neg hones, if_neg hzero, hmantissa, hexponent, hbias]
  congr 1
  omega

/-- The word of a subnormal mantissa, which is its fraction. -/
lemma unpack_packComponents_subnormal {m : Nat} (hpos : 0 < m) (hlt : m < 2 ^ 52) (s : Sign) :
    UnpackedFloat.unpack .binary64 (UnpackedFloat.packComponents .binary64 s 0#11
      (BitVec.ofNat 52 m)) = .finite s m (-1074) hpos := by
  have hbias : ((Format.binary64.exponentBias : Nat) : Int) = 1023 := by decide
  have hmantissa : (BitVec.ofNat 52 m).toNat = m := by
    rw [BitVec.toNat_ofNat, Nat.mod_eq_of_lt hlt]
  have hne : BitVec.ofNat 52 m ≠ 0#52 := by
    intro heq
    have hword : m = 0 := hmantissa.symm.trans (congrArg BitVec.toNat heq)
    omega
  have hones : 0#11 ≠ -1#11 := by decide
  simp only [UnpackedFloat.unpack, UnpackedFloat.unpackMantissa_packComponents,
    UnpackedFloat.unpackExponent_packComponents, UnpackedFloat.unpackSign_packComponents,
    UnpackedFloat.Sign.ofBitVec_toBitVec, if_neg hones, if_pos, dif_neg hne, hmantissa, hbias]
  rfl

/-- A canonical mantissa is packed into a word from which it is unpacked again. -/
lemma unpack_pack {m : Nat} {e : Int} (h : Canonical m e) (s : Sign) :
    UnpackedFloat.unpack .binary64 (UnpackedFloat.pack .binary64 (.finite s m e h.pos)) =
      .finite s m e h.pos := by
  have hbias : ((Format.binary64.exponentBias : Nat) : Int) = 1023 := by decide
  have hbits : ((Format.binary64.mantissaBitsWithoutImplicit : Nat) : Int) = 52 := by decide
  have hmantissaBits : Format.binary64.mantissaBits = 53 := by decide
  have hgreatest := h.greatest
  simp only [UnpackedFloat.pack, hbias, hbits, hmantissaBits]
  rw [if_neg (by omega)]
  split
  · next hlog => exact unpack_packComponents_normal h (h.log2_eq_iff.mp hlog) s
  · next hlog =>
    have hsmall : ¬ 2 ^ 52 ≤ m := mt h.log2_eq_iff.mpr hlog
    obtain rfl : e = -1074 := h.normal.resolve_left hsmall
    exact unpack_packComponents_subnormal h.pos (Nat.lt_of_not_le hsmall) s

/-! ## Rounding what needs no rounding -/

/-- A power of two adds its exponent to the logarithm. -/
lemma log2_mul_two_pow {m : Nat} (hm : 0 < m) (k : Nat) : (m * 2 ^ k).log2 = m.log2 + k := by
  induction k with
  | zero => simp
  | succ k ih =>
    have hne : m * 2 ^ k ≠ 0 := (Nat.mul_pos hm (Nat.two_pow_pos k)).ne'
    have hdouble : m * 2 ^ (k + 1) = 2 * (m * 2 ^ k) := by ring
    rw [hdouble, Nat.log2_two_mul hne, ih, Nat.add_assoc]

/-- Shifting zeros out of a mantissa loses nothing. -/
lemma shiftRight_mul_two_pow (m k : Nat) :
    (ExtendedMantissa.mk (m * 2 ^ k) false false) >>> k = ⟨m, false, false⟩ := by
  induction k generalizing m with
  | zero =>
    rw [Nat.pow_zero, Nat.mul_one]
    rfl
  | succ k ih =>
    have hdouble : m * 2 ^ (k + 1) = 2 * m * 2 ^ k := by ring
    have hstep : (ExtendedMantissa.mk (2 * m * 2 ^ k) false false) >>> (k + 1) =
        ((ExtendedMantissa.mk (2 * m * 2 ^ k) false false) >>> k).shiftRightOne := rfl
    rw [hdouble, hstep, ih]
    simp [ExtendedMantissa.shiftRightOne]

/-- The exponent to which a canonical mantissa is shifted is its own. -/
lemma Canonical.targetExponent {m : Nat} {e : Int} (h : Canonical m e) :
    Format.binary64.targetExponent (Float.Model.totalExponent m e) = e := by
  have hbits : ((Format.binary64.mantissaBits : Nat) : Int) = 53 := by decide
  have hmin : Format.binary64.minExponent = -1074 := by decide
  have hlog : m.log2 < 53 := (Nat.log2_lt h.pos.ne').mpr h.lt
  have hnormal := h.log2_eq_iff
  have hleast := h.least
  rw [Format.targetExponent, Float.Model.totalExponent, hbits, hmin]
  rcases h.normal with hfull | hsubnormal <;> omega

/-- Zeros that follow a mantissa count as much as the exponent that is taken off. -/
lemma totalExponent_mul_two_pow {m : Nat} (hm : 0 < m) (e : Int) (k : Nat) :
    Float.Model.totalExponent (m * 2 ^ k) (e - k) = Float.Model.totalExponent m e := by
  rw [Float.Model.totalExponent, Float.Model.totalExponent, log2_mul_two_pow hm]
  omega

/-- A canonical mantissa with further zeros is shifted to its own exponent. -/
lemma shiftToTargetExponent_mul_two_pow {m : Nat} {e : Int} (h : Canonical m e) (k : Nat) :
    UnpackedFloat.shiftToTargetExponent .binary64 (m * 2 ^ k) (e - k) .exact =
      (⟨m, false, false⟩, e) := by
  have hshift : (e - (e - k)).toNat = k := by omega
  rw [UnpackedFloat.shiftToTargetExponent, totalExponent_mul_two_pow h.pos, h.targetExponent]
  simp only [UnpackedFloat.shiftToExponent, hshift, ExtendedMantissa.ofMantissaAndAccuracy,
    shiftRight_mul_two_pow]
  congr 1
  omega

/-- A canonical mantissa with further zeros is rounded to itself. -/
lemma roundWithAccuracy_mul_two_pow {m : Nat} {e : Int} (h : Canonical m e) (s : Sign) (k : Nat) :
    UnpackedFloat.roundWithAccuracy .binary64 s (m * 2 ^ k) (e - k) .exact =
      .finite s m e h.pos := by
  have hagain := shiftToTargetExponent_mul_two_pow h 0
  rw [Nat.pow_zero, Nat.mul_one, Int.ofNat_zero, Int.sub_zero] at hagain
  have hrounded : (ExtendedMantissa.mk m false false).roundedMantissa = m := rfl
  simp only [UnpackedFloat.roundWithAccuracy, shiftToTargetExponent_mul_two_pow h, hrounded, hagain]
  rw [dif_neg h.pos.ne']

/-! ## Whole numbers -/

/-- The number that a mantissa and an exponent stand for. -/
def Binary.toRat (b : Binary) : ℚ := b.mantissa * 2 ^ b.exponent

/-- The number that a double stands for, if it is finite. -/
def Parts.toRat? : Parts → Option ℚ
  | .finite negative b => some (if negative then -b.toRat else b.toRat)
  | .infinite _ => none
  | .nan => none

lemma Binary.toRat_nonneg (b : Binary) : 0 ≤ b.toRat := by
  unfold Binary.toRat
  positivity

lemma Binary.toRat_pos {b : Binary} (hpos : 0 < b.mantissa) : 0 < b.toRat := by
  unfold Binary.toRat
  positivity

/-- With an exponent that is not negative the zeros of the number follow its mantissa. -/
lemma Binary.toRat_ofNat_eq_iff {m k n : Nat} :
    Binary.toRat ⟨m, .ofNat k⟩ = n ↔ m * 2 ^ k = n := by
  rw [Binary.toRat, Int.ofNat_eq_natCast, zpow_natCast]
  exact_mod_cast Iff.rfl

/-- With a negative exponent the mantissa of a whole number ends in zeros. -/
lemma Binary.toRat_negSucc_eq_iff {m k n : Nat} :
    Binary.toRat ⟨m, .negSucc k⟩ = n ↔ m = n * 2 ^ (k + 1) := by
  rw [Binary.toRat, zpow_negSucc, ← div_eq_mul_inv, div_eq_iff (by positivity)]
  exact_mod_cast Iff.rfl

/-- A number other than zero has a mantissa other than zero. -/
lemma Binary.pos_of_toRat {b : Binary} {n : Nat} (hpos : 0 < b.mantissa) (hn : b.toRat = n) :
    0 < n := by
  have hrat := Binary.toRat_pos hpos
  rw [hn] at hrat
  exact_mod_cast hrat

/-- The double is an integer of a magnitude below `2 ^ 64`. -/
def IsWordInteger (x : Float) : Prop :=
  ∃ n : ℤ, |n| < 2 ^ 64 ∧ (Parts.ofFloat x).toRat? = some (n : ℚ)

/-- The magnitude of an integer is a natural number. -/
lemma Binary.toRat_eq_natAbs {b : Binary} {negative : Bool} {n : ℤ}
    (h : (if negative then -b.toRat else b.toRat) = (n : ℚ)) : b.toRat = n.natAbs := by
  rw [Nat.cast_natAbs, Int.cast_abs, ← h]
  cases negative with
  | true => rw [if_pos rfl, abs_neg, abs_of_nonneg b.toRat_nonneg]
  | false => rw [if_neg Bool.false_ne_true, abs_of_nonneg b.toRat_nonneg]

/-- The magnitude of a double that is an integer is a natural number. -/
lemma IsWordInteger.exists_toRat {x : Float} (h : IsWordInteger x) :
    ∃ negative b n, Parts.ofFloat x = .finite negative b ∧ b.toRat = (n : Nat) ∧ n < 2 ^ 64 := by
  obtain ⟨n, hlt, hn⟩ := h
  cases hx : Parts.ofFloat x with
  | nan => simp [hx, Parts.toRat?] at hn
  | infinite negative => simp [hx, Parts.toRat?] at hn
  | finite negative b =>
    rw [hx, Parts.toRat?, Option.some.injEq] at hn
    rw [Int.abs_eq_natAbs] at hlt
    exact ⟨negative, b, n.natAbs, rfl, Binary.toRat_eq_natAbs hn, by exact_mod_cast hlt⟩

/-- The test for whole numbers finds the number. -/
lemma Binary.whole?_of_toRat {b : Binary} {n : Nat} (h : b.toRat = n) : b.whole? = some n := by
  obtain ⟨m, k | k⟩ := b
  · rw [Binary.toRat_ofNat_eq_iff] at h
    simp only [Binary.whole?, Nat.shiftLeft_eq, h]
  · rw [Binary.toRat_negSucc_eq_iff] at h
    have hshift : m >>> (k + 1) = n := by
      rw [h, Nat.shiftRight_eq_div_pow, Nat.mul_div_cancel _ (Nat.two_pow_pos _)]
    simp only [Binary.whole?, hshift, Nat.shiftLeft_eq, if_pos h.symm]

/-- The natural number that a canonical mantissa and its exponent stand for is rounded to them. -/
lemma round_of_toRat {b : Binary} {n : Nat} (h : Canonical b.mantissa b.exponent)
    (hn : b.toRat = n) (s : Sign) :
    UnpackedFloat.round .binary64 s n 0 = .finite s b.mantissa b.exponent h.pos := by
  have hpos := Binary.pos_of_toRat h.pos hn
  obtain ⟨m, k | k⟩ := b
  · -- the number ends in the zeros of the exponent, which rounding shifts out
    rw [Binary.toRat_ofNat_eq_iff] at hn
    have htotal := totalExponent_mul_two_pow h.pos (.ofNat k) k
    have hround := roundWithAccuracy_mul_two_pow h s k
    have hexponent : Int.ofNat k - (k : Int) = 0 := Int.sub_self _
    have hshift : (0 - Int.ofNat k).toNat = 0 := by simp
    rw [hexponent, hn] at htotal hround
    simp only [UnpackedFloat.round, UnpackedFloat.decreaseExponent, htotal, h.targetExponent,
      hshift]
    exact hround
  · -- the number is short, and is first shifted to the left as far as the mantissa goes
    rw [Binary.toRat_negSucc_eq_iff] at hn
    have htotal := totalExponent_mul_two_pow hpos 0 (k + 1)
    have hround := roundWithAccuracy_mul_two_pow h s 0
    have hexponent : 0 - ((k + 1 : Nat) : Int) = .negSucc k := by omega
    have hshift : (0 - Int.negSucc k).toNat = k + 1 := by omega
    rw [hexponent, ← hn] at htotal
    rw [Nat.pow_zero, Nat.mul_one, Int.ofNat_zero, Int.sub_zero] at hround
    simp only [UnpackedFloat.round, UnpackedFloat.decreaseExponent, ← htotal, h.targetExponent,
      hshift, Nat.shiftLeft_eq, ← hn, hexponent]
    exact hround

/-! ## From whole numbers to doubles -/

/-- The sign of a number. -/
def signOf (negative : Bool) : Sign := if negative then .negative else .positive

/-- What a finite double is unpacked to, by its content. -/
lemma unpack_cases {x : Float} {negative : Bool} {b : Binary}
    (hx : Parts.ofFloat x = .finite negative b) :
    (b.mantissa = 0 ∧ ∃ s, x.toModel.unpack = .zero s) ∨
      ∃ hpos : 0 < b.mantissa,
        x.toModel.unpack = .finite (signOf negative) b.mantissa b.exponent hpos := by
  rw [Parts.ofFloat_eq] at hx
  cases hu : x.toModel.unpack with
  | infinity s => simp [hu, Parts.ofUnpacked] at hx
  | notANumber => simp [hu, Parts.ofUnpacked] at hx
  | zero s =>
    simp only [hu, Parts.ofUnpacked, Parts.finite.injEq] at hx
    obtain ⟨-, rfl⟩ := hx
    exact .inl ⟨rfl, s, rfl⟩
  | finite s m e hm =>
    simp only [hu, Parts.ofUnpacked, Parts.finite.injEq] at hx
    obtain ⟨rfl, rfl⟩ := hx
    refine .inr ⟨hm, ?_⟩
    cases s <;> rfl

/-- What a double other than zero is unpacked to, by its content. -/
lemma unpack_of_ofFloat {x : Float} {negative : Bool} {b : Binary}
    (hx : Parts.ofFloat x = .finite negative b) (hpos : 0 < b.mantissa) :
    x.toModel.unpack = .finite (signOf negative) b.mantissa b.exponent hpos := by
  rcases unpack_cases hx with ⟨hzero, -⟩ | ⟨_, hunpack⟩
  · exact absurd hzero hpos.ne'
  · exact hunpack

/-- The negative of a double has the other sign. -/
lemma unpack_neg {x : Float} {s : Sign} {m : Nat} {e : Int} (h : Canonical m e)
    (hx : x.toModel.unpack = .finite s m e h.pos) :
    (-x).toModel.unpack = .finite (-s) m e h.pos := by
  change UnpackedFloat.unpack .binary64 (UnpackedFloat.pack .binary64 x.toModel.unpack.neg) = _
  rw [hx]
  exact unpack_pack h (-s)

/-- The double nearest to a whole number that needs no rounding. -/
lemma unpack_toFloat {b : Binary} {n : Nat} (h : Canonical b.mantissa b.exponent)
    (hn : b.toRat = n) (hlt : n < 2 ^ 64) :
    n.toUInt64.toFloat.toModel.unpack = .finite .positive b.mantissa b.exponent h.pos := by
  have hword : n.toUInt64.toNat = n := Nat.mod_eq_of_lt hlt
  have hpos := Binary.pos_of_toRat h.pos hn
  have hnormalize : UnpackedFloat.normalize .binary64 (n.toUInt64.toNat : Int) 0 .positive =
      .finite .positive b.mantissa b.exponent h.pos := by
    have hcompare : compare (n : Int) 0 = .gt := Std.compare_eq_gt.mpr (by omega)
    rw [hword, UnpackedFloat.normalize, hcompare]
    exact round_of_toRat h hn .positive
  change UnpackedFloat.unpack .binary64 (UnpackedFloat.pack .binary64
    (UnpackedFloat.normalize .binary64 (n.toUInt64.toNat : Int) 0 .positive)) = _
  rw [hnormalize]
  exact unpack_pack h .positive

/-- The double nearest to a whole number that is a double itself is that double. -/
theorem toFloat_of_toRat {x : Float} {negative : Bool} {b : Binary} {n : Nat}
    (hx : Parts.ofFloat x = .finite negative b) (hpos : 0 < b.mantissa) (hn : b.toRat = n)
    (hlt : n < 2 ^ 64) :
    (if negative then -n.toUInt64.toFloat else n.toUInt64.toFloat) = x := by
  have hcanonical : Canonical b.mantissa b.exponent := canonical_of_ofFloat hx hpos
  have hunpack := unpack_of_ofFloat hx hpos
  have hn' := unpack_toFloat hcanonical hn hlt
  refine eq_of_unpack_eq ?_
  rw [hunpack]
  cases negative with
  | false => exact hn'
  | true => exact unpack_neg hcanonical hn'

/-- The double nearest to `10 ^ 0` is one. -/
lemma unpack_floatTenPow_zero : (Json.Numeral.floatTenPow 0).toModel.unpack =
    .finite .positive (2 ^ 52) (-52) (by decide) := by
  rfl

/-- A product with one needs no rounding. -/
lemma mul_floatTenPow_zero {x : Float} {s : Sign} {m : Nat} {e : Int} (h : Canonical m e)
    (hx : x.toModel.unpack = .finite s m e h.pos) : x * Json.Numeral.floatTenPow 0 = x := by
  refine eq_of_unpack_eq ?_
  have hmul : UnpackedFloat.mul .binary64 x.toModel.unpack
      (Json.Numeral.floatTenPow 0).toModel.unpack = .finite s m e h.pos := by
    rw [hx, unpack_floatTenPow_zero]
    have hsign : s * .positive = s := by cases s <;> rfl
    simp only [UnpackedFloat.mul, hsign]
    exact roundWithAccuracy_mul_two_pow h s 52
  change UnpackedFloat.unpack .binary64 (UnpackedFloat.pack .binary64
    (UnpackedFloat.mul .binary64 x.toModel.unpack
      (Json.Numeral.floatTenPow 0).toModel.unpack)) = _
  rw [hmul, hx]
  exact unpack_pack h s

/-! ## Zeros -/

/-- The double itself, but without the sign of a zero. -/
def unsignedZero (x : Float) : Float := if x == 0 then 0 else x

/-- Doubles are equal by what they are unpacked to. -/
lemma beq_eq_true_iff {x y : Float} :
    (x == y) = true ↔ x.toModel.unpack ≠ .notANumber ∧ y.toModel.unpack ≠ .notANumber ∧
      (x.toModel.unpack = y.toModel.unpack ∨
        x.toModel.unpack = .zero .positive ∧ y.toModel.unpack = .zero .negative ∨
        x.toModel.unpack = .zero .negative ∧ y.toModel.unpack = .zero .positive) :=
  UnpackedFloat.beq_iff_ne_notANumber_and_eq _ _

/-- Just the zeros equal zero. -/
lemma beq_zero_iff {x : Float} : (x == 0) = true ↔ ∃ s, x.toModel.unpack = .zero s := by
  have hzero : (0 : Float).toModel.unpack = .zero .positive := rfl
  rw [beq_eq_true_iff, hzero]
  constructor
  · rintro ⟨-, -, h | ⟨-, h⟩ | ⟨h, -⟩⟩
    · exact ⟨_, h⟩
    · cases h
    · exact ⟨_, h⟩
  · rintro ⟨s, hs⟩
    rw [hs]
    cases s <;> simp

/-- A double whose mantissa is zero is a zero. -/
lemma unsignedZero_of_zero {x : Float} {negative : Bool} {b : Binary}
    (hx : Parts.ofFloat x = .finite negative b) (hzero : b.mantissa = 0) : unsignedZero x = 0 := by
  rcases unpack_cases hx with ⟨-, hunpack⟩ | ⟨hpos, -⟩
  · exact if_pos (beq_zero_iff.mpr hunpack)
  · exact absurd hzero hpos.ne'

/-- A double whose mantissa is not zero is no zero. -/
lemma unsignedZero_of_pos {x : Float} {negative : Bool} {b : Binary}
    (hx : Parts.ofFloat x = .finite negative b) (hpos : 0 < b.mantissa) : unsignedZero x = x := by
  refine if_neg (mt beq_zero_iff.mp ?_)
  rintro ⟨s, hs⟩
  rw [unpack_of_ofFloat hx hpos] at hs
  cases hs

/-- Only the negative zero has a sign to lose. -/
lemma unsignedZero_eq {x : Float} (hx : x ≠ -0) : unsignedZero x = x := by
  unfold unsignedZero
  split
  · next h =>
    obtain ⟨s, hs⟩ := beq_zero_iff.mp h
    cases s with
    | positive => exact eq_of_unpack_eq hs.symm
    | negative => exact absurd (eq_of_unpack_eq hs) hx
  · rfl

/-- Without the sign of a zero a number is equal to what it was. -/
lemma unsignedZero_beq {x : Float} (hx : x.isFinite = true) : (unsignedZero x == x) = true := by
  have hnumber : x.toModel.unpack ≠ .notANumber := by
    intro h
    have hfinite : x.toModel.unpack.isFinite = true := hx
    rw [h] at hfinite
    cases hfinite
  unfold unsignedZero
  split
  · next h =>
    obtain ⟨s, hs⟩ := beq_zero_iff.mp h
    have hzero : (0 : Float).toModel.unpack = .zero .positive := rfl
    rw [beq_eq_true_iff, hs, hzero]
    cases s <;> simp
  · exact beq_eq_true_iff.mpr ⟨hnumber, hnumber, .inl rfl⟩

end LetLang
