import LetLang.Number.Shortest
import LetLang.Proofs.ExactDouble

/-!
# The interval of a magnitude

The magnitude of a finite double is the nearest double of a whole interval of rational numbers, and
`Binary.Rounds` says that a number lies in it.  The ends belong to the interval exactly if the
mantissa is even.

The interval ends half-way to the neighbours on both sides, and an end belongs to one of the two
intervals that meet there, because the mantissas of neighbours differ in parity
(`Binary.midpoint`).  So a number is nearer to the magnitude that it rounds to than to every other
one, except where it is as near to one with an odd mantissa (`Binary.Rounds.nearest`), and it rounds
to one magnitude only (`Binary.Rounds.unique`).
-/

namespace LetLang

/-- Which of two numbers is nearer to `q` depends on the side of their middle on which `q` lies. -/
lemma abs_sub_lt_iff_of_lt {r s q : ℚ} (h : r < s) :
    (|q - r| < |q - s| ↔ 2 * q < r + s) ∧ (|q - s| < |q - r| ↔ r + s < 2 * q) := by
  rcases abs_cases (q - r) with ⟨hr, _⟩ | ⟨hr, _⟩ <;>
    rcases abs_cases (q - s) with ⟨hs, _⟩ | ⟨hs, _⟩ <;>
    rw [hr, hs] <;>
    constructor <;> constructor <;> intro <;> linarith

/-- In the middle between two numbers both are equally near. -/
lemma abs_sub_eq_of_middle {r s q : ℚ} (h : r < s) (hq : 2 * q = r + s) : |q - r| = |q - s| :=
  le_antisymm (not_lt.mp (mt (abs_sub_lt_iff_of_lt h).2.mp hq.not_gt))
    (not_lt.mp (mt (abs_sub_lt_iff_of_lt h).1.mp hq.not_lt))

/-- A multiple of a power of two in units of a smaller one. -/
lemma mul_two_zpow_shift {e e' : ℤ} {k : ℕ} (h : e' = e + k) (c : ℕ) :
    (c : ℚ) * 2 ^ e' = (c * 2 ^ k : ℕ) * 2 ^ e := by
  rw [h, zpow_add₀ (by norm_num), zpow_natCast]
  push_cast
  ring

namespace Binary

/-! ## The ends -/

/-- The lower end of the numbers that round to `b`. -/
def lower (b : Binary) : ℚ := b.lowerQuarters * 2 ^ (b.exponent - 2)

/-- The upper end of the numbers that round to `b`. -/
def upper (b : Binary) : ℚ := b.upperQuarters * 2 ^ (b.exponent - 2)

/-- The number `q` rounds to `b`: it lies between the two ends, which belong to `b` exactly if its
mantissa is even. -/
def Rounds (b : Binary) (q : ℚ) : Prop :=
  if b.mantissa % 2 = 0 then b.lower ≤ q ∧ q ≤ b.upper else b.lower < q ∧ q < b.upper

/-- A number that rounds to `b` lies between the ends. -/
lemma Rounds.le {b : Binary} {q : ℚ} (h : b.Rounds q) : b.lower ≤ q ∧ q ≤ b.upper := by
  unfold Rounds at h
  split at h
  · exact h
  · exact ⟨h.1.le, h.2.le⟩

/-- The ends do not belong to an odd mantissa. -/
lemma Rounds.lt {b : Binary} {q : ℚ} (h : b.Rounds q) (hodd : b.mantissa % 2 ≠ 0) :
    b.lower < q ∧ q < b.upper := by
  rwa [Rounds, if_neg hodd] at h

/-- The lower end is below the magnitude by at least a quarter and at most a half of a unit. -/
lemma lowerQuarters_spec {b : Binary} (hpos : 0 < b.mantissa) :
    b.lowerQuarters + 1 ≤ 4 * b.mantissa ∧ 4 * b.mantissa ≤ b.lowerQuarters + 2 ∧
      (b.narrowBelow = true → b.lowerQuarters + 1 = 4 * b.mantissa) := by
  unfold lowerQuarters
  split
  · omega
  · next hwide => exact ⟨by omega, by omega, fun h => absurd h hwide⟩

/-- A magnitude in quarters of a unit of its mantissa. -/
lemma toRat_eq_quarters (b : Binary) :
    b.toRat = (4 * b.mantissa : ℕ) * 2 ^ (b.exponent - 2) := by
  have hpow : (2 : ℚ) ^ b.exponent = 2 ^ (b.exponent - 2) * 4 := by
    rw [zpow_sub₀ (by norm_num)]
    norm_num
  rw [toRat, hpow]
  push_cast
  ring

/-- A magnitude rounds to itself. -/
lemma rounds_toRat {b : Binary} (hpos : 0 < b.mantissa) : b.Rounds b.toRat := by
  obtain ⟨hlow, -, -⟩ := lowerQuarters_spec hpos
  have hunit : (0 : ℚ) < 2 ^ (b.exponent - 2) := by positivity
  have hlower : b.lower < b.toRat := by
    rw [lower, toRat_eq_quarters]
    exact mul_lt_mul_of_pos_right (by exact_mod_cast hlow) hunit
  have hupper : b.toRat < b.upper := by
    rw [upper, toRat_eq_quarters, upperQuarters]
    exact mul_lt_mul_of_pos_right (by push_cast; linarith) hunit
  unfold Rounds
  split
  · exact ⟨hlower.le, hupper.le⟩
  · exact ⟨hlower, hupper⟩

/-- What rounds to a positive magnitude is positive. -/
lemma Rounds.pos {b : Binary} {q : ℚ} (h : b.Rounds q) (hpos : 0 < b.mantissa) : 0 < q := by
  obtain ⟨-, hlow, -⟩ := lowerQuarters_spec hpos
  have hquarters : 0 < b.lowerQuarters := by omega
  have hlower : 0 < b.lower := by
    unfold lower
    positivity
  exact hlower.trans_le h.le.1

/-! ## Magnitudes -/

/-- The magnitude of a finite double, zero included. -/
structure IsDouble (b : Binary) : Prop where
  lt : b.mantissa < 2 ^ 53
  least : -1074 ≤ b.exponent
  normal : 2 ^ 52 ≤ b.mantissa ∨ b.exponent = -1074

/-- The magnitude of a double other than zero. -/
lemma isDouble_of_canonical {b : Binary} (h : Canonical b.mantissa b.exponent) : b.IsDouble :=
  ⟨h.lt, h.least, h.normal⟩

/-- Zero is a double. -/
lemma isDouble_zero : IsDouble ⟨0, -1074⟩ := ⟨by decide, le_rfl, .inr rfl⟩

/-- The larger of two exponents belongs to the larger magnitude. -/
lemma toRat_lt_of_exponent_lt {b b' : Binary} (hb : b.IsDouble) (hb' : b'.IsDouble)
    (h : b.exponent < b'.exponent) : b.toRat < b'.toRat := by
  obtain ⟨k, hk⟩ : ∃ k : ℕ, b'.exponent = b.exponent + (k + 1 : ℕ) :=
    ⟨(b'.exponent - b.exponent - 1).toNat, by omega⟩
  have hsmall := hb.lt
  have hleast := hb.least
  have hnormal : 2 ^ 52 ≤ b'.mantissa := hb'.normal.resolve_right (by omega)
  have hdouble : b'.mantissa * 2 ≤ b'.mantissa * 2 ^ (k + 1) :=
    Nat.mul_le_mul_left _ (Nat.le_self_pow (by omega) 2)
  have hmantissa : b.mantissa < b'.mantissa * 2 ^ (k + 1) := by omega
  rw [toRat, toRat, mul_two_zpow_shift hk]
  exact mul_lt_mul_of_pos_right (by exact_mod_cast hmantissa) (by positivity)

/-- Of two magnitudes the larger one does not have the smaller exponent. -/
lemma exists_shift {b b' : Binary} (hb : b.IsDouble) (hb' : b'.IsDouble) (h : b.toRat < b'.toRat) :
    ∃ k : ℕ, b'.exponent = b.exponent + k ∧ b.mantissa < b'.mantissa * 2 ^ k := by
  have hle : b.exponent ≤ b'.exponent :=
    not_lt.mp fun hgt => lt_asymm h (toRat_lt_of_exponent_lt hb' hb hgt)
  obtain ⟨k, hk⟩ : ∃ k : ℕ, b'.exponent = b.exponent + k :=
    ⟨(b'.exponent - b.exponent).toNat, by omega⟩
  have hunit : (0 : ℚ) < 2 ^ b.exponent := by positivity
  refine ⟨k, hk, ?_⟩
  rw [toRat, toRat, mul_two_zpow_shift hk, mul_lt_mul_iff_left₀ hunit] at h
  exact_mod_cast h

/-- A magnitude has one mantissa and one exponent. -/
lemma toRat_inj {b b' : Binary} (hb : b.IsDouble) (hb' : b'.IsDouble) (h : b.toRat = b'.toRat) :
    b = b' := by
  have hexponent : b.exponent = b'.exponent :=
    le_antisymm (not_lt.mp fun hgt => (toRat_lt_of_exponent_lt hb' hb hgt).ne' h)
      (not_lt.mp fun hlt => (toRat_lt_of_exponent_lt hb hb' hlt).ne h)
  have hmantissa : b.mantissa = b'.mantissa := by
    have hunit : (2 : ℚ) ^ b'.exponent ≠ 0 := zpow_ne_zero _ two_ne_zero
    rw [toRat, toRat, hexponent, mul_left_inj' hunit] at h
    exact_mod_cast h
  obtain ⟨m, e⟩ := b
  obtain ⟨m', e'⟩ := b'
  simp only at hexponent hmantissa
  rw [hexponent, hmantissa]

/-! ## Neighbours -/

/-- The ends of the intervals of two magnitudes in quarters of a unit of the smaller one: they lie
on the two sides of the middle between the magnitudes, and an end can lie in the middle only if the
mantissas differ in parity. -/
lemma quarters_midpoint {b b' : Binary} (hb : b.IsDouble) (hb' : b'.IsDouble) {k : ℕ}
    (hk : b'.exponent = b.exponent + k) (hlt : b.mantissa < b'.mantissa * 2 ^ k) :
    2 * b.upperQuarters ≤ 4 * b.mantissa + 4 * (b'.mantissa * 2 ^ k) ∧
      4 * b.mantissa + 4 * (b'.mantissa * 2 ^ k) ≤ 2 * (b'.lowerQuarters * 2 ^ k) ∧
      (2 * b.upperQuarters = 4 * b.mantissa + 4 * (b'.mantissa * 2 ^ k) ∨
        4 * b.mantissa + 4 * (b'.mantissa * 2 ^ k) = 2 * (b'.lowerQuarters * 2 ^ k) →
        b.mantissa % 2 ≠ b'.mantissa % 2) := by
  have hpos : 0 < b'.mantissa := Nat.pos_of_mul_pos_right (Nat.zero_lt_of_lt hlt)
  obtain ⟨-, hlow, hnarrow⟩ := lowerQuarters_spec hpos
  have hsmall := hb.lt
  unfold upperQuarters
  cases k with
  | zero =>
    simp only [pow_zero, mul_one] at hlt ⊢
    omega
  | succ k =>
    have hleast := hb.least
    have hnormal : 2 ^ 52 ≤ b'.mantissa := hb'.normal.resolve_right (by omega)
    have hpow : 0 < 2 ^ k := by positivity
    have hdouble : ∀ c : ℕ, c * 2 ^ (k + 1) = 2 * (c * 2 ^ k) := fun c => by ring
    rw [hdouble] at hlt
    rw [hdouble, hdouble]
    rcases hnormal.eq_or_lt with heq | hgt
    · -- the larger magnitude is a power of two, so that its lower end is narrow
      have hquarters : b'.lowerQuarters = 2 ^ 54 - 1 := by
        have hne : b'.exponent ≠ -1074 := by omega
        have := hnarrow (by simp [narrowBelow, ← heq, Parts.fractions, hne])
        omega
      rw [← heq] at hlt
      rw [hquarters, ← heq]
      generalize 2 ^ k = p at hlt hpow ⊢
      refine ⟨by omega, by omega, fun hmiddle => ?_⟩
      -- below it the mantissa has to be the largest one, which is odd
      have hlargest : b.mantissa = 2 ^ 53 - 1 := by
        rcases hmiddle with hmiddle | hmiddle <;> omega
      rw [hlargest]
      decide
    · -- all else is too far above a smaller exponent for an end to lie in the middle
      have hproduct : (2 ^ 52 + 1) * 2 ^ k ≤ b'.mantissa * 2 ^ k := Nat.mul_le_mul_right _ hgt
      have hends : 4 * (b'.mantissa * 2 ^ k) ≤ b'.lowerQuarters * 2 ^ k + 2 * 2 ^ k := by
        calc 4 * (b'.mantissa * 2 ^ k) = 4 * b'.mantissa * 2 ^ k := by ring
          _ ≤ (b'.lowerQuarters + 2) * 2 ^ k := Nat.mul_le_mul_right _ hlow
          _ = b'.lowerQuarters * 2 ^ k + 2 * 2 ^ k := by ring
      generalize b'.mantissa * 2 ^ k = here at *
      generalize b'.lowerQuarters * 2 ^ k = there at *
      generalize 2 ^ k = p at *
      refine ⟨by omega, by omega, fun hmiddle => ?_⟩
      rcases hmiddle with hmiddle | hmiddle <;> omega

/-- The intervals of two magnitudes end on the two sides of the middle between them, and an end can
lie in the middle only if the mantissas differ in parity. -/
lemma midpoint {b b' : Binary} (hb : b.IsDouble) (hb' : b'.IsDouble) (h : b.toRat < b'.toRat) :
    2 * b.upper ≤ b.toRat + b'.toRat ∧ b.toRat + b'.toRat ≤ 2 * b'.lower ∧
      (2 * b.upper = b.toRat + b'.toRat ∨ b.toRat + b'.toRat = 2 * b'.lower →
        b.mantissa % 2 ≠ b'.mantissa % 2) := by
  obtain ⟨k, hk, hlt⟩ := exists_shift hb hb' h
  obtain ⟨hupper, hlower, hparity⟩ := quarters_midpoint hb hb' hk hlt
  have hunit : (0 : ℚ) < 2 ^ (b.exponent - 2) := by positivity
  have hquarter : b'.exponent - 2 = b.exponent - 2 + k := by omega
  have hmiddle : b.toRat + b'.toRat =
      (4 * b.mantissa + 4 * (b'.mantissa * 2 ^ k) : ℕ) * 2 ^ (b.exponent - 2) := by
    rw [b.toRat_eq_quarters, b'.toRat_eq_quarters, mul_two_zpow_shift hquarter]
    push_cast
    ring
  have hbelow : 2 * b.upper = (2 * b.upperQuarters : ℕ) * 2 ^ (b.exponent - 2) := by
    rw [upper]
    push_cast
    ring
  have habove : 2 * b'.lower = (2 * (b'.lowerQuarters * 2 ^ k) : ℕ) * 2 ^ (b.exponent - 2) := by
    rw [lower, mul_two_zpow_shift hquarter]
    push_cast
    ring
  rw [hmiddle, hbelow, habove, mul_le_mul_iff_left₀ hunit, mul_le_mul_iff_left₀ hunit,
    mul_left_inj' hunit.ne', mul_left_inj' hunit.ne']
  exact ⟨by exact_mod_cast hupper, by exact_mod_cast hlower, by exact_mod_cast hparity⟩

/-- A number is nearest to the magnitude that it rounds to.  Another one is as near only if the
mantissa is even and the other one odd. -/
lemma Rounds.nearest {b b' : Binary} {q : ℚ} (h : b.Rounds q) (hb : b.IsDouble) (hb' : b'.IsDouble)
    (hne : b'.toRat ≠ b.toRat) :
    |q - b.toRat| < |q - b'.toRat| ∨
      |q - b.toRat| = |q - b'.toRat| ∧ b.mantissa % 2 = 0 ∧ b'.mantissa % 2 ≠ 0 := by
  obtain ⟨hlower, hupper⟩ := h.le
  rcases lt_or_gt_of_ne hne with hlt | hlt
  · -- the other magnitude is below, and `q` above the middle
    obtain ⟨-, hmiddle, hparity⟩ := midpoint hb' hb hlt
    rcases (show b'.toRat + b.toRat ≤ 2 * q by linarith).lt_or_eq with hgt | heq
    · exact .inl ((abs_sub_lt_iff_of_lt hlt).2.mpr hgt)
    · have heven : b.mantissa % 2 = 0 := by
        by_contra hodd
        linarith [(h.lt hodd).1]
      refine .inr ⟨(abs_sub_eq_of_middle hlt heq.symm).symm, heven, ?_⟩
      rw [← heven]
      exact hparity (.inr (by linarith))
  · -- the other magnitude is above, and `q` below the middle
    obtain ⟨hmiddle, -, hparity⟩ := midpoint hb hb' hlt
    rcases (show 2 * q ≤ b.toRat + b'.toRat by linarith).lt_or_eq with hgt | heq
    · exact .inl ((abs_sub_lt_iff_of_lt hlt).1.mpr hgt)
    · have heven : b.mantissa % 2 = 0 := by
        by_contra hodd
        linarith [(h.lt hodd).2]
      refine .inr ⟨abs_sub_eq_of_middle hlt heq, heven, ?_⟩
      rw [← heven]
      exact (hparity (.inl (by linarith))).symm

/-- A number rounds to one magnitude only. -/
theorem Rounds.unique {b b' : Binary} {q : ℚ} (h : b.Rounds q) (h' : b'.Rounds q)
    (hb : b.IsDouble) (hb' : b'.IsDouble) : b = b' := by
  refine toRat_inj hb hb' (not_ne_iff.mp fun hne => ?_)
  rcases h.nearest hb hb' hne.symm with hlt | ⟨heq, -, hodd⟩
  · rcases h'.nearest hb' hb hne with hlt' | ⟨heq', -, -⟩
    · exact lt_asymm hlt hlt'
    · exact hlt.ne' heq'
  · rcases h'.nearest hb' hb hne with hlt' | ⟨-, heven, -⟩
    · exact hlt'.ne' heq
    · exact hodd heven

end Binary

end LetLang
