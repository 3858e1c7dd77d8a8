import LetLang.Proofs.PlainNumeral

/-!
# The text of a number is nearest to it

Rounding to the nearest double is stated here for all doubles at once: `RoundsTo q x` says that no
double is nearer to the rational number `q` than `x` is, that the word of `x` ends in a zero bit if
another double is as near, and that `q` is not so large that it is rounded to an infinity.

The digits of a magnitude stand for a number of its interval, which is nearer to the magnitude than
to all others.  With the sign in front it is also nearer than to all doubles of the other sign
(`isNearest_signed`).  So the text of a finite double, read as an exact number, is rounded to the
double and to nothing else (`numberText_identifies`).
-/

namespace LetLang

/-! ## Rounding -/

/-- The least magnitude that is rounded to an infinity.  It is half-way between the largest finite
double and the power of two that follows. -/
def overflowBound : ℚ := 2 ^ 1024 - 2 ^ 970

/-- The number `q` is rounded to the double `x`: to the nearest one, and to the one whose last bit
is zero if two are equally near. -/
inductive RoundsTo (q : ℚ) (x : Float) : Prop
  /-- A number in range is rounded to a finite double. -/
  | finite {v : ℚ} (value : (Parts.ofFloat x).toRat? = some v) (inRange : |q| < overflowBound)
      (nearest : ∀ y w, (Parts.ofFloat y).toRat? = some w → |q - v| ≤ |q - w|)
      (even : ∀ y w, (Parts.ofFloat y).toRat? = some w → w ≠ v → |q - v| = |q - w| →
        x.toBits.toNat % 2 = 0)
  /-- A number out of range is rounded to an infinity. -/
  | infinite {negative : Bool} (value : Parts.ofFloat x = .infinite negative)
      (outOfRange : overflowBound ≤ if negative then -q else q)

/-- The number that a text of digits stands for, with or without a minus sign and a point. -/
def textValue (text : String) : ℚ :=
  match text.toList with
  | '-' :: digits => -(Decimal.ofText digits).toRat
  | digits => (Decimal.ofText digits).toRat

/-- The bound in quarters of the largest unit. -/
lemma overflowBound_eq : overflowBound = ((2 ^ 55 - 2 : ℕ) : ℚ) * 2 ^ (969 : ℤ) := by
  have hnext : (2 : ℚ) ^ 1024 = 2 ^ 55 * 2 ^ 969 := by rw [← pow_add]
  have hunit : (2 : ℚ) ^ 970 = 2 * 2 ^ 969 := by rw [← pow_succ']
  have hcast : (2 : ℚ) ^ (969 : ℤ) = 2 ^ 969 := zpow_natCast 2 969
  rw [overflowBound, hnext, hunit, hcast, ← sub_mul]
  norm_num only

namespace Binary

/-- What rounds to a finite magnitude is not rounded to an infinity. -/
lemma Rounds.lt_overflowBound {b : Binary} {q : ℚ} (h : b.Rounds q)
    (hb : Canonical b.mantissa b.exponent) : q < overflowBound := by
  have hunit : (2 : ℚ) ^ (b.exponent - 2) ≤ 2 ^ (969 : ℤ) :=
    zpow_le_zpow_right₀ (by norm_num) (by have := hb.greatest; omega)
  have hlt := hb.lt
  rw [overflowBound_eq]
  rcases Nat.mod_two_eq_zero_or_one b.mantissa with heven | hodd
  · -- an even mantissa is not the largest one
    have hquarters : b.upperQuarters < 2 ^ 55 - 2 := by
      unfold upperQuarters
      omega
    calc q ≤ b.upper := h.le.2
      _ ≤ b.upperQuarters * 2 ^ (969 : ℤ) := mul_le_mul_of_nonneg_left hunit (Nat.cast_nonneg _)
      _ < _ := mul_lt_mul_of_pos_right (by exact_mod_cast hquarters) (by positivity)
  · have hquarters : b.upperQuarters ≤ 2 ^ 55 - 2 := by
      unfold upperQuarters
      omega
    calc q < b.upper := (h.lt (by omega)).2
      _ ≤ b.upperQuarters * 2 ^ (969 : ℤ) := mul_le_mul_of_nonneg_left hunit (Nat.cast_nonneg _)
      _ ≤ _ := mul_le_mul_of_nonneg_right (by exact_mod_cast hquarters) (by positivity)

end Binary

/-! ## Doubles -/

/-- The content of every finite double is one of the magnitudes. -/
lemma isDouble_of_ofFloat {x : Float} {negative : Bool} {b : Binary}
    (hx : Parts.ofFloat x = .finite negative b) : b.IsDouble := by
  rcases Nat.eq_zero_or_pos b.mantissa with hzero | hpos
  · rcases unpack_cases hx with ⟨-, s, hs⟩ | ⟨hpos, -⟩
    · rw [Parts.ofFloat_eq, hs, Parts.ofUnpacked, Parts.finite.injEq] at hx
      obtain ⟨-, rfl⟩ := hx
      exact Binary.isDouble_zero
    · exact absurd hzero hpos.ne'
  · exact Binary.isDouble_of_canonical (canonical_of_ofFloat hx hpos)

/-- The last bit of a word is the last bit of the mantissa. -/
lemma mantissa_mod_two {x : Float} {negative : Bool} {b : Binary}
    (hx : Parts.ofFloat x = .finite negative b) : b.mantissa % 2 = x.toBits.toNat % 2 := by
  unfold Parts.ofFloat Parts.ofWord Parts.fractions Parts.exponents at hx
  simp only at hx
  split at hx
  · split at hx <;> cases hx
  · split at hx <;> obtain ⟨-, rfl⟩ := Parts.finite.inj hx <;> simp only <;> omega

/-- A magnitude with its sign. -/
def signed (negative : Bool) (r : ℚ) : ℚ := if negative then -r else r

/-- The number of a double, by its content. -/
lemma exists_ofFloat_of_toRat? {x : Float} {v : ℚ} (h : (Parts.ofFloat x).toRat? = some v) :
    ∃ negative b, Parts.ofFloat x = .finite negative b ∧ v = signed negative b.toRat := by
  cases hx : Parts.ofFloat x with
  | nan => simp [hx, Parts.toRat?] at h
  | infinite negative => simp [hx, Parts.toRat?] at h
  | finite negative b =>
    rw [hx, Parts.toRat?, Option.some.injEq] at h
    exact ⟨negative, b, rfl, h.symm⟩

lemma signed_le_abs (negative : Bool) (r : ℚ) : signed negative r ≤ |r| := by
  cases negative with
  | false => exact le_abs_self r
  | true => exact neg_le_abs r

lemma abs_signed (negative : Bool) (r : ℚ) : |signed negative r| = |r| := by
  cases negative <;> simp [signed]

/-- With the same sign numbers are as far apart as their magnitudes. -/
lemma abs_signed_sub (negative : Bool) (q r : ℚ) :
    |signed negative q - signed negative r| = |q - r| := by
  cases negative with
  | false => rfl
  | true => rw [signed, signed, if_pos rfl, if_pos rfl, neg_sub_neg, abs_sub_comm]

/-- With different signs numbers are as far apart as both together are from zero. -/
lemma abs_signed_sub_of_ne {negative negative' : Bool} (hne : negative ≠ negative') {q r : ℚ}
    (hq : 0 ≤ q) (hr : 0 ≤ r) : |signed negative q - signed negative' r| = q + r := by
  obtain rfl : negative' = !negative := Bool.eq_not_of_ne hne.symm
  have hsum : 0 ≤ q + r := add_nonneg hq hr
  cases negative with
  | false =>
    have hvalue : signed false q - signed true r = q + r := sub_neg_eq_add q r
    rw [Bool.not_false, hvalue, abs_of_nonneg hsum]
  | true =>
    have hvalue : signed true q - signed false r = -(q + r) := (neg_add' q r).symm
    rw [Bool.not_true, hvalue, abs_neg, abs_of_nonneg hsum]

/-- Two doubles with the same number have the same magnitude. -/
lemma exists_magnitude_of_toRat? {x y : Float} {v : ℚ} (hx : (Parts.ofFloat x).toRat? = some v)
    (hy : (Parts.ofFloat y).toRat? = some v) :
    ∃ negative negative' b, Parts.ofFloat x = .finite negative b ∧
      Parts.ofFloat y = .finite negative' b ∧
      signed negative b.toRat = signed negative' b.toRat := by
  obtain ⟨negative, b, hxb, rfl⟩ := exists_ofFloat_of_toRat? hx
  obtain ⟨negative', b', hyb, heq⟩ := exists_ofFloat_of_toRat? hy
  have hmagnitude : b.toRat = b'.toRat := by
    rw [← abs_of_nonneg b.toRat_nonneg, ← abs_of_nonneg b'.toRat_nonneg, ← abs_signed negative,
      heq, abs_signed]
  obtain rfl := Binary.toRat_inj (isDouble_of_ofFloat hxb) (isDouble_of_ofFloat hyb) hmagnitude
  exact ⟨negative, negative', b, hxb, hyb, heq⟩

/-- Both zeros are the number zero. -/
lemma toRat?_of_zero {x : Float} {s : Float.Model.UnpackedFloat.Sign}
    (h : x.toModel.unpack = .zero s) : (Parts.ofFloat x).toRat? = some 0 := by
  simp [Parts.ofFloat_eq, h, Parts.ofUnpacked, Parts.toRat?, Binary.toRat]

/-- A double is determined by its number, up to the sign of a zero. -/
lemma beq_iff_toRat?_eq {x y : Float} {v : ℚ} (hx : (Parts.ofFloat x).toRat? = some v) :
    (y == x) = true ↔ (Parts.ofFloat y).toRat? = some v := by
  constructor
  · intro h
    obtain ⟨-, -, heq | ⟨hy, hz⟩ | ⟨hy, hz⟩⟩ := beq_eq_true_iff.mp h
    · rw [eq_of_unpack_eq heq, hx]
    · rw [toRat?_of_zero hy, ← hx, toRat?_of_zero hz]
    · rw [toRat?_of_zero hy, ← hx, toRat?_of_zero hz]
  · intro hy
    obtain ⟨negative, negative', b, hxb, hyb, heq⟩ := exists_magnitude_of_toRat? hx hy
    rcases unpack_cases hxb with ⟨hzero, s, hs⟩ | ⟨hpos, hunpack⟩
    · -- both are zeros
      obtain ⟨-, s', hs'⟩ := (unpack_cases hyb).resolve_right (fun ⟨hpos, _⟩ => hpos.ne' hzero)
      rw [beq_eq_true_iff, hs, hs']
      cases s <;> cases s' <;> simp
    · -- both have the same sign, and are the same
      have hsign : negative = negative' := by
        have hr := Binary.toRat_pos hpos
        by_contra hne
        have hdistance := abs_signed_sub_of_ne hne hr.le hr.le
        rw [heq, sub_self, abs_zero] at hdistance
        linarith
      rw [beq_eq_true_iff, unpack_of_ofFloat hyb hpos, hunpack, hsign]
      simp

/-! ## What the text stands for -/

/-- The double `x` with the number `v` is nearer to `q` than every other number of a double; where
another one is as near, the last bit is zero for `x` and one for the other. -/
def IsNearest (q : ℚ) (x : Float) (v : ℚ) : Prop :=
  ∀ y w, (Parts.ofFloat y).toRat? = some w → w ≠ v →
    |q - v| < |q - w| ∨ |q - v| = |q - w| ∧ x.toBits.toNat % 2 = 0 ∧ y.toBits.toNat % 2 ≠ 0

/-- A number is rounded to the double that is nearest, and to no other one. -/
lemma IsNearest.roundsTo_iff {q v : ℚ} {x : Float} (h : IsNearest q x v)
    (hx : (Parts.ofFloat x).toRat? = some v) (hrange : |q| < overflowBound) (y : Float) :
    RoundsTo q y ↔ (y == x) = true := by
  rw [beq_iff_toRat?_eq hx]
  constructor
  · rintro (@⟨w, hw, -, hnearest, heven⟩ | ⟨-, hout⟩)
    · by_cases hne : w = v
      · rw [← hne, hw]
      · rcases h y w hw hne with hlt | ⟨heq, -, hodd⟩
        · exact absurd hlt (not_lt.mpr (hnearest x v hx))
        · exact absurd (heven x v hx (Ne.symm hne) heq.symm) hodd
    · exact absurd (hout.trans (signed_le_abs _ _)) (not_le.mpr hrange)
  · intro hy
    refine .finite hy hrange ?_ ?_
    · intro z w hw
      by_cases hne : w = v
      · rw [hne]
      · rcases h z w hw hne with hlt | ⟨heq, -, -⟩
        · exact hlt.le
        · exact heq.le
    · intro z w hw hne heq
      rcases h z w hw hne with hlt | ⟨-, heven, -⟩
      · exact absurd heq hlt.ne
      · -- a double that is equal to `x` has the same last bit
        obtain ⟨_, _, b, hxb, hyb, -⟩ := exists_magnitude_of_toRat? hx hy
        rwa [← mantissa_mod_two hyb, mantissa_mod_two hxb]

/-- What rounds to the magnitude of a double is nearest to the double, with the sign of it. -/
lemma isNearest_signed {x : Float} {negative : Bool} {b : Binary} {p : ℚ}
    (hx : Parts.ofFloat x = .finite negative b) (hpos : 0 < b.mantissa) (hp : b.Rounds p) :
    IsNearest (signed negative p) x (signed negative b.toRat) := by
  intro y w hy hne
  obtain ⟨negative', b', hyb, rfl⟩ := exists_ofFloat_of_toRat? hy
  have hb := isDouble_of_ofFloat hx
  rw [← mantissa_mod_two hx, ← mantissa_mod_two hyb]
  by_cases hsign : negative = negative'
  · subst hsign
    rw [abs_signed_sub, abs_signed_sub]
    exact hp.nearest hb (isDouble_of_ofFloat hyb) fun heq => hne (by rw [heq])
  · -- a double of the other sign is farther away than zero is
    left
    have hzero : Binary.toRat ⟨0, -1074⟩ = 0 := by simp [Binary.toRat]
    have hne0 : Binary.toRat ⟨0, -1074⟩ ≠ b.toRat := by
      rw [hzero]
      exact (Binary.toRat_pos hpos).ne
    rcases hp.nearest hb Binary.isDouble_zero hne0 with hlt | ⟨-, -, hodd⟩
    · have hp0 := hp.pos hpos
      rw [hzero, sub_zero, abs_of_pos hp0] at hlt
      rw [abs_signed_sub, abs_signed_sub_of_ne hsign hp0.le b'.toRat_nonneg]
      exact hlt.trans_le (le_add_of_nonneg_right b'.toRat_nonneg)
    · exact absurd rfl hodd

/-- Zero is nearest to the zeros. -/
lemma isNearest_zero (x : Float) : IsNearest 0 x 0 := by
  intro y w _ hne
  left
  rw [sub_self, abs_zero, zero_sub, abs_neg]
  exact abs_pos.mpr hne

/-- The text of a double other than zero stands for its digits, with the sign of the double. -/
lemma textValue_numberText {x : Float} {negative : Bool} {b : Binary}
    (hx : Parts.ofFloat x = .finite negative b) (hpos : 0 < b.mantissa) :
    textValue (numberText x) = signed negative (Decimal.ofText (magnitudeText b)).toRat := by
  simp only [textValue, numberText, hx, if_neg hpos.ne', String.toList_ofList]
  cases negative with
  | true => rfl
  | false =>
    obtain ⟨c, rest, hcons, hc⟩ := exists_cons_magnitudeText b
    simp only [hcons, Bool.false_eq_true, if_false]
    split
    · next heq =>
      obtain ⟨rfl, -⟩ := List.cons.inj heq
      cases hc
    · rfl

/-- The number that the text of a finite double stands for is rounded to the double, and to no other
one than the zero of the other sign. -/
lemma roundsTo_textValue_iff {x : Float} (hx : x.isFinite = true) (y : Float) :
    RoundsTo (textValue (numberText x)) y ↔ (y == x) = true := by
  obtain ⟨negative, b, hparts⟩ := Parts.ofFloat_of_isFinite hx
  rcases unpack_cases hparts with ⟨hzero, s, hs⟩ | ⟨hpos, -⟩
  · have htext : textValue (numberText x) = 0 := by
      simp only [numberText, hparts, if_pos hzero]
      exact Decimal.toRat_ofText_zero
    have hrange : |(0 : ℚ)| < overflowBound := by
      rw [abs_zero, overflowBound, sub_pos]
      exact pow_lt_pow_right₀ (by norm_num) (by norm_num)
    rw [htext]
    exact (isNearest_zero x).roundsTo_iff (toRat?_of_zero hs) hrange y
  · have hround := rounds_ofText_magnitudeText hpos
    have hrange := hround.lt_overflowBound (canonical_of_ofFloat hparts hpos)
    rw [textValue_numberText hparts hpos]
    refine (isNearest_signed hparts hpos hround).roundsTo_iff ?_ ?_ y
    · rw [hparts, Parts.toRat?, signed]
    · rwa [abs_signed, abs_of_pos (hround.pos hpos)]

/-- Equal numbers are the same, unless both are zeros. -/
lemma beq_iff_eq_or_zero {x y : Float} (hx : x.isNaN = false) :
    (x == y) = true ↔ x = y ∨ (x == 0) = true ∧ (y == 0) = true := by
  constructor
  · intro h
    obtain ⟨-, -, heq | ⟨hzero, hzero'⟩ | ⟨hzero, hzero'⟩⟩ := beq_eq_true_iff.mp h
    · exact .inl (eq_of_unpack_eq heq)
    · exact .inr ⟨beq_zero_iff.mpr ⟨_, hzero⟩, beq_zero_iff.mpr ⟨_, hzero'⟩⟩
    · exact .inr ⟨beq_zero_iff.mpr ⟨_, hzero⟩, beq_zero_iff.mpr ⟨_, hzero'⟩⟩
  · rintro (rfl | ⟨hzero, hzero'⟩)
    · have hnumber := unpack_ne_of_isNaN hx
      exact beq_eq_true_iff.mpr ⟨hnumber, hnumber, .inl rfl⟩
    · obtain ⟨s, hs⟩ := beq_zero_iff.mp hzero
      obtain ⟨s', hs'⟩ := beq_zero_iff.mp hzero'
      rw [beq_eq_true_iff, hs, hs']
      cases s <;> cases s' <;> simp

/-- The text of a number tells the number.  Two doubles have the same text exactly if they are
equal, so that only the two zeros share one; and the text of a finite double, read as an exact
number and rounded to the nearest double, is that double again, up to the sign of a zero. -/
theorem numberText_identifies :
    (∀ x y : Float, x.isNaN = false → y.isNaN = false →
      (numberText x = numberText y ↔ (x == y) = true) ∧
      (numberText x = numberText y ↔ x = y ∨ (x == 0) = true ∧ (y == 0) = true)) ∧
    ∀ x : Float, x.isFinite = true →
      ∀ y : Float, RoundsTo (textValue (numberText x)) y ↔ (y == x) = true := by
  refine ⟨?_, fun x hx y => roundsTo_textValue_iff hx y⟩
  intro x y hx hy
  have hiff := numberText_eq_iff hx hy
  exact ⟨hiff, hiff.trans (beq_iff_eq_or_zero hx)⟩

/-- The two zeros share a text.  The sum of a tenth and two tenths does not have the text of three
tenths, and the text of the least positive double, which is half as large as its neighbour, leads
back to it. -/
theorem numberText_identifies_neighbours :
    numberText 0 = numberText (-0) ∧ numberText 0.3 ≠ numberText (0.1 + 0.2) ∧
      RoundsTo (textValue (numberText (Float.ofBits 1))) (Float.ofBits 1) := by
  refine ⟨?_, ?_, ?_⟩
  · exact ((numberText_identifies.1 0 (-0) (by decide +kernel) (by decide +kernel)).1).mpr
      (by decide +kernel)
  · intro h
    have hbeq := ((numberText_identifies.1 0.3 (0.1 + 0.2) (by decide +kernel)
      (by decide +kernel)).1).mp h
    have hne : ((0.3 : Float) == 0.1 + 0.2) = false := by decide +kernel
    exact Bool.false_ne_true (hne.symm.trans hbeq)
  · exact (numberText_identifies.2 (Float.ofBits 1) (by decide +kernel) _).mpr (by decide +kernel)

end LetLang
