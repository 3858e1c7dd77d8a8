import LetLang.Proofs.DecimalText
import LetLang.Proofs.IntegerText

/-!
# The text of a number is a plain numeral

A `PlainNumeral` has a sign, a whole part and perhaps places behind a point, and never an exponent.
It has no zero that could be left out: none in front of other digits, and none at the end of the
places.  The text of every finite double is such a numeral (`numberText_is_plain`).

Two things decide whether it has a point.  Digits without a point round to whole numbers only
(`Binary.Rounds.exists_toRat`), because a double with a fraction is so small that all whole numbers
around it are doubles themselves.  Conversely the search for the shortest decimal of a whole number
from `10 ^ 21` on ends long before it comes to the places behind the point
(`Binary.exponent_shortest`).
-/

namespace LetLang

/-! ## Numerals -/

/-- A numeral without an exponent and without zeros that could be left out. -/
structure PlainNumeral where
  /-- Whether a minus sign stands in front. -/
  negative : Bool
  /-- The digits before the point. -/
  whole : List Char
  /-- The digits behind the point; without any there is no point. -/
  places : List Char
  whole_ne_nil : whole ≠ []
  isDigit_of_mem : ∀ c ∈ whole ++ places, c.isDigit = true
  leading_zero : whole.head? = some '0' → whole = ['0']
  trailing_zero : places.getLast? ≠ some '0'

namespace PlainNumeral

/-- The text of a numeral. -/
def text (n : PlainNumeral) : List Char :=
  (if n.negative then ['-'] else []) ++ n.whole ++ if n.places.isEmpty then [] else '.' :: n.places

/-- The numeral of zero. -/
def zero : PlainNumeral where
  negative := false
  whole := ['0']
  places := []
  whole_ne_nil := by decide
  isDigit_of_mem := by simp
  leading_zero := fun _ => rfl
  trailing_zero := by decide

end PlainNumeral

/-! ## Digits -/

/-- The digits of a positive number do not start with a zero. -/
lemma head?_toDigits {n : ℕ} (hn : 0 < n) : (Nat.toDigits 10 n).head? ≠ some '0' := by
  intro h
  obtain ⟨rest, hrest⟩ := List.head?_eq_some_iff.mp h
  have hdigits : Json.Numeral.digits n = 0 :: rest.map Json.Numeral.digitValue := by
    rw [Json.Numeral.digits, hrest]
    rfl
  exact hn.ne' (Json.Numeral.digits_eq_zero_cons hdigits)

/-- The last digit of a number is its remainder by ten. -/
lemma getLast?_toDigits (n : ℕ) : (Nat.toDigits 10 n).getLast? = some (n % 10).digitChar := by
  rcases Nat.lt_or_ge n 10 with hn | hn
  · rw [Nat.toDigits_of_lt_base hn, Nat.mod_eq_of_lt hn]
    rfl
  · rw [Nat.toDigits_of_base_le (by decide) hn, List.getLast?_concat]

namespace Decimal

/-- Trimming moves zeros into the exponent, which becomes no smaller. -/
lemma exponent_trimZeros (c : ℕ) (e : ℤ) : e ≤ (trimZeros c e).exponent := by
  fun_induction trimZeros c e with
  | case1 c e _ ih => omega
  | case2 c e _ => exact le_rfl

/-- No zero is left at the end of a positive coefficient. -/
lemma coefficient_trimZeros {c : ℕ} (hc : c ≠ 0) (e : ℤ) :
    (trimZeros c e).coefficient % 10 ≠ 0 := by
  fun_induction trimZeros c e with
  | case1 c e h ih => exact ih (by omega)
  | case2 c e h => exact fun hmod => h ⟨hc, hmod⟩

/-- A decimal other than zero has a coefficient other than zero. -/
lemma coefficient_pos {d : Decimal} (h : 0 < d.toRat) : 0 < d.coefficient := by
  refine Nat.pos_of_ne_zero fun hzero => h.ne' ?_
  rw [toRat, hzero, Nat.cast_zero, zero_mul]

/-- A decimal without places is a natural number. -/
lemma exists_toRat_of_exponent {d : Decimal} (h : 0 ≤ d.exponent) : ∃ n : ℕ, d.toRat = n := by
  obtain ⟨k, hk⟩ := Int.eq_ofNat_of_zero_le h
  refine ⟨d.coefficient * 10 ^ k, ?_⟩
  rw [toRat, hk, zpow_natCast]
  push_cast
  rfl

/-- A positive decimal whose places do not end in a zero is written as a plain numeral, with a point
exactly if it has places. -/
lemma exists_plainNumeral {d : Decimal} (hpos : 0 < d.coefficient)
    (htrim : d.exponent < 0 → d.coefficient % 10 ≠ 0) (negative : Bool) :
    ∃ n : PlainNumeral, n.negative = negative ∧ (n.places = [] ↔ 0 ≤ d.exponent) ∧
      n.text = if negative then '-' :: d.positional else d.positional := by
  have hhead : d.digits.head? ≠ some '0' := head?_toDigits hpos
  have hne : d.digits ≠ [] := Nat.toDigits_ne_nil
  obtain ⟨c, k | k⟩ := d
  · -- zeros at the end take the place of an exponent
    refine ⟨⟨negative, digits ⟨c, .ofNat k⟩ ++ List.replicate k '0', [], ?_, ?_, ?_, by simp⟩, rfl,
      ?_, ?_⟩
    · exact List.append_ne_nil_of_left_ne_nil hne _
    · intro a ha
      rw [List.append_nil] at ha
      rcases List.mem_append.mp ha with ha | ha
      · exact Nat.isDigit_of_mem_toDigits (by decide) (by decide) ha
      · obtain ⟨-, rfl⟩ := List.mem_replicate.mp ha
        decide
    · rw [List.head?_append_of_ne_nil _ hne]
      exact fun h => absurd h hhead
    · simp
    · cases negative <;> simp [PlainNumeral.text, positional]
  · have hdigits : ∀ a ∈ digits ⟨c, .negSucc k⟩, a.isDigit = true :=
      fun _ => Nat.isDigit_of_mem_toDigits (by decide) (by decide)
    obtain ⟨front, back, htext, hfront, hlength, hall, -, hfirst, hlast⟩ :=
      exists_pointed hdigits hne k.succ_pos
    have hback : back ≠ [] := List.ne_nil_of_length_pos (by omega)
    refine ⟨⟨negative, front, back, hfront, hall, ?_, ?_⟩, rfl, ?_, ?_⟩
    · rcases hfirst with hzero | hfirst
      · exact fun _ => hzero
      · rw [hfirst]
        exact fun h => absurd h hhead
    · rw [hlast, digits, getLast?_toDigits, ne_eq, Option.some.injEq, Nat.digitChar_eq_zero]
      exact htrim (Int.negSucc_lt_zero k)
    · simp [hback]
    · cases negative <;> simp [PlainNumeral.text, positional, htext, hback]

end Decimal

/-! ## The point -/

namespace Binary

/-- A whole number rounds to whole numbers only: below `2 ^ 53` every whole number is a double
itself, and from there on all doubles are whole numbers. -/
lemma Rounds.exists_toRat {b : Binary} {n : ℕ} (h : b.Rounds n) (hpos : 0 < b.mantissa) :
    ∃ k : ℕ, b.toRat = k := by
  obtain ⟨hlower, hupper⟩ := h.le
  obtain ⟨-, hquarters, -⟩ := lowerQuarters_spec hpos
  obtain ⟨m, k | k⟩ := b
  · exact ⟨m * 2 ^ k, toRat_ofNat_eq_iff.mpr rfl⟩
  · refine ⟨n, toRat_negSucc_eq_iff.mpr ?_⟩
    -- in quarters of a unit the whole number is a multiple of four
    have hunit : (2 : ℚ) ^ (Int.negSucc k - 2) = (2 ^ (k + 3))⁻¹ := by
      rw [← zpow_negSucc]
      congr 1
    have hpow : (2 : ℕ) ^ (k + 3) = 4 * 2 ^ (k + 1) := by ring
    rw [lower, hunit, ← div_eq_mul_inv, div_le_iff₀ (by positivity)] at hlower
    rw [upper, hunit, ← div_eq_mul_inv, le_div_iff₀ (by positivity)] at hupper
    have hlower' : lowerQuarters ⟨m, .negSucc k⟩ ≤ n * 2 ^ (k + 3) := by exact_mod_cast hlower
    have hupper' : n * 2 ^ (k + 3) ≤ upperQuarters ⟨m, .negSucc k⟩ := by exact_mod_cast hupper
    rw [hpow, Nat.mul_left_comm] at hlower' hupper'
    simp only [upperQuarters] at hupper' hquarters
    omega

/-- The decimal that is found is a multiple of the power of ten that was tried. -/
lemma exponent_nearest? {tie : Tie} {b : Binary} {t : ℤ} {d : Decimal}
    (h : b.nearest? tie t = some d) : d.exponent = t := by
  unfold nearest? at h
  simp only at h
  repeat' split at h
  all_goals cases h
  all_goals rfl

/-- The search goes down by one power of ten with each try. -/
lemma exponent_search {tie : Tie} {b : Binary} {tries : ℕ} {d : Decimal} : ∀ {t : ℤ},
    b.search tie tries t = some d → t - tries < d.exponent := by
  induction tries with
  | zero => exact fun h => by cases h
  | succ tries ih =>
    intro t h
    rw [search] at h
    split at h
    · next hd =>
      cases h
      have := exponent_nearest? hd
      omega
    · have := ih h
      omega

/-- Whole numbers from `10 ^ 21` on have a mantissa that ends in zeros. -/
lemma exponent_of_exactBound_le {b : Binary} (hlt : b.mantissa < 2 ^ 53) {n : ℕ}
    (hn : b.toRat = n) (hlarge : exactBound ≤ n) :
    ∃ k : ℕ, b.exponent = k ∧ 69 ≤ b.mantissa.log2 + k := by
  obtain ⟨m, k | k⟩ := b
  · rw [toRat_ofNat_eq_iff] at hn
    have hn0 : n ≠ 0 := by
      rintro rfl
      exact absurd hlarge (by decide)
    have hpos : 0 < m := Nat.pos_of_ne_zero fun hzero => hn0 (by rw [← hn, hzero, zero_mul])
    refine ⟨k, rfl, ?_⟩
    rw [← log2_mul_two_pow hpos, hn, Nat.le_log2 hn0]
    exact le_trans (by decide) hlarge
  · -- with a negative exponent the number is below its mantissa
    rw [toRat_negSucc_eq_iff] at hn
    have hle : n ≤ n * 2 ^ (k + 1) := Nat.le_mul_of_pos_right n (by positivity)
    simp only [exactBound] at hlarge hlt
    omega

/-- The shortest decimal of a whole number from `10 ^ 21` on has no places. -/
lemma exponent_shortest {b : Binary} (hlt : b.mantissa < 2 ^ 53) {n : ℕ} (hn : b.toRat = n)
    (hlarge : exactBound ≤ n) (tie : Tie) : 0 ≤ (b.shortest tie).exponent := by
  obtain ⟨k, hk, hlog⟩ := exponent_of_exactBound_le hlt hn hlarge
  refine le_trans ?_ (Decimal.exponent_trimZeros _ _)
  cases h : b.search tie 20 b.ceilingExponent with
  | some d =>
    -- the search starts far above one, and twenty steps do not lead below it
    have hstart : 22 ≤ b.ceilingExponent := by
      unfold ceilingExponent
      omega
    have := exponent_search h
    rw [Option.getD_some]
    omega
  | none =>
    rw [Option.getD_none, expansion, hk]

/-- The decimal that is written for a magnitude has no places exactly if that is a whole number. -/
lemma exponent_decimal_nonneg_iff {b : Binary} (hpos : 0 < b.mantissa) (hlt : b.mantissa < 2 ^ 53) :
    0 ≤ b.decimal.exponent ↔ ∃ n : ℕ, b.toRat = n := by
  constructor
  · intro h
    obtain ⟨n, hn⟩ := Decimal.exists_toRat_of_exponent h
    have hround := rounds_decimal hpos
    rw [hn] at hround
    exact hround.exists_toRat hpos
  · rintro ⟨n, hn⟩
    simp only [decimal, whole?_of_toRat hn]
    split
    · exact le_rfl
    · next hlarge => exact exponent_shortest hlt hn (not_lt.mp hlarge) .up

/-- The places that are written for a magnitude do not end in a zero. -/
lemma coefficient_decimal {b : Binary} (hpos : 0 < b.mantissa) (h : b.decimal.exponent < 0) :
    b.decimal.coefficient % 10 ≠ 0 := by
  have hshortest : (b.shortest .up).coefficient % 10 ≠ 0 := by
    have hround := (rounds_shortest .up hpos).pos hpos
    rw [shortest, Decimal.toRat_trim] at hround
    exact Decimal.coefficient_trimZeros (Decimal.coefficient_pos hround).ne' _
  unfold decimal at h ⊢
  cases hwhole : b.whole? with
  | none => exact hshortest
  | some n =>
    simp only [hwhole] at h ⊢
    split at h
    · exact absurd h (lt_irrefl 0)
    · next hlarge =>
      rw [if_neg hlarge]
      exact hshortest

end Binary

/-- The digits of a positive magnitude are a plain numeral, with a point exactly if the magnitude is
not a whole number. -/
lemma exists_plainNumeral_magnitudeText {b : Binary} (hb : Canonical b.mantissa b.exponent)
    (negative : Bool) :
    ∃ n : PlainNumeral, n.negative = negative ∧ (n.places = [] ↔ ∃ k : ℕ, b.toRat = k) ∧
      n.text = if negative then '-' :: magnitudeText b else magnitudeText b := by
  rw [magnitudeText_eq, ← Binary.exponent_decimal_nonneg_iff hb.pos hb.lt]
  exact Decimal.exists_plainNumeral
    (Decimal.coefficient_pos ((Binary.rounds_decimal hb.pos).pos hb.pos))
    (Binary.coefficient_decimal hb.pos) negative

/-! ## The sign -/

open Float.Model (UnpackedFloat)

/-- The double is below zero, by its content. -/
def Parts.isNegative : Parts → Bool
  | .nan => false
  | .infinite negative => negative
  | .finite negative b => negative && b.mantissa != 0

/-- A double is below zero exactly if it has a minus sign and is no zero. -/
lemma lt_zero_iff {x : Float} : x < 0 ↔ (Parts.ofFloat x).isNegative = true := by
  have hmodel : x < 0 ↔ x.toModel.unpack.lt (.zero .positive) = true :=
    ⟨fun h => of_decide_eq_true h, fun h => decide_eq_true h⟩
  rw [hmodel, Parts.ofFloat_eq]
  cases x.toModel.unpack with
  | notANumber => rfl
  | infinity s => cases s <;> rfl
  | zero s => cases s <;> decide
  | finite s m e hm =>
    cases s with
    | negative => exact iff_of_true rfl (bne_iff_ne.mpr hm.ne')
    | positive => exact iff_of_false Bool.false_ne_true Bool.false_ne_true

/-! ## Kinds of doubles -/

/-- What is no number has no content. -/
lemma Parts.ofFloat_of_isNaN {x : Float} (h : x.isNaN = true) : Parts.ofFloat x = .nan := by
  have hunpack : x.toModel.unpack.isNaN = true := h
  rw [Parts.ofFloat_eq]
  cases hu : x.toModel.unpack <;> simp_all [Parts.ofUnpacked, UnpackedFloat.isNaN]

/-- The content of an infinite double is its sign. -/
lemma Parts.ofFloat_of_isInf {x : Float} (h : x.isInf = true) :
    ∃ negative, Parts.ofFloat x = .infinite negative := by
  have hunpack : x.toModel.unpack.isInf = true := h
  rw [Parts.ofFloat_eq]
  cases hu : x.toModel.unpack <;> simp_all [Parts.ofUnpacked, UnpackedFloat.isInf]

/-- The content of a finite double is a sign and a magnitude. -/
lemma Parts.ofFloat_of_isFinite {x : Float} (h : x.isFinite = true) :
    ∃ negative b, Parts.ofFloat x = .finite negative b := by
  have hunpack : x.toModel.unpack.isFinite = true := h
  rw [Parts.ofFloat_eq]
  cases hu : x.toModel.unpack <;> simp_all [Parts.ofUnpacked, UnpackedFloat.isFinite]

/-! ## The text -/

/-- The numeral of an integer other than zero. -/
lemma toString_signed {n : ℕ} (hn : 0 < n) (negative : Bool) :
    toString (if negative then -(n : ℤ) else n) =
      String.ofList (Json.Numeral.integerText negative n) := by
  cases negative with
  | false => rfl
  | true =>
    obtain ⟨k, rfl⟩ := Nat.exists_eq_succ_of_ne_zero hn.ne'
    have hdigits : "-" ++ Nat.repr k.succ = String.ofList ('-' :: Nat.toDigits 10 k.succ) := by
      rw [Nat.repr, ← String.toList_inj]
      simp
    exact hdigits

/-- No text is a zero behind a minus sign. -/
lemma numberText_ne_negative_zero (x : Float) : numberText x ≠ "-0" := by
  intro h
  have hlist := congrArg String.toList h
  unfold numberText at hlist
  split at hlist
  · simp at hlist
  · split at hlist <;> simp at hlist
  · next negative b hb =>
    split at hlist
    · simp at hlist
    · next hpos =>
      rw [String.toList_ofList] at hlist
      split at hlist
      · exact magnitudeText_ne_zero (Nat.pos_of_ne_zero hpos) (List.cons.inj hlist).2
      · obtain ⟨c, rest, hcons, hc⟩ := exists_cons_magnitudeText b
        obtain ⟨rfl, -⟩ := List.cons.inj (hcons.symm.trans hlist)
        cases hc

/-- The text of a finite double is a plain numeral, with a minus sign exactly if the double is below
zero, and with a point exactly if it is no integer. -/
lemma exists_plainNumeral_numberText {x : Float} {negative : Bool} {b : Binary}
    (hx : Parts.ofFloat x = .finite negative b) :
    ∃ n : PlainNumeral, (numberText x).toList = n.text ∧ (n.negative = true ↔ x < 0) ∧
      (n.places = [] ↔ ∃ z : ℤ, (if negative then -b.toRat else b.toRat) = (z : ℚ)) := by
  rw [lt_zero_iff, hx, Parts.isNegative]
  rcases Nat.eq_zero_or_pos b.mantissa with hzero | hpos
  · refine ⟨.zero, ?_, ?_, ?_⟩
    · simp only [numberText, hx, if_pos hzero]
      rfl
    · simp [hzero, PlainNumeral.zero]
    · refine iff_of_true rfl ⟨0, ?_⟩
      simp [Binary.toRat, hzero]
  · obtain ⟨n, hsign, hplaces, htext⟩ :=
      exists_plainNumeral_magnitudeText (canonical_of_ofFloat hx hpos) negative
    refine ⟨n, ?_, ?_, ?_⟩
    · simp only [numberText, hx, if_neg hpos.ne', String.toList_ofList, htext]
    · simp [hsign, hpos.ne']
    · rw [hplaces]
      constructor
      · rintro ⟨k, hk⟩
        refine ⟨if negative then -k else k, ?_⟩
        rw [hk]
        split <;> simp
      · rintro ⟨z, hz⟩
        exact ⟨z.natAbs, Binary.toRat_eq_natAbs hz⟩

/-- The text of an integer below `10 ^ 21` is its numeral. -/
lemma numberText_of_integer {x : Float} {negative : Bool} {b : Binary}
    (hx : Parts.ofFloat x = .finite negative b) {z : ℤ}
    (hz : (if negative then -b.toRat else b.toRat) = (z : ℚ)) (hlt : |z| < 10 ^ 21) :
    numberText x = toString z := by
  have hn := Binary.toRat_eq_natAbs hz
  rcases Nat.eq_zero_or_pos b.mantissa with hzero | hpos
  · have hz0 : z = 0 := by
      rw [Binary.toRat, hzero, Nat.cast_zero, zero_mul] at hn
      exact Int.natAbs_eq_zero.mp (by exact_mod_cast hn.symm)
    simp only [numberText, hx, if_pos hzero, hz0]
    rfl
  · have hbound : z.natAbs < exactBound := by
      rw [Int.abs_eq_natAbs] at hlt
      exact_mod_cast hlt
    have hsigned : (if negative then -(z.natAbs : ℤ) else z.natAbs) = z := by
      refine Int.cast_injective (α := ℚ) ?_
      rw [← hz, hn]
      split <;> simp
    rw [← hsigned, toString_signed (Binary.pos_of_toRat hpos hn), ← String.toList_inj,
      String.toList_ofList]
    exact Json.numberText_of_toRat hx hpos hn hbound

/-- The text of a number has one form.  What is no number and the infinities have names.  Every
finite double is written as a plain numeral, which has a minus sign exactly if the double is below
zero and a point exactly if it is no integer; an integer below `10 ^ 21` is written exactly.  A zero
never has a sign. -/
theorem numberText_is_plain (x : Float) :
    (x.isNaN = true → numberText x = "NaN") ∧
    (x.isInf = true → numberText x = if x < 0 then "-Infinity" else "Infinity") ∧
    (x.isFinite = true → ∃ (q : ℚ) (n : PlainNumeral), (Parts.ofFloat x).toRat? = some q ∧
      (numberText x).toList = n.text ∧ (n.negative = true ↔ x < 0) ∧
      (n.places = [] ↔ ∃ z : ℤ, q = z) ∧
      ∀ z : ℤ, q = z → |z| < 10 ^ 21 → numberText x = toString z) ∧
    numberText x ≠ "-0" := by
  refine ⟨?_, ?_, ?_, numberText_ne_negative_zero x⟩
  · intro hnan
    simp only [numberText, Parts.ofFloat_of_isNaN hnan]
  · intro hinf
    obtain ⟨negative, hx⟩ := Parts.ofFloat_of_isInf hinf
    simp only [numberText, lt_zero_iff, hx, Parts.isNegative]
  · intro hfinite
    obtain ⟨negative, b, hx⟩ := Parts.ofFloat_of_isFinite hfinite
    obtain ⟨n, htext, hsign, hplaces⟩ := exists_plainNumeral_numberText hx
    refine ⟨_, n, ?_, htext, hsign, hplaces, fun z hz hlt => numberText_of_integer hx hz hlt⟩
    rw [hx, Parts.toRat?]

/-- The double next to `-10 ^ 21` is still written with all its digits, although they are too many
for 64 bits. -/
theorem numberText_is_plain_beside_bound :
    (-999999999999999868928 : Float).isFinite = true ∧
      numberText (-999999999999999868928) = "-999999999999999868928" := by
  have hfinite : (-999999999999999868928 : Float).isFinite = true := by decide +kernel
  have hparts : Parts.ofFloat (-999999999999999868928) = .finite true ⟨7629394531249999, 17⟩ := by
    decide +kernel
  obtain ⟨q, n, hq, -, -, -, hexact⟩ := (numberText_is_plain _).2.2.1 hfinite
  have hnumeral : toString (-999999999999999868928 : ℤ) = "-999999999999999868928" := by
    decide +kernel
  refine ⟨hfinite, (hexact (-999999999999999868928) ?_ (by decide)).trans hnumeral⟩
  rw [hparts, Parts.toRat?, Option.some.injEq] at hq
  rw [← hq]
  norm_num [Binary.toRat]

end LetLang
