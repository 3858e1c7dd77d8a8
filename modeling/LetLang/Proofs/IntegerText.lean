import LetLang.Json.Token
import LetLang.Number.Text
import LetLang.Proofs.ExactDouble

/-!
# The text of a whole number

A double that is a whole number is written with all its digits, and the numeral is read as the
number again (`numberToken_numberText`).  Below `2 ^ 64` the digits fit into the 64 bits that the
reader gathers.  A number from `-2 ^ 63` on is kept as an integer, which is converted to the double
without rounding; a smaller one takes the way of the numerals with a point or a power of ten, on
which it is multiplied by one.
-/

namespace LetLang.Json

/-- What may follow a value: the end of the text, a comma or the end of an array. -/
inductive Delimited : List Char → Prop
  | nil : Delimited []
  | comma (rest : List Char) : Delimited (',' :: rest)
  | bracket (rest : List Char) : Delimited (']' :: rest)

namespace Numeral

/-! ## Digits -/

/-- The digits of a natural number, by their values. -/
def digits (n : Nat) : List Nat := (Nat.toDigits 10 n).map digitValue

/-- The digits of a number stand for it. -/
lemma ofDigits_digits (n : Nat) : ofDigits (digits n) = n := by
  have h := Nat.ofDigitChars_toDigits (b := 10) (n := n) (by decide) (by decide)
  rw [Nat.ofDigitChars_eq_foldl] at h
  simp only [ofDigits, digits, List.foldl_map, digitValue, Nat.mul_comm _ 10]
  exact h

/-- Only zero starts with a zero. -/
lemma digits_eq_zero_cons {n : Nat} {ds : List Nat} (h : digits n = 0 :: ds) : n = 0 := by
  induction n using Nat.strongRecOn generalizing ds with
  | ind n ih =>
    by_cases hn : n < 10
    · have hone : digits n = [n] := by
        simp [digits, Nat.toDigits_of_lt_base hn, digitValue, Nat.toNat_digitChar_of_lt_ten hn]
      rw [hone] at h
      exact (List.cons.inj h).1
    · -- the leading digits are those of a tenth
      exfalso
      have happend : digits n = digits (n / 10) ++ [digitValue (n % 10).digitChar] := by
        simp [digits, Nat.toDigits_of_base_le (b := 10) (n := n) (by decide) (by omega)]
      rcases hds : digits (n / 10) with _ | ⟨d, ds'⟩
      · simp [digits, Nat.toDigits_ne_nil] at hds
      · rw [happend, hds, List.cons_append] at h
        obtain ⟨rfl, -⟩ := List.cons.inj h
        have := ih (n / 10) (by omega) hds
        omega

/-- All digits are read, up to a delimiter. -/
lemma digitsOf_toDigits (n : Nat) {rest : List Char} (hrest : Delimited rest) :
    digitsOf (Nat.toDigits 10 n ++ rest) = digits n := by
  have hstop : rest.takeWhile Char.isDigit = [] := by cases hrest <;> rfl
  have hdigits : ∀ c ∈ Nat.toDigits 10 n, c.isDigit = true :=
    fun _ => Nat.isDigit_of_mem_toDigits (by decide) (by decide)
  rw [digitsOf, List.takeWhile_append_of_pos hdigits, hstop, List.append_nil, digits]

/-- A delimiter ends the digits. -/
lemma afterDigits_toDigits (n : Nat) {rest : List Char} (hrest : Delimited rest) :
    afterDigits (Nat.toDigits 10 n ++ rest) = rest := by
  have hstop : rest.dropWhile Char.isDigit = rest := by cases hrest <;> rfl
  have hdigits : ∀ c ∈ Nat.toDigits 10 n, c.isDigit = true :=
    fun _ => Nat.isDigit_of_mem_toDigits (by decide) (by decide)
  rw [afterDigits, List.dropWhile_append_of_pos hdigits, hstop]

/-! ## Reading -/

/-- The digits of an integer, behind its sign. -/
def integerText (negative : Bool) (n : Nat) : List Char :=
  if negative then '-' :: Nat.toDigits 10 n else Nat.toDigits 10 n

/-- The numeral of an integer. -/
def ofInteger (negative : Bool) (n : Nat) : Numeral := ⟨negative, digits n, [], none⟩

/-- A natural number is read with neither point nor power of ten. -/
lemma readUnsigned_toDigits (negative : Bool) (n : Nat) {rest : List Char}
    (hrest : Delimited rest) :
    readUnsigned negative (Nat.toDigits 10 n ++ rest) = .ok (ofInteger negative n, rest) := by
  have hfraction : readFraction rest = .ok ([], rest) := by cases hrest <;> rfl
  have hexponent : readExponent rest = .ok (none, rest) := by cases hrest <;> rfl
  unfold readUnsigned
  rw [digitsOf_toDigits n hrest, afterDigits_toDigits n hrest]
  split
  · next h => simp [digits, Nat.toDigits_ne_nil] at h
  · next h =>
    obtain rfl := digits_eq_zero_cons h
    simp [digits] at h
  · simp only [hfraction, hexponent, ofInteger]

/-- An integer is read with neither point nor power of ten. -/
lemma read_integerText (negative : Bool) (n : Nat) {rest : List Char} (hrest : Delimited rest) :
    read (integerText negative n ++ rest) = .ok (ofInteger negative n, rest) := by
  cases negative with
  | true => exact readUnsigned_toDigits true n hrest
  | false =>
    have hread := readUnsigned_toDigits false n hrest
    rcases hdigits : Nat.toDigits 10 n with _ | ⟨c, cs⟩
    · exact absurd hdigits Nat.toDigits_ne_nil
    · have hc : c.isDigit = true :=
        Nat.isDigit_of_mem_toDigits (by decide) (by decide) (hdigits ▸ List.mem_cons_self)
      have hne : c ≠ '-' := by
        rintro rfl
        cases hc
      rw [hdigits] at hread
      simp only [integerText, hdigits, Bool.false_eq_true, if_false, List.cons_append] at hread ⊢
      unfold read
      split
      · next heq => exact absurd (List.cons.inj heq).1 hne
      · exact hread

/-! ## Value -/

/-- Further digits make a number no smaller. -/
lemma le_foldl_digits (s : Nat) (ds : List Nat) : s ≤ ds.foldl (fun n d => n * 10 + d) s := by
  induction ds generalizing s with
  | nil => exact Nat.le_refl s
  | cons d ds ih =>
    have hstep := ih (s * 10 + d)
    rw [List.foldl_cons]
    omega

/-- All digits are gathered if the number fits into 64 bits. -/
lemma gather_of_lt {s : Nat} {ds : List Nat} (h : ds.foldl (fun n d => n * 10 + d) s < 2 ^ 64) :
    gather s ds = (ds.foldl (fun n d => n * 10 + d) s, 0) := by
  induction ds generalizing s with
  | nil => rfl
  | cons d ds ih =>
    have hstep := le_foldl_digits (s * 10 + d) ds
    rw [List.foldl_cons] at h ⊢
    rw [gather, if_pos (by omega)]
    exact ih h

/-- A natural number below `2 ^ 64` is its own significand. -/
lemma significand_ofInteger {negative : Bool} {n : Nat} (hlt : n < 2 ^ 64) :
    (ofInteger negative n).significand = (n, 0) := by
  have hgather : gather 0 (digits n) = (n, 0) := by
    have hn := ofDigits_digits n
    unfold ofDigits at hn
    rw [gather_of_lt (by rwa [hn]), hn]
  simp [significand, ofInteger, hgather, gather]

/-- Unless it is a zero with a sign, the numeral of an integer is kept as an integer if that has
room in 64 bits. -/
lemma integer?_ofInteger {negative : Bool} {n : Nat} (hzero : n ≠ 0 ∨ negative = false) :
    (ofInteger negative n).integer? = Number.ofInt? (if negative then -(n : Int) else n) := by
  have hsign : (negative && n == 0) = false := by
    rcases hzero with hn | rfl
    · rw [beq_false_of_ne hn, Bool.and_false]
    · rfl
  simp [integer?, ofInteger, ofDigits_digits, hsign]

/-- The numeral of a double that is a whole number stands for that double, if it is not kept as an
integer. -/
lemma double_of_toRat {x : Float} {negative : Bool} {b : Binary} {n : Nat}
    (hx : Parts.ofFloat x = .finite negative b) (hpos : 0 < b.mantissa) (hn : b.toRat = n)
    (hlt : n < 2 ^ 64) :
    ∃ v, (ofInteger negative n).double = .ok v ∧ v.toFloat = x := by
  have hcanonical : Canonical b.mantissa b.exponent := canonical_of_ofFloat hx hpos
  have hmagnitude : (ofInteger negative n).magnitude? = some n.toUInt64.toFloat := by
    have hscale : scale n.toUInt64.toFloat 0 = some n.toUInt64.toFloat := by
      rw [scale]
      exact congrArg some (mul_floatTenPow_zero hcanonical (unpack_toFloat hcanonical hn hlt))
    simp only [magnitude?, significand_ofInteger hlt]
    exact hscale
  have hfinite : x.isFinite = true := by
    change x.toModel.unpack.isFinite = true
    rw [unpack_of_ofFloat hx hpos]
    rfl
  obtain rfl := toFloat_of_toRat hx hpos hn hlt
  refine ⟨.float _ hfinite, ?_, rfl⟩
  simp only [double, hmagnitude]
  exact dif_pos hfinite

/-- The double nearest to an integer that is kept. -/
lemma toFloat_of_ofInt? {n : Int} {v : Number} (h : Number.ofInt? n = some v) :
    v.toFloat = if n < 0 then -n.natAbs.toUInt64.toFloat else n.natAbs.toUInt64.toFloat := by
  unfold Number.ofInt? at h
  split at h
  · cases h
    rfl
  · cases h

/-- The numeral of a double that is a whole number stands for that double. -/
lemma value_of_toRat {x : Float} {negative : Bool} {b : Binary} {n : Nat}
    (hx : Parts.ofFloat x = .finite negative b) (hpos : 0 < b.mantissa) (hn : b.toRat = n)
    (hlt : n < 2 ^ 64) :
    ∃ v, (ofInteger negative n).value = .ok v ∧ v.toFloat = x := by
  have hn0 : n ≠ 0 := (Binary.pos_of_toRat hpos hn).ne'
  rw [value, integer?_ofInteger (.inl hn0)]
  cases hv : Number.ofInt? (if negative then -(n : Int) else n) with
  | none => exact double_of_toRat hx hpos hn hlt
  | some v =>
    refine ⟨v, rfl, ?_⟩
    rw [toFloat_of_ofInt? hv, ← toFloat_of_toRat hx hpos hn hlt]
    cases negative with
    | true =>
      have hneg : -(n : Int) < 0 := by omega
      simp only [if_true, if_pos hneg, Int.natAbs_neg, Int.natAbs_natCast]
    | false =>
      have hnonneg : ¬ (n : Int) < 0 := by omega
      simp only [Bool.false_eq_true, if_false, if_neg hnonneg, Int.natAbs_natCast]

end Numeral

/-! ## The text -/

/-- The digits of a double that is a whole number. -/
lemma numberText_of_toRat {x : Float} {negative : Bool} {b : Binary} {n : Nat}
    (hx : Parts.ofFloat x = .finite negative b) (hpos : 0 < b.mantissa) (hn : b.toRat = n)
    (hbound : n < exactBound) : (numberText x).toList = Numeral.integerText negative n := by
  have hmagnitude : magnitudeText b = Nat.toDigits 10 n := by
    simp only [magnitudeText, Binary.whole?_of_toRat hn, if_pos hbound]
  simp only [numberText, hx, if_neg hpos.ne', hmagnitude, String.toList_ofList, Numeral.integerText]

/-- The text of a double that is a whole number is read as the double, but a zero loses its sign. -/
theorem numberToken_numberText {x : Float} (hx : IsWordInteger x) :
    ∃ v : Number, v.toFloat = unsignedZero x ∧ ∀ rest, Delimited rest →
      Token.numberToken ((numberText x).toList ++ rest) = .ok (.scalar (.number v), rest) := by
  obtain ⟨negative, b, n, hparts, hn, hlt⟩ := hx.exists_toRat
  rcases Nat.eq_zero_or_pos b.mantissa with hzero | hpos
  · -- both zeros are written without a sign
    have htext : (numberText x).toList = Numeral.integerText false 0 := by
      simp only [numberText, hparts, if_pos hzero]
      rfl
    have hvalue : (Numeral.ofInteger false 0).value = .ok (.integer 0 (by decide)) := by
      rw [Numeral.value, Numeral.integer?_ofInteger (.inr rfl)]
      rfl
    refine ⟨.integer 0 (by decide), ?_, ?_⟩
    · rw [unsignedZero_of_zero hparts hzero]
      rfl
    · intro rest hrest
      rw [htext, Token.numberToken, Numeral.read_integerText false 0 hrest]
      simp only [hvalue]
  · obtain ⟨v, hv, hfloat⟩ := Numeral.value_of_toRat hparts hpos hn hlt
    refine ⟨v, hfloat.trans (unsignedZero_of_pos hparts hpos).symm, ?_⟩
    intro rest hrest
    rw [numberText_of_toRat hparts hpos hn (Nat.lt_trans hlt (by decide)), Token.numberToken,
      Numeral.read_integerText negative n hrest]
    simp only [hv]

end LetLang.Json
