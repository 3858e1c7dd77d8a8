import LetLang.Number.Text
import LetLang.Proofs.RoundingInterval

/-!
# The text of a number tells the number

The digits that are written for a magnitude lie in the interval of numbers that round to it: those
of a whole number because they are exact, and all others because the search for the shortest decimal
looks for nothing else (`Binary.rounds_shortest`).  What positional text stands for can be read off
it again (`Decimal.toRat_ofText_positional`), and a number rounds to one magnitude only.  Hence two
doubles have the same text just if they are equal as floating-point numbers (`numberText_eq_iff`);
nothing is assumed about how many digits suffice.
-/

namespace LetLang

/-! ## Positional text -/

namespace Decimal

/-- The number that a decimal stands for. -/
def toRat (d : Decimal) : ℚ := d.coefficient * 10 ^ d.exponent

/-- Moving zeros into the exponent does not change the number. -/
lemma toRat_trimZeros (c : ℕ) (e : ℤ) : (trimZeros c e).toRat = c * 10 ^ e := by
  fun_induction trimZeros c e with
  | case1 c e h ih =>
    have hc : c / 10 * 10 = c := Nat.div_mul_cancel (Nat.dvd_of_mod_eq_zero h.2)
    have hcast : ((c / 10 : ℕ) : ℚ) * 10 = c := by exact_mod_cast hc
    rw [ih, zpow_add_one₀ (by norm_num), ← hcast]
    ring
  | case2 c e _ => rfl

/-- Trimming does not change the number. -/
lemma toRat_trim (d : Decimal) : d.trim.toRat = d.toRat :=
  toRat_trimZeros d.coefficient d.exponent

/-- The decimal that digits, with or without a point between them, stand for. -/
def ofText (s : List Char) : Decimal :=
  ⟨Nat.ofDigitChars 10 (s.filter Char.isDigit) 0, -((s.dropWhile Char.isDigit).drop 1).length⟩

/-- Without a point there are no places behind it. -/
lemma ofText_of_digits {s : List Char} (h : ∀ c ∈ s, c.isDigit = true) :
    ofText s = ⟨Nat.ofDigitChars 10 s 0, 0⟩ := by
  have hfilter : s.filter Char.isDigit = s := List.filter_eq_self.mpr h
  have hdrop : s.dropWhile Char.isDigit = [] := List.dropWhile_eq_nil_iff.mpr h
  simp [ofText, hfilter, hdrop]

/-- A zero stands for zero. -/
lemma toRat_ofText_zero : (ofText ['0']).toRat = 0 := by
  rw [ofText_of_digits (by simp)]
  simp [toRat, Nat.ofDigitChars_cons]

/-- With a point the digits behind it are the places. -/
lemma ofText_of_point {whole places : List Char} (h : ∀ c ∈ whole ++ places, c.isDigit = true) :
    ofText (whole ++ '.' :: places) =
      ⟨Nat.ofDigitChars 10 (whole ++ places) 0, -places.length⟩ := by
  obtain ⟨hwhole, hplaces⟩ := List.forall_mem_append.mp h
  have hfilter : (whole ++ '.' :: places).filter Char.isDigit = whole ++ places := by
    rw [List.filter_append, List.filter_cons_of_neg (by decide), List.filter_eq_self.mpr hwhole,
      List.filter_eq_self.mpr hplaces]
  have hdrop : (whole ++ '.' :: places).dropWhile Char.isDigit = '.' :: places := by
    rw [List.dropWhile_append_of_pos hwhole, List.dropWhile_cons_of_neg (by decide)]
  simp [ofText, hfilter, hdrop]

/-- The digits of a coefficient stand for it. -/
lemma ofDigitChars_digits (d : Decimal) : Nat.ofDigitChars 10 d.digits 0 = d.coefficient :=
  Nat.ofDigitChars_toDigits (by decide) (by decide)

/-- Zeros at the end multiply by powers of ten. -/
lemma ofDigitChars_replicate_zero (k n : ℕ) :
    Nat.ofDigitChars 10 (List.replicate k '0') n = n * 10 ^ k := by
  induction k generalizing n with
  | zero => simp
  | succ k ih =>
    rw [List.replicate_succ, Nat.ofDigitChars_cons, ih, Nat.sub_self, Nat.add_zero]
    ring

/-- Text with a point has digits on both sides of it, the places behind it as asked for, and no
other digits than leading zeros beside those it was made from.  The first of these digits stands
first, unless a single zero does, and the last one stands last. -/
lemma exists_pointed {digits : List Char} (h : ∀ c ∈ digits, c.isDigit = true)
    (hne : digits ≠ []) {places : ℕ} (hplaces : 0 < places) :
    ∃ front back, pointed digits places = front ++ '.' :: back ∧ front ≠ [] ∧
      back.length = places ∧ (∀ c ∈ front ++ back, c.isDigit = true) ∧
      Nat.ofDigitChars 10 (front ++ back) 0 = Nat.ofDigitChars 10 digits 0 ∧
      (front = ['0'] ∨ front.head? = digits.head?) ∧ back.getLast? = digits.getLast? := by
  unfold pointed
  split
  · next hle =>
    refine ⟨['0'], List.replicate (places - digits.length) '0' ++ digits, rfl, by simp, ?_, ?_, ?_,
      .inl rfl, List.getLast?_append_of_ne_nil _ hne⟩
    · simp only [List.length_append, List.length_replicate]
      omega
    · intro c hc
      simp only [List.singleton_append, List.mem_cons, List.mem_append, List.mem_replicate] at hc
      rcases hc with rfl | ⟨-, rfl⟩ | hc
      · decide
      · decide
      · exact h c hc
    · rw [List.singleton_append, Nat.ofDigitChars_cons, Nat.ofDigitChars_append,
        ofDigitChars_replicate_zero]
      simp
  · next hlt =>
    refine ⟨digits.take (digits.length - places), digits.drop (digits.length - places), rfl, ?_, ?_,
      ?_, ?_, .inr ?_, ?_⟩
    · rw [ne_eq, List.take_eq_nil_iff]
      rintro (hzero | rfl)
      · omega
      · exact hne rfl
    · rw [List.length_drop]
      omega
    · rwa [List.take_append_drop]
    · rw [List.take_append_drop]
    · rw [List.head?_take, if_neg (by omega)]
    · rw [List.getLast?_drop, if_neg (by omega)]

/-- Positional text has digits in front, and all its digits stand for the number that was written,
in units of the last place. -/
lemma exists_positional (d : Decimal) :
    ∃ front back, (d.positional = front ++ '.' :: back ∨ d.positional = front ∧ back = []) ∧
      front ≠ [] ∧ (∀ c ∈ front ++ back, c.isDigit = true) ∧
      toRat ⟨Nat.ofDigitChars 10 (front ++ back) 0, -back.length⟩ = d.toRat := by
  obtain ⟨c, k | k⟩ := d
  · -- zeros follow the digits
    refine ⟨_, [], .inr ⟨rfl, rfl⟩, ?_, ?_, ?_⟩
    · exact List.append_ne_nil_of_left_ne_nil Nat.toDigits_ne_nil _
    · rw [List.append_nil]
      intro a ha
      rcases List.mem_append.mp ha with ha | ha
      · exact Nat.isDigit_of_mem_toDigits (by decide) (by decide) ha
      · obtain ⟨-, rfl⟩ := List.mem_replicate.mp ha
        decide
    · rw [List.append_nil, positional, Nat.ofDigitChars_append, ofDigitChars_digits,
        ofDigitChars_replicate_zero]
      simp [toRat]
  · have hdigits : ∀ a ∈ digits ⟨c, .negSucc k⟩, a.isDigit = true :=
      fun _ => Nat.isDigit_of_mem_toDigits (by decide) (by decide)
    obtain ⟨front, back, htext, hfront, hlength, hall, hvalue, -⟩ :=
      exists_pointed hdigits Nat.toDigits_ne_nil k.succ_pos
    refine ⟨front, back, .inl htext, hfront, hall, ?_⟩
    rw [hvalue, ofDigitChars_digits, hlength]
    rfl

/-- Positional text starts with a digit. -/
lemma exists_cons_positional (d : Decimal) :
    ∃ c rest, d.positional = c :: rest ∧ c.isDigit = true := by
  obtain ⟨front, back, htext, hfront, hall, -⟩ := d.exists_positional
  obtain ⟨c, rest, rfl⟩ := List.exists_cons_of_ne_nil hfront
  rcases htext with htext | ⟨htext, -⟩
  · exact ⟨c, rest ++ '.' :: back, htext, hall c (by simp)⟩
  · exact ⟨c, rest, htext, hall c (by simp)⟩

/-- Positional text is made of digits and at most a point. -/
lemma isDigit_or_eq_of_mem_positional {d : Decimal} {c : Char} (h : c ∈ d.positional) :
    c.isDigit = true ∨ c = '.' := by
  obtain ⟨front, back, htext, -, hall, -⟩ := d.exists_positional
  rcases htext with htext | ⟨htext, -⟩
  · rw [htext] at h
    rcases List.mem_append.mp h with h | h
    · exact .inl (hall c (List.mem_append_left _ h))
    · rcases List.mem_cons.mp h with rfl | h
      · exact .inr rfl
      · exact .inl (hall c (List.mem_append_right _ h))
  · exact .inl (hall c (List.mem_append_left _ (htext ▸ h)))

/-- Positional text stands for the number that was written. -/
lemma toRat_ofText_positional (d : Decimal) : (ofText d.positional).toRat = d.toRat := by
  obtain ⟨front, back, htext, -, hall, hvalue⟩ := d.exists_positional
  rcases htext with htext | ⟨htext, rfl⟩
  · rw [htext, ofText_of_point hall, hvalue]
  · rw [List.append_nil] at hall hvalue
    rw [htext, ofText_of_digits hall, ← hvalue]
    rfl

end Decimal

/-! ## The shortest decimal -/

namespace Binary

/-- An integer power as a quotient of natural ones. -/
lemma zpow_mul_pow_toNat {a : ℚ} (ha : a ≠ 0) (n : ℤ) : a ^ n * a ^ (-n).toNat = a ^ n.toNat := by
  rw [← zpow_natCast, ← zpow_natCast, ← zpow_add₀ ha]
  congr 1
  omega

/-- A decimal reads back as `b` exactly if its number rounds to `b`. -/
lemma reads_iff (b : Binary) (d : Decimal) : b.reads d = true ↔ b.Rounds d.toRat := by
  obtain ⟨c, k⟩ := d
  -- both sides of each comparison carry this factor, which makes them natural numbers
  let scale : ℚ := 2 ^ (2 - b.exponent).toNat * 10 ^ (-k).toNat
  have hscale : 0 < scale := by positivity
  have hhere : (((c * tenPow k.toNat) <<< (2 - b.exponent).toNat : ℕ) : ℚ) =
      c * 10 ^ k * scale := by
    have hten : (10 : ℚ) ^ k * 10 ^ (-k).toNat = 10 ^ k.toNat :=
      zpow_mul_pow_toNat (by norm_num) k
    have hpow : tenPow k.toNat = 10 ^ k.toNat := rfl
    rw [Nat.shiftLeft_eq, hpow]
    push_cast
    rw [← hten]
    ring
  have hend : ∀ m : ℕ, (((m <<< (b.exponent - 2).toNat) * tenPow (-k).toNat : ℕ) : ℚ) =
      m * 2 ^ (b.exponent - 2) * scale := by
    intro m
    have htwo : (2 : ℚ) ^ (b.exponent - 2) * 2 ^ (-(b.exponent - 2)).toNat =
        2 ^ (b.exponent - 2).toNat :=
      zpow_mul_pow_toNat (by norm_num) (b.exponent - 2)
    have hpow : tenPow (-k).toNat = 10 ^ (-k).toNat := rfl
    rw [neg_sub] at htwo
    rw [Nat.shiftLeft_eq, hpow]
    push_cast
    rw [← htwo]
    ring
  have habove : ∀ m : ℕ, (m : ℚ) * 2 ^ (b.exponent - 2) ≤ c * 10 ^ k ↔
      (m <<< (b.exponent - 2).toNat) * tenPow (-k).toNat ≤
        (c * tenPow k.toNat) <<< (2 - b.exponent).toNat := by
    intro m
    rw [← mul_le_mul_iff_left₀ hscale, ← hend, ← hhere, Nat.cast_le]
  have hbelow : ∀ m : ℕ, (c : ℚ) * 10 ^ k ≤ m * 2 ^ (b.exponent - 2) ↔
      (c * tenPow k.toNat) <<< (2 - b.exponent).toNat ≤
        (m <<< (b.exponent - 2).toNat) * tenPow (-k).toNat := by
    intro m
    rw [← mul_le_mul_iff_left₀ hscale, ← hend, ← hhere, Nat.cast_le]
  unfold reads Rounds lower upper Decimal.toRat
  simp only [habove, hbelow, lt_iff_lt_of_le_iff_le (hbelow _), lt_iff_lt_of_le_iff_le (habove _)]
  split <;> simp

/-- Only decimals that read back are found. -/
lemma reads_of_nearest? {tie : Tie} {b : Binary} {t : ℤ} {d : Decimal}
    (h : b.nearest? tie t = some d) : b.reads d = true := by
  unfold nearest? at h
  simp only at h
  split at h
  · cases h
  · next hbelow _ => cases h; exact hbelow
  · next _ habove => cases h; exact habove
  · next hbelow habove =>
    split at h
    · cases h; exact hbelow
    · split at h
      · cases h; exact habove
      · split at h
        · cases h; exact habove
        · split at h
          · cases h; exact hbelow
          · cases h; exact habove

/-- The search finds only decimals that read back. -/
lemma reads_of_search {tie : Tie} {b : Binary} {tries : ℕ} {d : Decimal} : ∀ {t : ℤ},
    b.search tie tries t = some d → b.reads d = true := by
  induction tries with
  | zero => exact fun h => by cases h
  | succ tries ih =>
    intro t h
    rw [search] at h
    split at h
    · next hd =>
      cases h
      exact reads_of_nearest? hd
    · exact ih h

/-- All digits together stand for the magnitude itself. -/
lemma toRat_expansion (b : Binary) : b.expansion.toRat = b.toRat := by
  obtain ⟨m, k | k⟩ := b
  · simp [expansion, Decimal.toRat, toRat, Nat.shiftLeft_eq]
  · have hpow : Nat.pow 5 (k + 1) = 5 ^ (k + 1) := rfl
    have hten : (10 : ℚ) ^ (k + 1) = 5 ^ (k + 1) * 2 ^ (k + 1) := by
      rw [← mul_pow]
      norm_num
    simp only [expansion, Decimal.toRat, toRat, zpow_negSucc, hpow, hten]
    push_cast
    field_simp

/-- The shortest decimal rounds to the magnitude. -/
theorem rounds_shortest (tie : Tie) {b : Binary} (hpos : 0 < b.mantissa) :
    b.Rounds (b.shortest tie).toRat := by
  rw [shortest, Decimal.toRat_trim]
  cases h : b.search tie 20 b.ceilingExponent with
  | some d => exact (reads_iff b d).mp (reads_of_search h)
  | none =>
    rw [Option.getD_none, toRat_expansion]
    exact rounds_toRat hpos

/-- The test for whole numbers finds only the number. -/
lemma toRat_of_whole? {b : Binary} {n : ℕ} (h : b.whole? = some n) : b.toRat = n := by
  obtain ⟨m, k | k⟩ := b
  · rw [toRat_ofNat_eq_iff]
    simpa [whole?, Nat.shiftLeft_eq] using h
  · rw [toRat_negSucc_eq_iff]
    simp only [whole?, Nat.shiftLeft_eq] at h
    split_ifs at h with hshift
    rw [← Option.some.inj h]
    exact hshift.symm

end Binary

/-! ## The digits of a magnitude -/

/-- The decimal whose digits are written for a magnitude. -/
def Binary.decimal (b : Binary) : Decimal :=
  match b.whole? with
  | some n => if n < exactBound then ⟨n, 0⟩ else b.shortest .up
  | none => b.shortest .up

/-- A decimal is written positionally for every magnitude. -/
lemma magnitudeText_eq (b : Binary) : magnitudeText b = b.decimal.positional := by
  unfold magnitudeText Binary.decimal
  cases b.whole? with
  | none => rfl
  | some n =>
    simp only
    split
    · simp [Decimal.positional, Decimal.digits]
    · rfl

/-- The decimal that is written for a positive magnitude rounds to it. -/
lemma Binary.rounds_decimal {b : Binary} (hpos : 0 < b.mantissa) : b.Rounds b.decimal.toRat := by
  have hshortest : b.Rounds (b.shortest .up).toRat := Binary.rounds_shortest .up hpos
  unfold Binary.decimal
  cases hwhole : b.whole? with
  | none => exact hshortest
  | some n =>
    simp only
    split
    · -- the digits of a whole number are exact
      have hn : (⟨n, 0⟩ : Decimal).toRat = b.toRat := by
        simp [Decimal.toRat, Binary.toRat_of_whole? hwhole]
      rw [hn]
      exact Binary.rounds_toRat hpos
    · exact hshortest

/-- The digits of a magnitude start with a digit. -/
lemma exists_cons_magnitudeText (b : Binary) :
    ∃ c rest, magnitudeText b = c :: rest ∧ c.isDigit = true := by
  rw [magnitudeText_eq]
  exact b.decimal.exists_cons_positional

/-- What the digits of a magnitude stand for rounds to it. -/
theorem rounds_ofText_magnitudeText {b : Binary} (hpos : 0 < b.mantissa) :
    b.Rounds (Decimal.ofText (magnitudeText b)).toRat := by
  rw [magnitudeText_eq, Decimal.toRat_ofText_positional]
  exact Binary.rounds_decimal hpos

/-- Different magnitudes have different digits. -/
theorem magnitudeText_inj {b b' : Binary} (hb : Canonical b.mantissa b.exponent)
    (hb' : Canonical b'.mantissa b'.exponent) (h : magnitudeText b = magnitudeText b') :
    b = b' := by
  have hround := rounds_ofText_magnitudeText hb'.pos
  rw [← h] at hround
  exact (rounds_ofText_magnitudeText hb.pos).unique hround (Binary.isDouble_of_canonical hb)
    (Binary.isDouble_of_canonical hb')

/-! ## The text of a double -/

open Float.Model (UnpackedFloat)

/-- `Written x negative digits` says that `digits` are written for the double `x`, behind a minus
sign if `negative`. -/
inductive Written (x : Float) : Bool → List Char → Prop
  /-- Both zeros are written alike. -/
  | zero {s : UnpackedFloat.Sign} (h : x.toModel.unpack = .zero s) : Written x false ['0']
  /-- An infinity. -/
  | infinity (negative : Bool) (h : x.toModel.unpack = .infinity (signOf negative)) :
      Written x negative "Infinity".toList
  /-- Any other number. -/
  | finite (negative : Bool) {b : Binary} (hb : Canonical b.mantissa b.exponent)
      (h : x.toModel.unpack = .finite (signOf negative) b.mantissa b.exponent hb.pos) :
      Written x negative (magnitudeText b)

/-- What is not a number is unpacked to nothing else. -/
lemma unpack_ne_of_isNaN {x : Float} (hx : x.isNaN = false) : x.toModel.unpack ≠ .notANumber := by
  intro h
  have hnan : x.toModel.unpack.isNaN = false := hx
  rw [h] at hnan
  cases hnan

/-- Every number is written with a sign and digits. -/
lemma exists_written {x : Float} (hx : x.isNaN = false) :
    ∃ negative digits, Written x negative digits ∧
      (numberText x).toList = if negative then '-' :: digits else digits := by
  have hparts := Parts.ofFloat_eq x
  unfold numberText
  cases hu : x.toModel.unpack with
  | notANumber => exact absurd hu (unpack_ne_of_isNaN hx)
  | zero s =>
    refine ⟨false, _, .zero hu, ?_⟩
    simp [hparts, hu, Parts.ofUnpacked]
  | infinity s =>
    refine ⟨s == .negative, _, .infinity (s == .negative) ?_, ?_⟩
    · cases s <;> exact hu
    · cases s <;> simp [hparts, hu, Parts.ofUnpacked]
  | finite s m e hm =>
    have hfinite : Parts.ofFloat x = .finite (s == .negative) ⟨m, e⟩ := by
      rw [hparts, hu, Parts.ofUnpacked]
    refine ⟨s == .negative, _, .finite (b := ⟨m, e⟩) _ (canonical_of_ofFloat hfinite hm) ?_, ?_⟩
    · cases s <;> exact hu
    · simp only [hfinite, if_neg hm.ne', String.toList_ofList]

/-- The digits do not start with a minus sign. -/
lemma Written.exists_cons {x : Float} {negative : Bool} {digits : List Char}
    (h : Written x negative digits) :
    ∃ c rest, digits = c :: rest ∧ (c = 'I' ∨ c.isDigit = true) := by
  rcases h with _ | _ | ⟨_, hb, _⟩
  · exact ⟨'0', [], rfl, .inr (by decide)⟩
  · exact ⟨'I', _, rfl, .inl rfl⟩
  · obtain ⟨c, rest, hcons, hc⟩ := exists_cons_magnitudeText _
    exact ⟨c, rest, hcons, .inr hc⟩

/-- The digits are digits and points, or spell an infinity. -/
lemma Written.mem_cases {x : Float} {negative : Bool} {digits : List Char}
    (h : Written x negative digits) :
    ∀ c ∈ digits, c.isDigit = true ∨ c = '.' ∨ c ∈ "Infinity".toList := by
  intro c hc
  rcases h with _ | _ | ⟨_, hb, _⟩
  · obtain rfl := List.mem_singleton.mp hc
    exact .inl (by decide)
  · exact .inr (.inr hc)
  · rw [magnitudeText_eq] at hc
    rcases Decimal.isDigit_or_eq_of_mem_positional hc with hc | hc
    · exact .inl hc
    · exact .inr (.inl hc)

/-- The digits of a magnitude are not those of zero. -/
lemma magnitudeText_ne_zero {b : Binary} (hpos : 0 < b.mantissa) : magnitudeText b ≠ ['0'] := by
  intro h
  have hround := rounds_ofText_magnitudeText hpos
  rw [h, Decimal.toRat_ofText_zero] at hround
  exact lt_irrefl 0 (hround.pos hpos)

/-- The digits of a magnitude are not an infinity. -/
lemma magnitudeText_ne_infinity (b : Binary) : magnitudeText b ≠ "Infinity".toList := by
  intro h
  obtain ⟨c, rest, hcons, hc⟩ := exists_cons_magnitudeText b
  obtain ⟨rfl, -⟩ := List.cons.inj (hcons.symm.trans h)
  cases hc

/-- Sign and digits tell the number. -/
lemma Written.beq {x y : Float} {negative : Bool} {digits : List Char}
    (hx : Written x negative digits) (hy : Written y negative digits) : (x == y) = true := by
  rw [beq_eq_true_iff]
  generalize hd : digits = digits' at hy
  rcases hx with @⟨s, hx⟩ | ⟨_, hx⟩ | @⟨_, b, hb, hx⟩ <;>
    rcases hy with @⟨s', hy⟩ | ⟨_, hy⟩ | @⟨_, b', hb', hy⟩
  · rw [hx, hy]
    cases s <;> cases s' <;> simp
  · cases hd
  · exact absurd hd.symm (magnitudeText_ne_zero hb'.pos)
  · cases hd
  · simp [hx, hy]
  · exact absurd hd.symm (magnitudeText_ne_infinity b')
  · exact absurd hd (magnitudeText_ne_zero hb.pos)
  · exact absurd hd (magnitudeText_ne_infinity b)
  · obtain rfl := magnitudeText_inj hb hb' hd
    simp [hx, hy]

/-- The minus sign can be told from the digits. -/
lemma sign_digits_inj {x y : Float} {negative negative' : Bool} {digits digits' : List Char}
    (hx : Written x negative digits) (hy : Written y negative' digits')
    (h : (if negative then '-' :: digits else digits) =
      if negative' then '-' :: digits' else digits') : negative = negative' ∧ digits = digits' := by
  obtain ⟨c, rest, rfl, hc⟩ := hx.exists_cons
  obtain ⟨c', rest', rfl, hc'⟩ := hy.exists_cons
  have hminus : ∀ {a : Char}, a = 'I' ∨ a.isDigit = true → a ≠ '-' := by
    rintro a ha rfl
    revert ha
    decide
  cases negative <;> cases negative'
  · exact ⟨rfl, h⟩
  · exact absurd (List.cons.inj h).1 (hminus hc)
  · exact absurd (List.cons.inj h).1.symm (hminus hc')
  · exact ⟨rfl, (List.cons.inj h).2⟩

/-- Equal numbers have the same text. -/
lemma numberText_of_beq {x y : Float} (h : (x == y) = true) : numberText x = numberText y := by
  obtain ⟨-, -, heq | ⟨hzero, hzero'⟩ | ⟨hzero, hzero'⟩⟩ := beq_eq_true_iff.mp h
  · rw [eq_of_unpack_eq heq]
  all_goals simp [numberText, Parts.ofFloat_eq, hzero, hzero', Parts.ofUnpacked]

/-- The text of a number tells the number: two doubles have the same text exactly if they are equal
as floating-point numbers. -/
theorem numberText_eq_iff {x y : Float} (hx : x.isNaN = false) (hy : y.isNaN = false) :
    numberText x = numberText y ↔ (x == y) = true := by
  refine ⟨?_, numberText_of_beq⟩
  intro h
  obtain ⟨negative, digits, hwritten, htext⟩ := exists_written hx
  obtain ⟨negative', digits', hwritten', htext'⟩ := exists_written hy
  rw [h, htext'] at htext
  obtain ⟨rfl, rfl⟩ := sign_digits_inj hwritten' hwritten htext
  exact hwritten.beq hwritten'

end LetLang
