import LetLang.Expr.Printer
import LetLang.Proofs.Grammar
import LetLang.Proofs.Spelling

/-!
# The source form reads back

The source form of a well-formed expression is JSON text, and the value that it spells stands for
the expression again.  The sign of a zero is not written, so that a negative zero comes back as the
positive one, to which it is equal; everything else comes back as it was.

`ReadsBack e` is the invariant of the induction: wherever a value is due, the text of `e` is read as
a value that stands for `e`, and the reader is left in front of whatever follows.  It passes from
the operands of an array to the array (`ReadsBack.headed`).
-/

namespace LetLang

namespace Expr

/-! ## Numbers, arrays and zeros in an expression -/

mutual

/-- The number literals of an expression, from left to right. -/
def numbers : Expr → List Float
  | .number x => [x]
  | .string _ => []
  | .binary _ l r => l.numbers ++ r.numbers
  | .form _ operands => numbersAll operands
  | .ident _ => []

/-- The number literals of several expressions. -/
def numbersAll : List Expr → List Float
  | [] => []
  | e :: es => e.numbers ++ numbersAll es

end

mutual

/-- The number of arrays that are nested in the source form. -/
def nesting : Expr → Nat
  | .number _ => 0
  | .string _ => 0
  | .binary _ l r => max l.nesting r.nesting + 1
  | .form _ operands => nestingAll operands + 1
  | .ident _ => 0

/-- The number of arrays that are nested in one of several source forms. -/
def nestingAll : List Expr → Nat
  | [] => 0
  | e :: es => max e.nesting (nestingAll es)

end

mutual

/-- The expression without the signs of its zeros. -/
def unsignZeros : Expr → Expr
  | .number x => .number (unsignedZero x)
  | .string content => .string content
  | .binary op l r => .binary op l.unsignZeros r.unsignZeros
  | .form k operands => .form k (unsignZerosAll operands)
  | .ident name => .ident name

/-- The expressions without the signs of their zeros. -/
def unsignZerosAll : List Expr → List Expr
  | [] => []
  | e :: es => e.unsignZeros :: unsignZerosAll es

end

mutual

/-- Only negative zeros have a sign to lose. -/
lemma unsignZeros_eq : ∀ e : Expr, (∀ x ∈ e.numbers, x ≠ -0) → e.unsignZeros = e
  | .number x, h => by rw [unsignZeros, unsignedZero_eq (h x (List.mem_singleton.mpr rfl))]
  | .string _, _ => rfl
  | .ident _, _ => rfl
  | .binary op l r, h => by
    obtain ⟨hl, hr⟩ := List.forall_mem_append.mp h
    rw [unsignZeros, unsignZeros_eq l hl, unsignZeros_eq r hr]
  | .form k es, h => by rw [unsignZeros, unsignZerosAll_eq es h]

/-- Only negative zeros have a sign to lose. -/
lemma unsignZerosAll_eq : ∀ es : List Expr, (∀ x ∈ numbersAll es, x ≠ -0) → unsignZerosAll es = es
  | [], _ => rfl
  | e :: es, h => by
    obtain ⟨he, hes⟩ := List.forall_mem_append.mp h
    rw [unsignZerosAll, unsignZeros_eq e he, unsignZerosAll_eq es hes]

end

mutual

/-- Without the signs of its zeros an expression is equal to what it was. -/
lemma same_unsignZeros : ∀ e : Expr, e.WellFormed → same e.unsignZeros e = true
  | .number _, h => unsignedZero_beq h
  | .string _, _ => beq_self_eq_true _
  | .ident _, _ => beq_self_eq_true _
  | .binary op l r, ⟨hl, hr⟩ => by
    simp only [unsignZeros, same, beq_self_eq_true, same_unsignZeros l hl, same_unsignZeros r hr,
      Bool.and_self]
  | .form k es, ⟨_, hes⟩ => by
    simp only [unsignZeros, same, beq_self_eq_true, sameAll_unsignZerosAll es hes, Bool.and_self]

/-- Without the signs of their zeros several expressions are equal to what they were. -/
lemma sameAll_unsignZerosAll : ∀ es : List Expr, WellFormedAll es →
    sameAll (unsignZerosAll es) es = true
  | [], _ => rfl
  | e :: es, ⟨he, hes⟩ => by
    simp only [unsignZerosAll, sameAll, same_unsignZeros e he, sameAll_unsignZerosAll es hes,
      Bool.and_self]

end

/-! ## Texts without escapes -/

open Json (escape quote)

/-- A text without special characters is quoted as it is. -/
lemma quote_of_plain {s : String} (h : ∀ c ∈ s.toList, escape c = [c]) :
    quote s = "\"" ++ s ++ "\"" := by
  have hescape : s.toList.flatMap escape = s.toList := by
    rw [List.flatMap_congr h, List.flatMap_singleton']
  refine String.toList_inj.mp ?_
  simp [quote, hescape]

/-- From the digits on only the backslash is escaped. -/
lemma escape_of_le {c : Char} (h : 48 ≤ c.toNat) (hbackslash : c ≠ '\\') : escape c = [c] := by
  have hne : ∀ d : Char, d.toNat < 48 → c ≠ d := by
    rintro d hd rfl
    omega
  simp only [escape, if_neg (hne '"' (by decide)), if_neg hbackslash,
    if_neg (hne '\x08' (by decide)), if_neg (hne '\x0c' (by decide)), if_neg (hne '\n' (by decide)),
    if_neg (hne '\r' (by decide)), if_neg (hne '\t' (by decide))]
  rw [if_neg (by omega)]

/-- The characters of names are not escaped. -/
lemma escape_of_word {c : Char} (h : Letter c ∨ Digit c ∨ c = '_') : escape c = [c] := by
  have hle : 48 ≤ c.toNat := by
    rcases h with (⟨hc, -⟩ | ⟨hc, -⟩) | ⟨hc, -⟩ | rfl
    · exact Nat.le_trans (by decide) (Char.le_def.mp hc)
    · exact Nat.le_trans (by decide) (Char.le_def.mp hc)
    · exact Char.le_def.mp hc
    · decide
  refine escape_of_le hle ?_
  rintro rfl
  revert h
  simp [Letter, Digit]

/-- A name is quoted as it is. -/
lemma quote_of_properName {name : String} (h : ProperName name) :
    quote name = "\"" ++ name ++ "\"" := by
  obtain ⟨c, rest, hname, hc, hrest⟩ := h
  refine quote_of_plain ?_
  rw [hname]
  intro d hd
  rcases List.mem_cons.mp hd with rfl | hd
  · exact escape_of_word (.inl hc)
  · exact escape_of_word (hrest d hd)

/-- An operator is quoted as it is. -/
lemma quote_symbol (op : Operator) : quote op.symbol = "\"" ++ op.symbol ++ "\"" := by
  cases op <;> rfl

/-- A keyword is quoted as it is. -/
lemma quote_word (k : Keyword) : quote k.word = "\"" ++ k.word ++ "\"" := by
  cases k <;> rfl

/-! ## Reading back -/

open Json (Denotes DenotesAll)
open Json.Token (Cuts behindCommas scan)
open Json.Expecting (Spells)

/-- The text of the expression is cut into tokens that spell a value which stands for the
expression, but for the signs of its zeros. -/
def ReadsBack (e : Expr) : Prop :=
  ∃ ts raw, Cuts e.text.toList ts ∧ Spells ts e.nesting raw ∧ raw.Denotes e.unsignZeros

/-- The texts of operands, each behind a comma, are read back up to the end of the array. -/
def OperandsReadBack (es : List Expr) : Prop :=
  ∃ tss raws,
    (∀ rest, scan ((operandsText es).toList ++ ']' :: rest) =
      behindCommas tss ++ .closeList :: scan rest) ∧
    List.Forall₂ (Spells · (nestingAll es) ·) tss raws ∧ DenotesAll raws (unsignZerosAll es)

/-- Behind the operands comes a comma or the end of the array. -/
lemma delimited_operandsText (es : List Expr) (rest : List Char) :
    Json.Delimited ((operandsText es).toList ++ ']' :: rest) := by
  cases es with
  | nil => exact .bracket rest
  | cons e es =>
    simp only [operandsText, String.toList_append]
    exact .comma _

/-- No operands are read back as such. -/
lemma operandsReadBack_nil : OperandsReadBack [] :=
  ⟨[], [], fun rest => Json.Token.scan_closeList rest, .nil, .nil⟩

/-- Operands are read back one by one. -/
lemma OperandsReadBack.cons {e : Expr} {es : List Expr} (h : e.ReadsBack)
    (hs : OperandsReadBack es) : OperandsReadBack (e :: es) := by
  obtain ⟨ts, raw, hcuts, hspells, hdenotes⟩ := h
  obtain ⟨tss, raws, hscan, hspellsAll, hdenotesAll⟩ := hs
  refine ⟨ts :: tss, raw :: raws, ?_, ?_, .cons hdenotes hdenotesAll⟩
  · intro rest
    have htext : (operandsText (e :: es)).toList ++ ']' :: rest =
        ',' :: (e.text.toList ++ ((operandsText es).toList ++ ']' :: rest)) := by
      simp [operandsText]
    rw [htext, Json.Token.scan_comma, hcuts _ (delimited_operandsText es rest), hscan rest]
    simp [behindCommas]
  · refine .cons (hspells.mono (Nat.le_max_left _ _)) (hspellsAll.imp ?_)
    intro ts v h
    exact h.mono (Nat.le_max_right _ _)

/-- An array is read back if its operands are. -/
lemma ReadsBack.headed {e : Expr} {es : List Expr} {head : String} (hs : OperandsReadBack es)
    (hhead : quote head = "\"" ++ head ++ "\"")
    (htext : e.text = "[\"" ++ head ++ "\"" ++ operandsText es ++ "]")
    (hnesting : nestingAll es + 1 ≤ e.nesting)
    (hdenotes : ∀ raws, DenotesAll raws (unsignZerosAll es) →
      (Json.array (.string head :: raws)).Denotes e.unsignZeros) : e.ReadsBack := by
  obtain ⟨tss, raws, hscan, hspells, hall⟩ := hs
  have hfirst : Spells [.text head] (nestingAll es) (.string head) :=
    (Json.Expecting.spells_text head).mono (Nat.zero_le _)
  refine ⟨_, _, ?_, (Json.Expecting.spells_array hfirst hspells).mono hnesting,
    hdenotes raws hall⟩
  intro rest _
  have hsplit : e.text.toList ++ rest =
      '[' :: ((quote head).toList ++ ((operandsText es).toList ++ ']' :: rest)) := by
    simp [htext, hhead]
  -- the head is followed by a comma or by the end of the array, which both delimit it
  rw [hsplit, Json.Token.scan_openList,
    Json.Token.cuts_quote head _ (delimited_operandsText es rest), hscan rest]
  simp

mutual

/-- Every well-formed expression over integers is read back. -/
theorem readsBack : ∀ e : Expr, e.WellFormed → (∀ x ∈ e.numbers, IsWordInteger x) → e.ReadsBack
  | .number x, _, hnumbers => by
    have hx : IsWordInteger x := hnumbers x (List.mem_singleton.mpr rfl)
    obtain ⟨v, hv, hcuts⟩ := Json.Token.exists_cuts_numberText hx
    refine ⟨_, _, hcuts, Json.Expecting.spells_scalar _, ?_⟩
    rw [unsignZeros, ← hv]
    exact .number v
  | .string content, _, _ =>
    ⟨_, _, Json.Token.cuts_quote _, Json.Expecting.spells_text _, .quoted content⟩
  | .ident name, hproper, _ => by
    refine ⟨[.text name], .string name, ?_, Json.Expecting.spells_text name, .ident hproper⟩
    rw [text, ← quote_of_properName hproper]
    exact Json.Token.cuts_quote name
  | .binary op l r, ⟨hl, hr⟩, hnumbers => by
    obtain ⟨hnl, hnr⟩ := List.forall_mem_append.mp hnumbers
    -- an operator is written like a keyword with two operands
    have hoperands : OperandsReadBack [l, r] :=
      .cons (readsBack l hl hnl) (.cons (readsBack r hr hnr) operandsReadBack_nil)
    refine .headed hoperands (quote_symbol op) ?_ ?_ ?_
    · refine String.toList_inj.mp ?_
      simp [text, operandsText]
    · simp [nesting, nestingAll]
    · rintro raws (_ | ⟨hleft, _ | ⟨hright, _ | _⟩⟩)
      exact .binary (mem_operatorTable_iff.mpr rfl) hleft hright
  | .form k es, ⟨hne, hes⟩, hnumbers => by
    refine .headed (operandsReadBack es hes hnumbers) (quote_word k) rfl (Nat.le_refl _) ?_
    intro raws hraws
    cases es with
    | nil => exact absurd rfl hne
    | cons e es =>
      cases hraws with
      | cons hfirst hothers => exact .form (mem_keywordTable_iff.mpr rfl) hfirst hothers

/-- Well-formed operands over integers are read back. -/
theorem operandsReadBack : ∀ es : List Expr, WellFormedAll es →
    (∀ x ∈ numbersAll es, IsWordInteger x) → OperandsReadBack es
  | [], _, _ => operandsReadBack_nil
  | e :: es, ⟨he, hes⟩, hnumbers => by
    obtain ⟨hne, hnes⟩ := List.forall_mem_append.mp hnumbers
    exact .cons (readsBack e he hne) (operandsReadBack es hes hnes)

end

/-- The source form reads back.  For a well-formed expression whose numbers are integers of a
magnitude below `2 ^ 64` and whose source form nests at most 127 arrays, the source form is JSON
text that stands for an equal expression, and for the expression itself if no number is a negative
zero. -/
theorem text_reads_back (e : Expr) (hwell : e.WellFormed)
    (hnumbers : ∀ x ∈ e.numbers, IsWordInteger x) (hnesting : e.nesting ≤ 127) :
    ∃ raw e', Json.parse e.text = .ok raw ∧ Expr.ofJson raw = .ok e' ∧ (e' == e) = true ∧
      ((∀ x ∈ e.numbers, x ≠ -0) → e' = e) := by
  obtain ⟨ts, raw, hcuts, hspells, hdenotes⟩ := readsBack e hwell hnumbers
  refine ⟨raw, e.unsignZeros, ?_, hdenotes.ofJson_eq, same_unsignZeros e hwell, unsignZeros_eq e⟩
  have hscan : scan e.text.toList = ts := by
    have hempty : scan [] = [] := by rw [scan]
    have h := hcuts [] .nil
    rwa [List.append_nil, hempty, List.append_nil] at h
  have hroom : 0 + e.nesting ≤ Json.maxNesting := (Nat.zero_add e.nesting).trans_le hnesting
  have hrun := hspells (.value []) [] [] (.value []) hroom
  rw [List.append_nil] at hrun
  rw [Json.parse, hscan, hrun]
  rfl

/-- A string with characters that need escapes, the negative double of the largest magnitude below
`2 ^ 64`, and a negative zero are read back. -/
theorem text_reads_back_quotient : ∃ e : Expr,
    e = .form .letForm [.ident "x_1", .binary .div
      (.binary .add (.string "\"\\\n\x01é") (.number (-18446744073709549568))) (.number (-0))] ∧
    e.WellFormed ∧ (∀ x ∈ e.numbers, IsWordInteger x) ∧ e.nesting ≤ 127 ∧
    ∃ raw e', Json.parse e.text = .ok raw ∧ Expr.ofJson raw = .ok e' ∧ (e' == e) = true ∧
      ((∀ x ∈ e.numbers, x ≠ -0) → e' = e) := by
  have hlarge : Parts.ofFloat (-18446744073709549568) = .finite true ⟨9007199254740991, 11⟩ := by
    decide +kernel
  have hzero : Parts.ofFloat (-0) = .finite true ⟨0, -1074⟩ := by decide +kernel
  have hlargeFinite : Float.isFinite (-18446744073709549568) = true := by decide +kernel
  have hzeroFinite : Float.isFinite (-0) = true := by decide +kernel
  obtain ⟨e, he⟩ : ∃ e : Expr, e = .form .letForm [.ident "x_1", .binary .div
      (.binary .add (.string "\"\\\n\x01é") (.number (-18446744073709549568)))
      (.number (-0))] := ⟨_, rfl⟩
  have hwell : e.WellFormed := by
    rw [he]
    exact ⟨List.cons_ne_nil _ _, isName_iff.mp (by decide),
      ⟨⟨trivial, hlargeFinite⟩, hzeroFinite⟩, trivial⟩
  have hnumbers : ∀ x ∈ e.numbers, IsWordInteger x := by
    rw [he]
    simp only [numbers, numbersAll, List.nil_append, List.append_nil, List.singleton_append,
      List.forall_mem_cons]
    refine ⟨⟨-18446744073709549568, by decide, ?_⟩, ⟨0, by decide, ?_⟩, List.forall_mem_nil _⟩
    · rw [hlarge]
      norm_num [Parts.toRat?, Binary.toRat]
    · rw [hzero]
      norm_num [Parts.toRat?, Binary.toRat]
  have hnesting : e.nesting ≤ 127 := by
    rw [he]
    simp [nesting, nestingAll]
  exact ⟨e, he, hwell, hnumbers, hnesting, text_reads_back e hwell hnumbers hnesting⟩

end Expr

end LetLang
