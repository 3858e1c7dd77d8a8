import LetLang.Json.Parser
import LetLang.Json.Printer
import LetLang.Proofs.IntegerText

/-!
# Texts that spell a value

Reading has two layers, and each is inverted on its own.  `Token.Cuts s ts` says that the text `s`
is cut into the tokens `ts`, whatever follows it behind a delimiter.  `Expecting.Spells ts depth v`
says that the tokens `ts` spell the value `v` wherever a value is due, if there is room for `depth`
more containers.  Escaped texts, numerals and arrays have both.
-/

namespace LetLang.Json

namespace Token

/-- The text `s` is cut into the tokens `ts`, whatever follows it behind a delimiter. -/
def Cuts (s : List Char) (ts : List Token) : Prop :=
  ∀ rest, Delimited rest → scan (s ++ rest) = ts ++ scan rest

/-! ## One token -/

/-- A token that was read is the first one. -/
lemma scan_of_next {c : Char} {rest rest' : List Char} {t : Token} (hblank : isBlank c = false)
    (h : next c rest = .ok (t, rest')) : scan (c :: rest) = t :: scan rest' := by
  rw [scan]
  simp only [hblank, Bool.false_eq_true, if_false]
  split
  · next h' => simp [h] at h'
  · next h' =>
    rw [h] at h'
    cases h'
    rfl

@[simp] lemma scan_openList (rest : List Char) : scan ('[' :: rest) = .openList :: scan rest :=
  scan_of_next rfl rfl

@[simp] lemma scan_closeList (rest : List Char) : scan (']' :: rest) = .closeList :: scan rest :=
  scan_of_next rfl rfl

@[simp] lemma scan_comma (rest : List Char) : scan (',' :: rest) = .comma :: scan rest :=
  scan_of_next rfl rfl

/-! ## Texts -/

/-- An escape stands for its character. -/
lemma readText_of_readEscape {before rest rest' : List Char} {d : Char}
    (h : readEscape rest = .ok (d, rest')) :
    readText before ('\\' :: rest) = readText (d :: before) rest' := by
  rw [readText]
  simp only [Char.reduceEq, if_false, if_true]
  split
  · next h' => simp [h] at h'
  · next h' =>
    rw [h] at h'
    cases h'
    rfl

/-- The value of a hexadecimal digit as it is written. -/
lemma hexValue?_digitChar : ∀ d < 16, hexValue? (Nat.digitChar d) = some d := by
  decide

/-- The escape of a control character without a letter of its own. -/
lemma readEscape_control {c : Char} (h : c.toNat < 32) (rest : List Char) :
    readEscape ('u' :: '0' :: '0' :: Nat.digitChar (c.toNat / 16) ::
      Nat.digitChar (c.toNat % 16) :: rest) = .ok (c, rest) := by
  have hzero : hexValue? '0' = some 0 := by decide
  have hhigh := hexValue?_digitChar (c.toNat / 16) (by omega)
  have hlow := hexValue?_digitChar (c.toNat % 16) (by omega)
  have hunit : readUnit ('0' :: '0' :: Nat.digitChar (c.toNat / 16) ::
      Nat.digitChar (c.toNat % 16) :: rest) = .ok (c.toNat, rest) := by
    have hbytes : ¬ byteLength (('0' :: '0' :: Nat.digitChar (c.toNat / 16) ::
        Nat.digitChar (c.toNat % 16) :: rest).take 4) < 4 := by
      have h1 := Char.utf8Size_pos '0'
      have h2 := Char.utf8Size_pos (Nat.digitChar (c.toNat / 16))
      have h3 := Char.utf8Size_pos (Nat.digitChar (c.toNat % 16))
      simp only [List.take, byteLength]
      omega
    have hvalue : ((0 * 16 + 0) * 16 + c.toNat / 16) * 16 + c.toNat % 16 = c.toNat := by omega
    simp only [readUnit, if_neg hbytes, hzero, hhigh, hlow, hvalue]
  have hlowSurrogate : isLowSurrogate c.toNat = false := by
    simp only [isLowSurrogate, Bool.and_eq_false_iff, decide_eq_false_iff_not]
    omega
  have hhighSurrogate : isHighSurrogate c.toNat = false := by
    simp only [isHighSurrogate, Bool.and_eq_false_iff, decide_eq_false_iff_not]
    omega
  simp only [readEscape, if_true, readCode, hunit, hlowSurrogate, hhighSurrogate,
    Bool.false_eq_true, if_false, Char.ofNat_toNat]

/-- A character is written as a letter behind a backslash, by its code, or as it is. -/
lemma escape_cases (c : Char) :
    (∃ letter, escape c = ['\\', letter] ∧ letter ≠ 'u' ∧ letterEscape? letter = some c) ∨
    (c.toNat < 32 ∧ escape c = ['\\', 'u', '0', '0', Nat.digitChar (c.toNat / 16),
      Nat.digitChar (c.toNat % 16)]) ∨
    (c ≠ '"' ∧ c ≠ '\\' ∧ ¬ c.toNat < 32 ∧ escape c = [c]) := by
  unfold escape
  split_ifs with hquote hbackslash h h h h h hcontrol
  -- seven characters are escaped by a letter or by themselves
  · exact .inl ⟨'"', rfl, by decide, congrArg some hquote.symm⟩
  · exact .inl ⟨'\\', rfl, by decide, congrArg some hbackslash.symm⟩
  · exact .inl ⟨'b', rfl, by decide, congrArg some h.symm⟩
  · exact .inl ⟨'f', rfl, by decide, congrArg some h.symm⟩
  · exact .inl ⟨'n', rfl, by decide, congrArg some h.symm⟩
  · exact .inl ⟨'r', rfl, by decide, congrArg some h.symm⟩
  · exact .inl ⟨'t', rfl, by decide, congrArg some h.symm⟩
  · exact .inr (.inl ⟨hcontrol, rfl⟩)
  · exact .inr (.inr ⟨hquote, hbackslash, hcontrol, rfl⟩)

/-- A character as it is written inside a quoted text stands for itself. -/
lemma readText_escape (before : List Char) (c : Char) (rest : List Char) :
    readText before (escape c ++ rest) = readText (c :: before) rest := by
  rcases escape_cases c with ⟨letter, heq, hu, hletter⟩ | ⟨hcontrol, heq⟩ |
    ⟨hquote, hbackslash, hcontrol, heq⟩
  · rw [heq]
    have hread : readEscape (letter :: rest) = .ok (c, rest) := by
      simp only [readEscape, if_neg hu, hletter]
    exact readText_of_readEscape hread
  · rw [heq]
    exact readText_of_readEscape (readEscape_control hcontrol rest)
  · rw [heq, List.singleton_append, readText, if_neg hquote, if_neg hbackslash, if_neg hcontrol]

/-- The characters of a quoted text stand for themselves. -/
lemma readText_flatMap_escape (before s rest : List Char) :
    readText before (s.flatMap escape ++ '"' :: rest) =
      .ok (String.ofList (before.reverse ++ s), rest) := by
  induction s generalizing before with
  | nil =>
    rw [List.flatMap_nil, List.nil_append, readText, if_pos rfl, List.append_nil]
  | cons c s ih =>
    rw [List.flatMap_cons, List.append_assoc, readText_escape, ih, List.reverse_cons,
      List.append_assoc, List.singleton_append]

/-- A quoted text is one token. -/
lemma cuts_quote (s : String) : Cuts (quote s).toList [.text s] := by
  intro rest _
  have hread : next '"' (s.toList.flatMap escape ++ '"' :: rest) = .ok (.text s, rest) := by
    change textToken (s.toList.flatMap escape ++ '"' :: rest) = _
    rw [textToken, readText_flatMap_escape, List.reverse_nil, List.nil_append,
      String.ofList_toList]
  have hscan := scan_of_next rfl hread
  simpa [quote] using hscan

/-! ## Numerals -/

/-- A numeral starts with a minus sign or a digit. -/
lemma exists_cons_of_numberToken {s : List Char} {r : Token × List Char}
    (h : numberToken s = .ok r) : ∃ c rest, s = c :: rest ∧ (c = '-' ∨ c.isDigit = true) := by
  cases s with
  | nil => cases h
  | cons c rest =>
    refine ⟨c, rest, rfl, ?_⟩
    by_contra hc
    obtain ⟨hminus, hdigit⟩ := not_or.mp hc
    have hdigits : Numeral.digitsOf (c :: rest) = [] := by simp [Numeral.digitsOf, hdigit]
    have hread : Numeral.read (c :: rest) = .error (Numeral.missingDigit (c :: rest)) := by
      unfold Numeral.read
      split
      · next heq => exact absurd (List.cons.inj heq).1 hminus
      · rw [Numeral.readUnsigned, hdigits]
    rw [numberToken, hread] at h
    cases h

/-- The characters with which other tokens start, and the blanks. -/
def nonNumeric : List Char :=
  ['[', ']', '\x7b', '\x7d', ',', ':', '"', 'n', 't', 'f', ' ', '\n', '\t', '\r']

/-- No numeral starts like another token. -/
lemma ne_of_nonNumeric {c : Char} (hc : c = '-' ∨ c.isDigit = true) : ∀ d ∈ nonNumeric, c ≠ d := by
  rintro d hd rfl
  have hother : ∀ d ∈ nonNumeric, ¬ (d = '-' ∨ d.isDigit = true) := by
    simp [nonNumeric]
  exact hother c hd hc

/-- A token that starts like a numeral is one. -/
lemma scan_of_numberToken {c : Char} {rest rest' : List Char} {t : Token}
    (hc : c = '-' ∨ c.isDigit = true) (h : numberToken (c :: rest) = .ok (t, rest')) :
    scan (c :: rest) = t :: scan rest' := by
  have hne := ne_of_nonNumeric hc
  simp only [nonNumeric, List.forall_mem_cons] at hne
  refine scan_of_next ?_ ?_
  · simp [isBlank, hne]
  · simp [next, punctuation?, word?, hne, hc, h]

/-- The text of a double that is a whole number is one token. -/
lemma exists_cuts_numberText {x : Float} (hx : IsWordInteger x) :
    ∃ v : Number, v.toFloat = unsignedZero x ∧
      Cuts (numberText x).toList [.scalar (.number v)] := by
  obtain ⟨v, hv, htoken⟩ := numberToken_numberText hx
  refine ⟨v, hv, ?_⟩
  intro rest hrest
  obtain ⟨c, cs, hcons, hc⟩ := exists_cons_of_numberToken (htoken rest hrest)
  have hread := htoken rest hrest
  rw [hcons] at hread ⊢
  exact scan_of_numberToken hc hread

/-! ## Arrays -/

/-- The tokens of items, each behind a comma. -/
def behindCommas (tss : List (List Token)) : List Token := tss.flatMap (.comma :: ·)

end Token

namespace Expecting

/-- A value is due inside the containers `around`. -/
inductive Awaits : Expecting → List Enclosing → Prop
  | value (around : List Enclosing) : Awaits (.value around) around
  | item (afterComma : Bool) (items : List Json) (around : List Enclosing) :
      Awaits (.item afterComma items around) (.list items :: around)

/-- The tokens `ts` spell the value `v` wherever one is due and `depth` more containers may be
open. -/
def Spells (ts : List Token) (depth : Nat) (v : Json) : Prop :=
  ∀ (state : Expecting) (around : List Enclosing) (tail : List Token), state.Awaits around →
    around.length + depth ≤ maxNesting → run state (ts ++ tail) = run (.after v around) tail

/-- Where a value is due, every token but the end of an array starts one. -/
lemma Awaits.step_eq {state : Expecting} {around : List Enclosing} (h : state.Awaits around)
    {t : Token} (ht : t ≠ .closeList) : state.step t = start around t := by
  cases h with
  | value => rfl
  | item afterComma items around =>
    cases t with
    | closeList => exact absurd rfl ht
    | _ => rfl

/-- One step of a run. -/
lemma run_cons {state state' : Expecting} {t : Token} (h : state.step t = .ok state')
    (tail : List Token) : run state (t :: tail) = run state' tail := by
  rw [run, h]

/-- A text spells itself. -/
lemma spells_text (s : String) : Spells [.text s] 0 (.string s) := by
  intro state around tail hstate _
  exact run_cons (hstate.step_eq (by simp)) tail

/-- A scalar spells itself. -/
lemma spells_scalar (v : Json) : Spells [.scalar v] 0 v := by
  intro state around tail hstate _
  exact run_cons (hstate.step_eq (by simp)) tail

/-- More room does no harm. -/
lemma Spells.mono {ts : List Token} {depth depth' : Nat} {v : Json} (h : Spells ts depth v)
    (hle : depth ≤ depth') : Spells ts depth' v := by
  intro state around tail hstate hdepth
  exact h state around tail hstate (by omega)

/-- Further items of an array are read up to its end. -/
lemma run_behindCommas {tss : List (List Token)} {vs : List Json} {depth : Nat}
    (h : List.Forall₂ (Spells · depth ·) tss vs) (v : Json) (items : List Json)
    (around : List Enclosing) (hdepth : around.length + 1 + depth ≤ maxNesting)
    (tail : List Token) :
    run (.after v (.list items :: around)) (Token.behindCommas tss ++ .closeList :: tail) =
      run (.after (.array (items.reverse ++ v :: vs)) around) tail := by
  induction h generalizing v items with
  | nil =>
    have hend : step (.after v (.list items :: around)) .closeList =
        .ok (.after (.array (v :: items).reverse) around) := rfl
    rw [Token.behindCommas, List.flatMap_nil, List.nil_append, run_cons hend, List.reverse_cons]
  | @cons ts v' tss vs hts _ ih =>
    have hcomma : step (.after v (.list items :: around)) .comma =
        .ok (.item true (v :: items) around) := rfl
    have hitem := hts _ _ (Token.behindCommas tss ++ .closeList :: tail)
      (.item true (v :: items) around) hdepth
    have hsplit : Token.behindCommas (ts :: tss) ++ .closeList :: tail =
        .comma :: (ts ++ (Token.behindCommas tss ++ .closeList :: tail)) := by
      simp [Token.behindCommas]
    rw [hsplit, run_cons hcomma, hitem, ih, List.reverse_cons, List.append_assoc,
      List.singleton_append]

/-- An array is spelled by its items between brackets. -/
lemma spells_array {ts : List Token} {tss : List (List Token)} {v : Json} {vs : List Json}
    {depth : Nat} (h : Spells ts depth v) (hs : List.Forall₂ (Spells · depth ·) tss vs) :
    Spells (.openList :: (ts ++ (Token.behindCommas tss ++ [.closeList]))) (depth + 1)
      (.array (v :: vs)) := by
  intro state around tail hstate hdepth
  have hopen : state.step .openList = .ok (.item false [] around) := by
    rw [hstate.step_eq (by simp), start, opened, if_pos (by omega)]
  have hfirst := h _ _ (Token.behindCommas tss ++ .closeList :: tail) (.item false [] around)
    (by simp only [List.length_cons]; omega)
  rw [List.cons_append, run_cons hopen, List.append_assoc, List.append_assoc,
    List.singleton_append, hfirst, run_behindCommas hs v [] around (by omega) tail,
    List.reverse_nil, List.nil_append]

end Expecting

end LetLang.Json
