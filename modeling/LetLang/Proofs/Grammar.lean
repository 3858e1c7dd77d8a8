import LetLang.Expr.Reading
import LetLang.Proofs.FiniteDouble

/-!
# The grammar of expressions in JSON

`Json.Denotes` says by rules which expression a JSON value stands for.  The rules overlap in nothing
but their form: whether a text is a literal or a variable, and whether an array is headed by an
operator or by a keyword, is decided by the value alone.  So the order in which a reader tries the
shapes does not matter (`firstShape_eq`), and a value stands for at most one expression.

The reader accepts exactly what the rules allow (`ofJson_eq_ok_iff`), and the expressions that can
be read are exactly the well-formed ones: their numbers are finite, their variables have proper
names, and their keywords have operands.
-/

namespace LetLang

/-! ## Names -/

/-- A letter of the ASCII alphabet. -/
def Letter (c : Char) : Prop := ('a' ≤ c ∧ c ≤ 'z') ∨ ('A' ≤ c ∧ c ≤ 'Z')

/-- An ASCII digit. -/
def Digit (c : Char) : Prop := '0' ≤ c ∧ c ≤ '9'

/-- A letter followed by letters, digits and underscores. -/
def ProperName (s : String) : Prop :=
  ∃ c rest, s.toList = c :: rest ∧ Letter c ∧ ∀ d ∈ rest, Letter d ∨ Digit d ∨ d = '_'

/-- The test for letters accepts just the ASCII ones. -/
lemma isAlpha_iff {c : Char} : c.isAlpha = true ↔ Letter c := by
  simp only [Char.isAlpha, Char.isUpper, Char.isLower, Letter, Bool.or_eq_true, Bool.and_eq_true,
    decide_eq_true_eq, Char.le_def]
  exact or_comm

/-- The test for letters and digits accepts just the ASCII ones. -/
lemma isAlphanum_iff {c : Char} : c.isAlphanum = true ↔ Letter c ∨ Digit c := by
  rw [Char.isAlphanum, Bool.or_eq_true, isAlpha_iff]
  simp [Char.isDigit, Digit, Char.le_def]

/-- The test for names accepts exactly the proper ones. -/
lemma isName_iff {s : String} : isName s = true ↔ ProperName s := by
  unfold isName ProperName
  cases s.toList with
  | nil => simp
  | cons c rest =>
    simp only [Bool.and_eq_true, List.all_eq_true, Bool.or_eq_true, beq_iff_eq, isAlpha_iff,
      isAlphanum_iff, or_assoc]
    constructor
    · rintro ⟨hc, hrest⟩
      exact ⟨c, rest, rfl, hc, hrest⟩
    · rintro ⟨_, _, hcons, hc, hrest⟩
      cases hcons
      exact ⟨hc, hrest⟩

/-! ## The rules -/

/-- The operators as they are written. -/
def operatorTable : List (String × Operator) :=
  [("+", .add), ("-", .sub), ("*", .mul), ("/", .div)]

/-- The keywords as they are written. -/
def keywordTable : List (String × Keyword) :=
  [("let", .letForm), ("set", .setForm), ("begin", .beginForm)]

/-- The table gives each operator its symbol. -/
lemma mem_operatorTable_iff {head : String} {op : Operator} :
    (head, op) ∈ operatorTable ↔ head = op.symbol := by
  cases op <;> simp [operatorTable, Operator.symbol]

/-- The table gives each keyword its word. -/
lemma mem_keywordTable_iff {head : String} {k : Keyword} :
    (head, k) ∈ keywordTable ↔ head = k.word := by
  cases k <;> simp [keywordTable, Keyword.word]

mutual

/-- `raw.Denotes e` says that the JSON value `raw` stands for the expression `e`. -/
inductive Json.Denotes : Json → Expr → Prop
  /-- A number stands for its double. -/
  | number (n : Json.Number) : Json.Denotes (.number n) (.number n.toFloat)
  /-- A text between quotes stands for the string between them. -/
  | quoted (content : String) :
      Json.Denotes (.string ("\"" ++ content ++ "\"")) (.string content)
  /-- A single quote stands for the empty string. -/
  | loneQuote : Json.Denotes (.string "\"") (.string "")
  /-- A name stands for the variable. -/
  | ident {name : String} (h : ProperName name) : Json.Denotes (.string name) (.ident name)
  /-- An operator is followed by its two operands. -/
  | binary {head : String} {op : Operator} {left right : Json} {l r : Expr}
      (hop : (head, op) ∈ operatorTable) (hl : Json.Denotes left l) (hr : Json.Denotes right r) :
      Json.Denotes (.array [.string head, left, right]) (.binary op l r)
  /-- A keyword is followed by one or more operands. -/
  | form {head : String} {k : Keyword} {first : Json} {others : List Json} {e : Expr}
      {es : List Expr} (hk : (head, k) ∈ keywordTable) (h : Json.Denotes first e)
      (hs : Json.DenotesAll others es) :
      Json.Denotes (.array (.string head :: first :: others)) (.form k (e :: es))

/-- Several values stand for as many expressions, one by one. -/
inductive Json.DenotesAll : List Json → List Expr → Prop
  /-- No values stand for no expressions. -/
  | nil : Json.DenotesAll [] []
  /-- The first value stands for the first expression. -/
  | cons {raw : Json} {raws : List Json} {e : Expr} {es : List Expr} (h : Json.Denotes raw e)
      (hs : Json.DenotesAll raws es) : Json.DenotesAll (raw :: raws) (e :: es)

end

mutual

/-- All numbers in the expression are finite, all variables have proper names, and all keywords have
operands. -/
def Expr.WellFormed : Expr → Prop
  | .number x => x.isFinite = true
  | .string _ => True
  | .ident name => ProperName name
  | .binary _ l r => l.WellFormed ∧ r.WellFormed
  | .form _ operands => operands ≠ [] ∧ Expr.WellFormedAll operands

/-- All expressions of a list are well-formed. -/
def Expr.WellFormedAll : List Expr → Prop
  | [] => True
  | e :: es => e.WellFormed ∧ Expr.WellFormedAll es

end

namespace Expr

/-! ## The shapes of texts -/

/-- A text is a literal exactly if it stands between quotes or is a single one. -/
lemma ofQuoted?_eq_some_iff {s : String} {e : Expr} :
    ofQuoted? s = some e ↔
      (∃ content, s = "\"" ++ content ++ "\"" ∧ e = .string content) ∨
        (s = "\"" ∧ e = .string "") := by
  constructor
  · intro h
    rcases hs : s.toList with _ | ⟨c, rest⟩
    · simp [ofQuoted?, hs] at h
    · by_cases hquote : c = '"'
      · subst hquote
        rcases rest.eq_nil_or_concat with rfl | ⟨content, d, rfl⟩
        · have he : .string "" = e := by simpa [ofQuoted?, hs] using h
          exact .inr ⟨String.toList_inj.mp hs, he.symm⟩
        · have hd : d = '"' ∧ .string (String.ofList content) = e := by
            simpa [ofQuoted?, hs] using h
          obtain ⟨rfl, rfl⟩ := hd
          refine .inl ⟨String.ofList content, String.toList_inj.mp ?_, rfl⟩
          simp [hs]
      · simp [ofQuoted?, hs, hquote] at h
  · rintro (⟨content, rfl, rfl⟩ | ⟨rfl, rfl⟩)
    · simp [ofQuoted?]
    · rfl

/-- A text is a variable exactly if it is a proper name. -/
lemma ofName?_eq_some_iff {s : String} {e : Expr} :
    ofName? s = some e ↔ ProperName s ∧ e = .ident s := by
  unfold ofName?
  split
  · next h => simp [isName_iff.mp h, eq_comm]
  · next h => simp [mt isName_iff.mpr h]

/-- A proper name does not start with a quote, so it is no literal. -/
lemma ofQuoted?_of_properName {s : String} (h : ProperName s) : ofQuoted? s = none := by
  obtain ⟨c, rest, hs, hc, -⟩ := h
  have hquote : c ≠ '"' := by
    rintro rfl
    revert hc
    simp [Letter]
  simp [ofQuoted?, hs, hquote]

/-! ## The shapes of values -/

/-- Only an operator with two operands has the shape of one. -/
lemma headedShape_eq_binary {head : String} {operands : List Json} {op : Operator}
    {left right : Json} (h : headedShape head operands = .binary op left right) :
    head = op.symbol ∧ operands = [left, right] := by
  unfold headedShape at h
  split at h
  · next hop =>
    cases h
    exact ⟨Operator.ofSymbol?_eq_some_iff.mp hop, rfl⟩
  · cases h
  · cases h

/-- Only a keyword with an operand has the shape of one. -/
lemma headedShape_eq_form {head : String} {operands : List Json} {k : Keyword} {first : Json}
    {others : List Json} (h : headedShape head operands = .form k first others) :
    head = k.word ∧ operands = first :: others := by
  unfold headedShape at h
  split at h
  · cases h
  · next hk _ =>
    cases h
    exact ⟨Keyword.ofWord?_eq_some_iff.mp hk, rfl⟩
  · cases h

/-- No keyword is an operator. -/
lemma ofSymbol?_word (k : Keyword) : Operator.ofSymbol? k.word = none := by
  cases k <;> rfl

/-- The values with the shape of an operator. -/
lemma shape_eq_binary_iff {raw left right : Json} {op : Operator} :
    shape raw = .binary op left right ↔ raw = .array [.string op.symbol, left, right] := by
  constructor
  · intro h
    unfold shape at h
    split at h
    · cases h
    · exact absurd h textShape_ne_binary
    · obtain ⟨rfl, rfl⟩ := headedShape_eq_binary h
      rfl
    · cases h
  · rintro rfl
    simp [shape, headedShape, Operator.ofSymbol?_symbol]

/-- The values with the shape of a keyword. -/
lemma shape_eq_form_iff {raw first : Json} {others : List Json} {k : Keyword} :
    shape raw = .form k first others ↔ raw = .array (.string k.word :: first :: others) := by
  constructor
  · intro h
    unfold shape at h
    split at h
    · cases h
    · exact absurd h textShape_ne_form
    · obtain ⟨rfl, rfl⟩ := headedShape_eq_form h
      rfl
    · cases h
  · rintro rfl
    simp [shape, headedShape, ofSymbol?_word, Keyword.ofWord?_word]

/-- An array is neither a literal nor a variable. -/
lemma headedShape_ne_leaf {head : String} {operands : List Json} {e : Expr} :
    headedShape head operands ≠ .leaf e := by
  unfold headedShape
  split <;> simp

/-- The texts with the shape of a literal or a variable. -/
lemma textShape_eq_leaf_iff {s : String} {e : Expr} :
    textShape s = .leaf e ↔ ofQuoted? s = some e ∨ ofName? s = some e := by
  unfold textShape
  cases hname : ofName? s with
  | none => cases ofQuoted? s <;> simp
  | some e' =>
    obtain ⟨hproper, -⟩ := ofName?_eq_some_iff.mp hname
    simp [ofQuoted?_of_properName hproper]

/-- The values with the shape of a literal or a variable. -/
lemma shape_eq_leaf_iff {raw : Json} {e : Expr} :
    shape raw = .leaf e ↔
      (∃ n, raw = .number n ∧ e = .number n.toFloat) ∨
        ∃ s, raw = .string s ∧ (ofQuoted? s = some e ∨ ofName? s = some e) := by
  constructor
  · intro h
    unfold shape at h
    split at h
    · next n =>
      cases h
      exact .inl ⟨n, rfl, rfl⟩
    · next s => exact .inr ⟨s, rfl, textShape_eq_leaf_iff.mp h⟩
    · exact absurd h headedShape_ne_leaf
    · cases h
  · rintro (⟨n, rfl, rfl⟩ | ⟨s, rfl, h⟩)
    · rfl
    · exact textShape_eq_leaf_iff.mpr h

/-! ## The order of the shapes -/

/-- Recognises a number. -/
def numberTest : Json → Option Shape
  | .number n => some (.leaf (.number n.toFloat))
  | _ => none

/-- Recognises a literal. -/
def quotedTest : Json → Option Shape
  | .string s => (ofQuoted? s).map .leaf
  | _ => none

/-- Recognises an operator with two operands. -/
def operatorTest : Json → Option Shape
  | .array [.string head, left, right] =>
    (Operator.ofSymbol? head).map fun op => .binary op left right
  | _ => none

/-- Recognises a keyword with at least one operand. -/
def keywordTest : Json → Option Shape
  | .array (.string head :: first :: others) =>
    (Keyword.ofWord? head).map fun k => .form k first others
  | _ => none

/-- Recognises a variable. -/
def nameTest : Json → Option Shape
  | .string s => (ofName? s).map .leaf
  | _ => none

/-- The tests for the shapes of the language. -/
def shapeTests : List (Json → Option Shape) :=
  [numberTest, quotedTest, operatorTest, keywordTest, nameTest]

/-- The shape that the first test to apply recognises. -/
def firstShape (tests : List (Json → Option Shape)) (raw : Json) : Shape :=
  (tests.findSome? fun test => test raw).getD .unknown

/-- What any test recognises is the shape of the value. -/
lemma shape_of_test {test : Json → Option Shape} (htest : test ∈ shapeTests) {raw : Json}
    {s : Shape} (h : test raw = some s) : shape raw = s := by
  simp only [shapeTests, List.mem_cons, List.not_mem_nil, or_false] at htest
  rcases htest with rfl | rfl | rfl | rfl | rfl
  · unfold numberTest at h
    split at h
    · cases h
      rfl
    · cases h
  · unfold quotedTest at h
    split at h
    · next t =>
      obtain ⟨e, he, rfl⟩ := Option.map_eq_some_iff.mp h
      exact shape_eq_leaf_iff.mpr (.inr ⟨t, rfl, .inl he⟩)
    · cases h
  · unfold operatorTest at h
    split at h
    · next head left right =>
      obtain ⟨op, hop, rfl⟩ := Option.map_eq_some_iff.mp h
      rw [shape_eq_binary_iff, Operator.ofSymbol?_eq_some_iff.mp hop]
    · cases h
  · unfold keywordTest at h
    split at h
    · next head first others =>
      obtain ⟨k, hk, rfl⟩ := Option.map_eq_some_iff.mp h
      rw [shape_eq_form_iff, Keyword.ofWord?_eq_some_iff.mp hk]
    · cases h
  · unfold nameTest at h
    split at h
    · next t =>
      obtain ⟨e, he, rfl⟩ := Option.map_eq_some_iff.mp h
      exact shape_eq_leaf_iff.mpr (.inr ⟨t, rfl, .inr he⟩)
    · cases h

/-- Each shape of the language is recognised by a test. -/
lemma exists_test {raw : Json} (h : shape raw ≠ .unknown) :
    ∃ test ∈ shapeTests, test raw = some (shape raw) := by
  cases hs : shape raw with
  | unknown => exact absurd hs h
  | leaf e =>
    rcases shape_eq_leaf_iff.mp hs with ⟨n, rfl, rfl⟩ | ⟨s, rfl, he | he⟩
    · exact ⟨numberTest, by simp [shapeTests], rfl⟩
    · exact ⟨quotedTest, by simp [shapeTests], by simp [quotedTest, he]⟩
    · exact ⟨nameTest, by simp [shapeTests], by simp [nameTest, he]⟩
  | binary op left right =>
    obtain rfl := shape_eq_binary_iff.mp hs
    exact ⟨operatorTest, by simp [shapeTests], by simp [operatorTest, Operator.ofSymbol?_symbol]⟩
  | form k first others =>
    obtain rfl := shape_eq_form_iff.mp hs
    exact ⟨keywordTest, by simp [shapeTests], by simp [keywordTest, Keyword.ofWord?_word]⟩

/-- In whatever order the tests are tried, the first one to apply finds the shape of the value. -/
theorem firstShape_eq {order : List (Json → Option Shape)} (horder : order.Perm shapeTests)
    (raw : Json) : firstShape order raw = shape raw := by
  unfold firstShape
  cases hfirst : order.findSome? fun test => test raw with
  | some s =>
    obtain ⟨test, htest, hs⟩ := List.exists_of_findSome?_eq_some hfirst
    exact (shape_of_test (horder.mem_iff.mp htest) hs).symm
  | none =>
    by_cases hunknown : shape raw = .unknown
    · rw [hunknown]
      rfl
    · obtain ⟨test, htest, hs⟩ := exists_test hunknown
      have hnone := List.findSome?_eq_none_iff.mp hfirst test (horder.mem_iff.mpr htest)
      rw [hs] at hnone
      cases hnone

/-! ## Reading by the shape -/

/-- A statement holds of all JSON values if it passes from the operands of a value to the value. -/
@[elab_as_elim]
theorem induction_on_shape {motive : Json → Prop}
    (leaf : ∀ raw e, shape raw = .leaf e → motive raw)
    (binary : ∀ (op : Operator) left right, motive left → motive right →
      motive (.array [.string op.symbol, left, right]))
    (form : ∀ (k : Keyword) first others, motive first → (∀ raw ∈ others, motive raw) →
      motive (.array (.string k.word :: first :: others)))
    (unknown : ∀ raw, shape raw = .unknown → motive raw) (raw : Json) : motive raw := by
  cases hs : shape raw with
  | leaf e => exact leaf raw e hs
  | unknown => exact unknown raw hs
  | binary op left right =>
    have hsize := sizeOf_shape_binary hs
    obtain rfl := shape_eq_binary_iff.mp hs
    exact binary op left right (induction_on_shape leaf binary form unknown left)
      (induction_on_shape leaf binary form unknown right)
  | form k first others =>
    have hsize := sizeOf_shape_form hs
    obtain rfl := shape_eq_form_iff.mp hs
    refine form k first others (induction_on_shape leaf binary form unknown first) ?_
    intro j hj
    have hsizej := List.sizeOf_lt_of_mem hj
    exact induction_on_shape leaf binary form unknown j
termination_by sizeOf raw

/-- A literal or a variable is read at once. -/
lemma ofJson_leaf {raw : Json} {e : Expr} (h : shape raw = .leaf e) : ofJson raw = .ok e := by
  rw [ofJson_eq, h]

/-- A value without a shape is reported. -/
lemma ofJson_unknown {raw : Json} (h : shape raw = .unknown) : ofJson raw = .error ⟨raw⟩ := by
  rw [ofJson_eq, h]

/-- Several values are read from left to right. -/
lemma ofJsonAll_cons (raw : Json) (raws : List Json) :
    ofJsonAll (raw :: raws) = (ofJson raw).bind fun e => (ofJsonAll raws).map (e :: ·) := by
  rw [ofJsonAll]
  cases ofJson raw with
  | error u => rfl
  | ok e => cases ofJsonAll raws <;> rfl

/-- The operands of an operator are read from left to right. -/
lemma ofJson_binary (op : Operator) (left right : Json) :
    ofJson (.array [.string op.symbol, left, right]) =
      (ofJson left).bind fun l => (ofJson right).map (.binary op l) := by
  rw [ofJson_eq, shape_eq_binary_iff.mpr rfl]
  dsimp only
  cases ofJson left with
  | error u => rfl
  | ok l => cases ofJson right <;> rfl

/-- A keyword is put before its operands. -/
lemma ofJson_form (k : Keyword) (first : Json) (others : List Json) :
    ofJson (.array (.string k.word :: first :: others)) =
      (ofJsonAll (first :: others)).map (.form k) := by
  rw [ofJson_eq, shape_eq_form_iff.mpr rfl]
  dsimp only
  cases ofJsonAll (first :: others) <;> rfl

/-- Where one value is read after another, both are read if there is a result. -/
lemma exists_of_bind_map_eq_ok {α β γ : Type} {x : Except Unrecognized α}
    {y : Except Unrecognized β} {f : α → β → γ} {c : γ}
    (h : (x.bind fun a => y.map (f a)) = .ok c) : ∃ a b, x = .ok a ∧ y = .ok b ∧ f a b = c := by
  cases x with
  | error u => cases h
  | ok a =>
    cases y with
    | error u => cases h
    | ok b => exact ⟨a, b, rfl, rfl, Except.ok.inj h⟩

end Expr

/-! ## The reader and the rules -/

namespace Json

/-- A value that is read as a literal or a variable stands for it. -/
lemma denotes_of_leaf {raw : Json} {e : Expr} (h : Expr.shape raw = .leaf e) : raw.Denotes e := by
  rcases Expr.shape_eq_leaf_iff.mp h with ⟨n, rfl, rfl⟩ | ⟨s, rfl, hquoted | hname⟩
  · exact .number n
  · rcases Expr.ofQuoted?_eq_some_iff.mp hquoted with ⟨content, rfl, rfl⟩ | ⟨rfl, rfl⟩
    · exact .quoted content
    · exact .loneQuote
  · obtain ⟨hproper, rfl⟩ := Expr.ofName?_eq_some_iff.mp hname
    exact .ident hproper

/-- If each of several values stands for what it is read as, so do all of them. -/
lemma denotesAll_of_ofJsonAll {raws : List Json} {es : List Expr}
    (hraws : ∀ raw ∈ raws, ∀ e, Expr.ofJson raw = .ok e → raw.Denotes e)
    (h : Expr.ofJsonAll raws = .ok es) : DenotesAll raws es := by
  induction raws generalizing es with
  | nil =>
    cases h
    exact .nil
  | cons raw raws ih =>
    rw [Expr.ofJsonAll_cons] at h
    obtain ⟨e, es, he, hes, rfl⟩ := Expr.exists_of_bind_map_eq_ok h
    exact .cons (hraws raw (by simp) e he) (ih (fun j hj => hraws j (by simp [hj])) hes)

/-- What the reader accepts follows the rules. -/
theorem denotes_of_ofJson (raw : Json) : ∀ e, Expr.ofJson raw = .ok e → raw.Denotes e := by
  induction raw using Expr.induction_on_shape with
  | leaf raw e hs =>
    intro e' h
    rw [Expr.ofJson_leaf hs] at h
    cases h
    exact denotes_of_leaf hs
  | binary op left right ihl ihr =>
    intro e h
    rw [Expr.ofJson_binary] at h
    obtain ⟨l, r, hl, hr, rfl⟩ := Expr.exists_of_bind_map_eq_ok h
    exact .binary (mem_operatorTable_iff.mpr rfl) (ihl l hl) (ihr r hr)
  | form k first others ih ihs =>
    intro e h
    rw [Expr.ofJson_form] at h
    cases hes : Expr.ofJsonAll (first :: others) with
    | error u =>
      rw [hes] at h
      cases h
    | ok es =>
      rw [hes] at h
      cases h
      have hall : DenotesAll (first :: others) es := by
        refine denotesAll_of_ofJsonAll ?_ hes
        intro raw hraw
        rcases List.mem_cons.mp hraw with rfl | hmem
        · exact ih
        · exact ihs raw hmem
      cases hall with
      | cons hfirst hothers => exact .form (mem_keywordTable_iff.mpr rfl) hfirst hothers
  | unknown raw hs =>
    intro e h
    rw [Expr.ofJson_unknown hs] at h
    cases h

mutual

/-- What follows the rules is accepted by the reader. -/
theorem Denotes.ofJson_eq {raw : Json} {e : Expr} : raw.Denotes e → Expr.ofJson raw = .ok e
  | .number n => Expr.ofJson_leaf (Expr.shape_eq_leaf_iff.mpr (.inl ⟨n, rfl, rfl⟩))
  | .quoted content => by
    have hquoted := Expr.ofQuoted?_eq_some_iff.mpr (.inl ⟨content, rfl, rfl⟩)
    exact Expr.ofJson_leaf (Expr.shape_eq_leaf_iff.mpr (.inr ⟨_, rfl, .inl hquoted⟩))
  | .loneQuote => by
    have hquoted := Expr.ofQuoted?_eq_some_iff.mpr (.inr ⟨rfl, rfl⟩)
    exact Expr.ofJson_leaf (Expr.shape_eq_leaf_iff.mpr (.inr ⟨_, rfl, .inl hquoted⟩))
  | .ident hproper => by
    have hname := Expr.ofName?_eq_some_iff.mpr ⟨hproper, rfl⟩
    exact Expr.ofJson_leaf (Expr.shape_eq_leaf_iff.mpr (.inr ⟨_, rfl, .inr hname⟩))
  | .binary hop hl hr => by
    obtain rfl := mem_operatorTable_iff.mp hop
    rw [Expr.ofJson_binary, hl.ofJson_eq, hr.ofJson_eq]
    rfl
  | .form hk h hs => by
    obtain rfl := mem_keywordTable_iff.mp hk
    rw [Expr.ofJson_form, Expr.ofJsonAll_cons, h.ofJson_eq, hs.ofJsonAll_eq]
    rfl

/-- Several values that follow the rules are accepted by the reader. -/
theorem DenotesAll.ofJsonAll_eq {raws : List Json} {es : List Expr} :
    DenotesAll raws es → Expr.ofJsonAll raws = .ok es
  | .nil => rfl
  | .cons h hs => by
    rw [Expr.ofJsonAll_cons, h.ofJson_eq, hs.ofJsonAll_eq]
    rfl

end

/-- The reader accepts exactly what follows the rules. -/
lemma ofJson_eq_ok_iff {raw : Json} {e : Expr} : Expr.ofJson raw = .ok e ↔ raw.Denotes e :=
  ⟨denotes_of_ofJson raw e, Denotes.ofJson_eq⟩

/-! ## The expressions that can be read -/

mutual

/-- What a value stands for is well-formed. -/
theorem Denotes.wellFormed {raw : Json} {e : Expr} : raw.Denotes e → e.WellFormed
  | .number n => n.isFinite_toFloat
  | .quoted _ => trivial
  | .loneQuote => trivial
  | .ident hproper => hproper
  | .binary _ hl hr => ⟨hl.wellFormed, hr.wellFormed⟩
  | .form _ h hs => ⟨List.cons_ne_nil _ _, h.wellFormed, hs.wellFormed⟩

/-- What several values stand for is well-formed. -/
theorem DenotesAll.wellFormed {raws : List Json} {es : List Expr} :
    DenotesAll raws es → Expr.WellFormedAll es
  | .nil => trivial
  | .cons h hs => ⟨h.wellFormed, hs.wellFormed⟩

end

mutual

/-- Every well-formed expression is what some value stands for. -/
theorem exists_denotes : ∀ e : Expr, e.WellFormed → ∃ raw : Json, raw.Denotes e
  | .number x, hfinite => ⟨.number (.float x hfinite), .number _⟩
  | .string content, _ => ⟨_, .quoted content⟩
  | .ident name, hproper => ⟨_, .ident hproper⟩
  | .binary op l r, ⟨hl, hr⟩ => by
    obtain ⟨left, hleft⟩ := exists_denotes l hl
    obtain ⟨right, hright⟩ := exists_denotes r hr
    exact ⟨_, .binary (mem_operatorTable_iff.mpr rfl) hleft hright⟩
  | .form k [], ⟨hne, _⟩ => absurd rfl hne
  | .form k (e :: es), ⟨_, he, hes⟩ => by
    obtain ⟨first, hfirst⟩ := exists_denotes e he
    obtain ⟨others, hothers⟩ := exists_denotesAll es hes
    exact ⟨_, .form (mem_keywordTable_iff.mpr rfl) hfirst hothers⟩

/-- Every list of well-formed expressions is what some values stand for. -/
theorem exists_denotesAll : ∀ es : List Expr, Expr.WellFormedAll es →
    ∃ raws : List Json, DenotesAll raws es
  | [], _ => ⟨[], .nil⟩
  | e :: es, ⟨he, hes⟩ => by
    obtain ⟨raw, hraw⟩ := exists_denotes e he
    obtain ⟨raws, hraws⟩ := exists_denotesAll es hes
    exact ⟨_, .cons hraw hraws⟩

end

/-- The reader accepts exactly the grammar.  A value is read as `e` exactly if the rules say that it
stands for `e`; it stands for at most one expression, in whatever order the shapes are tried; and
the expressions that can be read are exactly the well-formed ones. -/
theorem ofJson_reads_grammar :
    (∀ (raw : Json) (e : Expr), Expr.ofJson raw = .ok e ↔ raw.Denotes e) ∧
    (∀ (raw : Json) (e e' : Expr), raw.Denotes e → raw.Denotes e' → e = e') ∧
    (∀ (order : List (Json → Option Expr.Shape)), order.Perm Expr.shapeTests →
      ∀ raw, Expr.firstShape order raw = Expr.shape raw) ∧
    (∀ e : Expr, (∃ raw, Expr.ofJson raw = .ok e) ↔ e.WellFormed) := by
  refine ⟨fun raw e => ofJson_eq_ok_iff, ?_, fun order => Expr.firstShape_eq, ?_⟩
  · intro raw e e' h h'
    have heq := h.ofJson_eq
    rw [h'.ofJson_eq] at heq
    cases heq
    rfl
  · intro e
    constructor
    · rintro ⟨raw, h⟩
      exact (ofJson_eq_ok_iff.mp h).wellFormed
    · intro h
      obtain ⟨raw, hraw⟩ := exists_denotes e h
      exact ⟨raw, hraw.ofJson_eq⟩

end Json

end LetLang
