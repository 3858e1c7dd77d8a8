import LetLang.Proofs.DecimalText
import LetLang.Proofs.RoundTrip

/-!
# The source form tells the expression

Two legible expressions have the same source form exactly if they are equal.  Nothing has to be read
for this: numbers that no reader gives back exactly, infinities and keywords without operands are
told apart as well.

An expression is written in one of three layouts: a number, a quoted text, or a quoted head with
operands between brackets.  `Layout.text_append_eq_iff` tells the layouts apart, with whatever
follows them behind a delimiter, if the operands can be told apart (`Unambiguous`); what the layouts
keep of the expressions is enough to compare them (`same_iff_layout`).
-/

namespace LetLang.Expr

open Json (Delimited escape quote)

mutual

/-- The variables of the expression have proper names and its number literals are numbers, possibly
infinite.  A keyword may stand without operands. -/
def Legible : Expr → Prop
  | .number x => x.isNaN = false
  | .string _ => True
  | .binary _ l r => l.Legible ∧ r.Legible
  | .form _ operands => LegibleAll operands
  | .ident name => ProperName name

/-- All the expressions are legible. -/
def LegibleAll : List Expr → Prop
  | [] => True
  | e :: es => e.Legible ∧ LegibleAll es

end

/-! ## Numbers and quoted texts end where they end -/

/-- What has no delimiter in it ends at the first one. -/
lemma append_inj_of_delimited {s t r r' : List Char} (hs : ∀ c ∈ s, c ≠ ',' ∧ c ≠ ']')
    (ht : ∀ c ∈ t, c ≠ ',' ∧ c ≠ ']') (hr : Delimited r) (hr' : Delimited r')
    (h : s ++ r = t ++ r') : s = t ∧ r = r' := by
  have hsplit : ∀ {u v : List Char}, (∀ c ∈ u, c ≠ ',' ∧ c ≠ ']') → Delimited v →
      (u ++ v).takeWhile (fun c => c ≠ ',' ∧ c ≠ ']') = u := by
    intro u v hu hv
    have hstop : v.takeWhile (fun c => c ≠ ',' ∧ c ≠ ']') = [] := by cases hv <;> rfl
    rw [List.takeWhile_append_of_pos (by simpa using hu), hstop, List.append_nil]
  have hst : s = t := by rw [← hsplit hs hr, h, hsplit ht hr']
  exact ⟨hst, List.append_cancel_left (hst ▸ h)⟩

/-- The characters of a number are none that structure the text. -/
lemma notMem_numberText {x : Float} (hx : x.isNaN = false) :
    ∀ c ∈ (numberText x).toList, c ∉ ['"', '[', ',', ']'] := by
  obtain ⟨negative, digits, hwritten, htext⟩ := exists_written hx
  have hdigits := hwritten.mem_cases
  intro c hc hmem
  have hcases : c = '-' ∨ c.isDigit = true ∨ c = '.' ∨ c ∈ "Infinity".toList := by
    rw [htext] at hc
    cases negative with
    | false => exact .inr (hdigits c hc)
    | true =>
      rcases List.mem_cons.mp hc with rfl | hc
      · exact .inl rfl
      · exact .inr (hdigits c hc)
  revert hcases
  simp only [List.mem_cons, List.not_mem_nil, or_false] at hmem
  rcases hmem with rfl | rfl | rfl | rfl <;> decide

/-- A number can be told from another one, whatever follows. -/
lemma numberText_append_eq_iff {x y : Float} (hx : x.isNaN = false) (hy : y.isNaN = false)
    {r r' : List Char} (hr : Delimited r) (hr' : Delimited r') :
    (numberText x).toList ++ r = (numberText y).toList ++ r' ↔ (x == y) = true ∧ r = r' := by
  have hplain : ∀ {z : Float}, z.isNaN = false →
      ∀ c ∈ (numberText z).toList, c ≠ ',' ∧ c ≠ ']' := by
    intro z hz c hc
    have hnot := notMem_numberText hz c hc
    simp only [List.mem_cons, List.not_mem_nil, or_false, not_or] at hnot
    exact ⟨hnot.2.2.1, hnot.2.2.2⟩
  rw [← numberText_eq_iff hx hy]
  constructor
  · intro h
    obtain ⟨htext, hrest⟩ := append_inj_of_delimited (hplain hx) (hplain hy) hr hr' h
    exact ⟨String.toList_inj.mp htext, hrest⟩
  · rintro ⟨htext, rfl⟩
    rw [htext]

/-- A quoted text can be told from another one, whatever follows. -/
lemma quote_append_eq_iff {s t : String} {r r' : List Char} :
    (quote s).toList ++ r = (quote t).toList ++ r' ↔ s = t ∧ r = r' := by
  constructor
  · intro h
    -- a reader would find the text and stop behind it
    have hread : ∀ (u : String) (v : List Char),
        Json.Token.readText [] (((quote u).toList ++ v).drop 1) = .ok (u, v) := by
      intro u v
      have hquote : ((quote u).toList ++ v).drop 1 = u.toList.flatMap escape ++ '"' :: v := by
        simp [quote]
      rw [hquote, Json.Token.readText_flatMap_escape]
      simp
    have hboth := (hread s r).symm.trans ((congrArg _ (congrArg _ h)).trans (hread t r'))
    simpa using hboth
  · rintro ⟨rfl, rfl⟩
    rfl

/-! ## Layouts -/

/-- What is written of an expression. -/
inductive Layout where
  /-- A number. -/
  | number (x : Float)
  /-- A text between quotes. -/
  | quoted (s : String)
  /-- A head between quotes and operands, between brackets. -/
  | headed (head : String) (operands : List Expr)

/-- The layout of an expression: a string literal keeps its quotes, and an operator stands in front
of its operands like a keyword. -/
def layout : Expr → Layout
  | .number x => .number x
  | .string content => .quoted ("\"" ++ content ++ "\"")
  | .binary op l r => .headed op.symbol [l, r]
  | .form k operands => .headed k.word operands
  | .ident name => .quoted name

namespace Layout

/-- The text of a layout. -/
def text : Layout → List Char
  | .number x => (numberText x).toList
  | .quoted s => (quote s).toList
  | .headed head operands =>
    '[' :: ((quote head).toList ++ ((operandsText operands).toList ++ [']']))

/-- Two layouts agree: numbers as floating-point numbers, operands one by one. -/
def Same : Layout → Layout → Prop
  | .number x, .number y => (x == y) = true
  | .quoted s, .quoted t => s = t
  | .headed head es, .headed head' es' => head = head' ∧ sameAll es es' = true
  | _, _ => False

/-- The operands of a layout are legible, and its number is one. -/
def Legible : Layout → Prop
  | .number x => x.isNaN = false
  | .quoted _ => True
  | .headed _ operands => LegibleAll operands

end Layout

/-- The source form is the text of the layout. -/
lemma text_eq_layout : ∀ {e : Expr}, e.Legible → e.text.toList = e.layout.text
  | .number _, _ => rfl
  | .string _, _ => rfl
  | .binary op l r, _ => by simp [text, layout, Layout.text, quote_symbol, operandsText]
  | .form k es, _ => by simp [text, layout, Layout.text, quote_word]
  | .ident name, h => by simp [text, layout, Layout.text, quote_of_properName h]

/-- Legible expressions have legible layouts. -/
lemma Legible.layout : ∀ {e : Expr}, e.Legible → e.layout.Legible
  | .number _, h => h
  | .string _, _ => trivial
  | .binary _ _ _, ⟨hl, hr⟩ => ⟨hl, hr, trivial⟩
  | .form _ _, h => h
  | .ident _, _ => trivial

/-- A string literal with its quotes is not a name. -/
lemma quoted_ne_of_properName {name : String} (h : ProperName name) (content : String) :
    "\"" ++ content ++ "\"" ≠ name := by
  rintro rfl
  obtain ⟨c, rest, hname, hc, -⟩ := h
  have hquote : '"' :: (content.toList ++ ['"']) = c :: rest := by simp [← hname]
  obtain ⟨rfl, -⟩ := List.cons.inj hquote
  revert hc
  simp [Letter]

/-- Different operators are written differently. -/
lemma symbol_inj {op op' : Operator} : op.symbol = op'.symbol ↔ op = op' := by
  rw [← Operator.ofSymbol?_eq_some_iff, Operator.ofSymbol?_symbol, Option.some.injEq]

/-- Different keywords are written differently. -/
lemma word_inj {k k' : Keyword} : k.word = k'.word ↔ k = k' := by
  rw [← Keyword.ofWord?_eq_some_iff, Keyword.ofWord?_word, Option.some.injEq]

/-- Operators are not written like keywords. -/
lemma symbol_ne_word (op : Operator) (k : Keyword) : op.symbol ≠ k.word := by
  intro h
  have hnone := ofSymbol?_word k
  rw [← h, Operator.ofSymbol?_symbol] at hnone
  cases hnone

/-- Expressions are equal exactly if their layouts agree. -/
lemma same_iff_layout {e e' : Expr} (h : e.Legible) (h' : e'.Legible) :
    same e e' = true ↔ e.layout.Same e'.layout := by
  rcases e with x | s | ⟨op, l, r⟩ | ⟨k, es⟩ | name <;>
    rcases e' with x' | s' | ⟨op', l', r'⟩ | ⟨k', es'⟩ | name' <;>
    simp only [same, sameAll, layout, Layout.Same, symbol_inj, word_inj, symbol_ne_word,
      (symbol_ne_word _ _).symm, beq_iff_eq, Bool.and_eq_true, Bool.false_eq_true, and_assoc,
      and_true, false_and]
  -- what is left are two quoted texts, at least one of them a string literal
  · simp
  · simpa using quoted_ne_of_properName h' s
  · simpa using (quoted_ne_of_properName h s').symm

/-! ## Unique readability -/

/-- The text of the expression, with whatever follows it behind a delimiter, is that of another
legible expression only if the two are equal, and then the same follows. -/
def Unambiguous (e : Expr) : Prop :=
  ∀ e' : Expr, e'.Legible → ∀ r r' : List Char, Delimited r → Delimited r' →
    (e.text.toList ++ r = e'.text.toList ++ r' ↔ same e e' = true ∧ r = r')

/-- Lists of operands can be told apart if the operands can, up to the end of the array. -/
lemma operandsText_append_eq_iff {es : List Expr} (h : ∀ e ∈ es, e.Unambiguous) :
    ∀ {es' : List Expr}, LegibleAll es' → ∀ r r' : List Char,
      ((operandsText es).toList ++ ']' :: r = (operandsText es').toList ++ ']' :: r' ↔
        sameAll es es' = true ∧ r = r') := by
  have hcons : ∀ (e : Expr) (es : List Expr) (r : List Char),
      (operandsText (e :: es)).toList ++ ']' :: r =
        ',' :: (e.text.toList ++ ((operandsText es).toList ++ ']' :: r)) := by
    intro e es r
    simp [operandsText]
  induction es with
  | nil =>
    rintro (_ | ⟨e', es'⟩) _ r r'
    · simp [operandsText, sameAll]
    · rw [hcons]
      simp [operandsText, sameAll]
  | cons e es ih =>
    obtain ⟨he, hes⟩ := List.forall_mem_cons.mp h
    rintro (_ | ⟨e', es'⟩) hes' r r'
    · rw [hcons]
      simp [operandsText, sameAll]
    · -- the first operand ends where the next one or the end of the array follows
      rw [hcons, hcons, List.cons.injEq, he e' hes'.1 _ _ (delimited_operandsText es r)
        (delimited_operandsText es' r'), ih hes hes'.2]
      simp [sameAll, and_assoc]

namespace Layout

/-- The operands of a layout can be told apart. -/
def Unambiguous : Layout → Prop
  | .headed _ operands => ∀ e ∈ operands, e.Unambiguous
  | _ => True

/-- The opening character of a text: a number has none of its own. -/
def opening : Layout → Option Char
  | .number _ => none
  | .quoted _ => some '"'
  | .headed _ _ => some '['

/-- The first character tells the three layouts apart. -/
lemma opening_eq {a : Layout} (ha : a.Legible) {r : List Char} (hr : Delimited r) :
    (a.text ++ r).head?.filter (fun c => c = '"' ∨ c = '[') = a.opening := by
  rcases a with x | s | ⟨head, es⟩
  · rcases htext : (numberText x).toList with _ | ⟨c, rest⟩
    · rw [text, htext]
      rcases hr with _ | _ | _ <;> rfl
    · have hc := notMem_numberText ha c (by simp [htext])
      simp only [List.mem_cons, List.not_mem_nil, or_false, not_or] at hc
      simp [text, htext, opening, hc]
  · simp [text, opening, quote]
  · simp [text, opening]

/-- Layouts can be told apart if the operands can. -/
lemma text_append_eq_iff {a b : Layout} (ha : a.Legible) (hb : b.Legible)
    (hoperands : a.Unambiguous) {r r' : List Char} (hr : Delimited r) (hr' : Delimited r') :
    a.text ++ r = b.text ++ r' ↔ a.Same b ∧ r = r' := by
  have hopening : a.text ++ r = b.text ++ r' → a.opening = b.opening := by
    intro h
    rw [← opening_eq ha hr, ← opening_eq hb hr', h]
  rcases a with x | s | ⟨head, es⟩ <;> rcases b with x' | s' | ⟨head', es'⟩ <;>
    simp only [opening, reduceCtorEq, imp_false, Option.some.injEq, Char.reduceEq] at hopening <;>
    simp only [Same, hopening, false_and]
  · exact numberText_append_eq_iff ha hb hr hr'
  · exact quote_append_eq_iff
  · have hsplit : ∀ (head : String) (es : List Expr) (r : List Char), (headed head es).text ++ r =
        '[' :: ((quote head).toList ++ ((operandsText es).toList ++ ']' :: r)) := by
      intro head es r
      simp [text]
    rw [hsplit, hsplit, List.cons.injEq, quote_append_eq_iff,
      operandsText_append_eq_iff hoperands hb]
    simp [and_assoc]

end Layout

/-- An expression can be told from the others if its operands can. -/
lemma unambiguous_of_layout {e : Expr} (he : e.Legible) (h : e.layout.Unambiguous) :
    e.Unambiguous := by
  intro e' he' r r' hr hr'
  rw [text_eq_layout he, text_eq_layout he', same_iff_layout he he']
  exact Layout.text_append_eq_iff he.layout he'.layout h hr hr'

mutual

/-- Every legible expression can be told from the others. -/
theorem unambiguous : ∀ e : Expr, e.Legible → e.Unambiguous
  | .number _, h => unambiguous_of_layout h trivial
  | .string _, h => unambiguous_of_layout h trivial
  | .ident _, h => unambiguous_of_layout h trivial
  | .binary _ l r, h => by
    refine unambiguous_of_layout h (List.forall_mem_cons.mpr ⟨unambiguous l h.1, ?_⟩)
    exact List.forall_mem_singleton.mpr (unambiguous r h.2)
  | .form _ es, h => unambiguous_of_layout h (unambiguousAll es h)

/-- Every one of several legible expressions can be told from the others. -/
theorem unambiguousAll : ∀ es : List Expr, LegibleAll es → ∀ e ∈ es, e.Unambiguous
  | [], _ => List.forall_mem_nil _
  | e :: es, h => List.forall_mem_cons.mpr ⟨unambiguous e h.1, unambiguousAll es h.2⟩

end

/-- The source form tells the expression.  Two expressions whose variables have proper names and
whose number literals are numbers have the same source form exactly if they are equal. -/
theorem text_eq_text_iff (a b : Expr) (ha : a.Legible) (hb : b.Legible) :
    a.text = b.text ↔ (a == b) = true := by
  have h := unambiguous a ha b hb [] [] .nil .nil
  rw [List.append_nil, List.append_nil, String.toList_inj] at h
  exact h.trans (and_iff_left rfl)

/-- The sign of a zero is not written, but the sum of `0.1` and `0.2` is told from `0.3`, beside a
string literal that looks like operands, a keyword without operands and an infinity. -/
theorem text_eq_text_iff_neighbours : ∃ around : Expr → Expr,
    around = (fun e => .form .beginForm [.string "\",1]", e, .form .setForm [], .ident "x",
      .number (1 / 0)]) ∧
    (∀ x ∈ [0, -0, 0.3, 0.1 + 0.2], (around (.number x)).Legible) ∧
    (around (.number 0)).text = (around (.number (-0))).text ∧
    (around (.number 0.3)).text ≠ (around (.number (0.1 + 0.2))).text := by
  obtain ⟨around, haround⟩ : ∃ around : Expr → Expr, around = (fun e => .form .beginForm
    [.string "\",1]", e, .form .setForm [], .ident "x", .number (1 / 0)]) := ⟨_, rfl⟩
  have hinfinity : Float.isNaN (1 / 0) = false := by decide +kernel
  have hnumbers : ∀ x ∈ [(0 : Float), -0, 0.3, 0.1 + 0.2], x.isNaN = false := by decide +kernel
  have hlegible : ∀ x ∈ [(0 : Float), -0, 0.3, 0.1 + 0.2], (around (.number x)).Legible := by
    intro x hx
    rw [haround]
    exact ⟨trivial, hnumbers x hx, trivial, isName_iff.mp (by decide), hinfinity, trivial⟩
  have hsame : ∀ x y : Float, same (around (.number x)) (around (.number y)) = (x == y) := by
    intro x y
    have hself : ((1 / 0 : Float) == 1 / 0) = true := by decide +kernel
    simp only [haround, same, sameAll, beq_self_eq_true, hself, Bool.and_true, Bool.true_and]
  refine ⟨around, haround, hlegible, ?_, ?_⟩
  · refine (text_eq_text_iff _ _ (hlegible 0 (by simp)) (hlegible (-0) (by simp))).mpr ?_
    exact (hsame 0 (-0)).trans (by decide +kernel)
  · intro h
    have hbeq :=
      (text_eq_text_iff _ _ (hlegible 0.3 (by simp)) (hlegible (0.1 + 0.2) (by simp))).mp h
    have hne : ((0.3 : Float) == 0.1 + 0.2) = false := by decide +kernel
    have htrue := (hsame 0.3 (0.1 + 0.2)).symm.trans hbeq
    rw [hne] at htrue
    cases htrue

end LetLang.Expr
