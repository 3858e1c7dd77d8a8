import LetLang.Expr.Basic
import LetLang.Json.Fragment

/-!
# Reading expressions from JSON

A JSON value has at most one of the shapes of the language.  `Expr.ofJson` reads a value and all
its operands, from left to right, and stops at the first part that has no shape.  It keeps what
is still to be read on a list, so that the depth of the value does not matter.
-/

namespace LetLang.Expr

/-- A JSON value that has none of the shapes of an expression. -/
structure Unrecognized where
  /-- The offending value. -/
  part : Json

/-- How an unrecognized value is reported. -/
def Unrecognized.message (u : Unrecognized) : String :=
  "unrecognized expression: " ++ u.part.fragment

/-- The shapes in which an expression is written. -/
inductive Shape where
  /-- A literal or a variable. -/
  | leaf (e : Expr)
  /-- An operator with two operands. -/
  | binary (op : Operator) (left right : Json)
  /-- A keyword with at least one operand. -/
  | form (keyword : Keyword) (first : Json) (others : List Json)
  /-- No shape of the language. -/
  | unknown

/-- The shape of a text: a quoted literal or a variable. -/
def textShape (s : String) : Shape :=
  match ofQuoted? s with
  | some e => .leaf e
  | none =>
    match ofName? s with
    | some e => .leaf e
    | none => .unknown

/-- The shape of an array with the text `head` in front. -/
def headedShape (head : String) (operands : List Json) : Shape :=
  match Operator.ofSymbol? head, Keyword.ofWord? head, operands with
  | some op, _, [left, right] => .binary op left right
  | _, some k, first :: others => .form k first others
  | _, _, _ => .unknown

/-- The shape of a JSON value. -/
def shape : Json → Shape
  | .number n => .leaf (.number n.toFloat)
  | .string s => textShape s
  | .array (.string head :: operands) => headedShape head operands
  | _ => .unknown

/-! ## The operands of a shape are smaller than the value -/

theorem sizeOf_headedShape_binary {head : String} {operands : List Json} {op : Operator}
    {left right : Json} (h : headedShape head operands = .binary op left right) :
    sizeOf left + sizeOf right < sizeOf operands := by
  unfold headedShape at h
  split at h
  · cases h
    simp only [List.cons.sizeOf_spec, List.nil.sizeOf_spec]
    omega
  · cases h
  · cases h

theorem sizeOf_headedShape_form {head : String} {operands : List Json} {k : Keyword}
    {first : Json} {others : List Json} (h : headedShape head operands = .form k first others) :
    sizeOf first + sizeOf others < sizeOf operands := by
  unfold headedShape at h
  split at h
  · cases h
  · cases h
    simp only [List.cons.sizeOf_spec]
    omega
  · cases h

theorem textShape_ne_binary {s : String} {op : Operator} {left right : Json} :
    textShape s ≠ .binary op left right := by
  unfold textShape
  repeat' split
  all_goals simp

theorem textShape_ne_form {s : String} {k : Keyword} {first : Json} {others : List Json} :
    textShape s ≠ .form k first others := by
  unfold textShape
  repeat' split
  all_goals simp

theorem sizeOf_shape_binary {raw left right : Json} {op : Operator}
    (h : shape raw = .binary op left right) :
    sizeOf left + sizeOf right + 3 ≤ sizeOf raw := by
  unfold shape at h
  split at h
  · cases h
  · exact absurd h textShape_ne_binary
  · have := sizeOf_headedShape_binary h
    simp only [Json.array.sizeOf_spec, List.cons.sizeOf_spec]
    omega
  · cases h

theorem sizeOf_shape_form {raw first : Json} {k : Keyword} {others : List Json}
    (h : shape raw = .form k first others) :
    sizeOf first + sizeOf others + 2 ≤ sizeOf raw := by
  unfold shape at h
  split at h
  · cases h
  · exact absurd h textShape_ne_form
  · have := sizeOf_headedShape_form h
    simp only [Json.array.sizeOf_spec, List.cons.sizeOf_spec]
    omega
  · cases h

/-! ## The reader -/

/-- An expression that waits for one of its operands. -/
inductive Waiting where
  /-- The left operand is due. -/
  | left (op : Operator) (right : Json)
  /-- The right operand is due. -/
  | right (op : Operator) (left : Expr)
  /-- An operand of a keyword is due; the earlier ones stand last one first. -/
  | operand (keyword : Keyword) (before : List Expr) (after : List Json)

/-- What the reader turns to next. -/
inductive Focus where
  /-- A value to be read. -/
  | raw (j : Json)
  /-- An expression that has been read. -/
  | done (e : Expr)

/-- A measure of what a waiting expression still has to read. -/
noncomputable def Waiting.pending : Waiting → Nat
  | .left _ j => sizeOf j + 2
  | .right _ _ => 1
  | .operand _ _ js => sizeOf js + 1

/-- A measure of what still has to be read around a value. -/
noncomputable def pending : List Waiting → Nat
  | [] => 0
  | w :: around => w.pending + pending around

/-- A measure of what the reader turns to next. -/
noncomputable def Focus.pending : Focus → Nat
  | .raw j => sizeOf j
  | .done _ => 0

theorem sizeOf_json_pos (j : Json) : 0 < sizeOf j := by
  cases j <;> simp only [Json.null.sizeOf_spec, Json.bool.sizeOf_spec, Json.number.sizeOf_spec,
    Json.string.sizeOf_spec, Json.array.sizeOf_spec, Json.object.sizeOf_spec] <;> omega

/-- Reads the value in focus and then all that waits for it. -/
def readLoop (focus : Focus) (around : List Waiting) : Except Unrecognized Expr :=
  match focus with
  | .raw j =>
    match h : shape j with
    | .leaf e => readLoop (.done e) around
    | .binary op left right =>
      have := sizeOf_shape_binary h
      readLoop (.raw left) (.left op right :: around)
    | .form k first others =>
      have := sizeOf_shape_form h
      readLoop (.raw first) (.operand k [] others :: around)
    | .unknown => .error ⟨j⟩
  | .done e =>
    match around with
    | [] => .ok e
    | .left op right :: around => readLoop (.raw right) (.right op e :: around)
    | .right op left :: around => readLoop (.done (.binary op left e)) around
    | .operand k before [] :: around => readLoop (.done (.form k (e :: before).reverse)) around
    | .operand k before (j :: after) :: around =>
      readLoop (.raw j) (.operand k (e :: before) after :: around)
termination_by focus.pending + pending around
decreasing_by
  · have := sizeOf_json_pos j
    simp only [Focus.pending]
    omega
  · simp only [Focus.pending, pending, Waiting.pending]
    omega
  · simp only [Focus.pending, pending, Waiting.pending]
    omega
  · simp only [Focus.pending, pending, Waiting.pending]
    omega
  · simp only [Focus.pending, pending, Waiting.pending]
    omega
  · simp only [Focus.pending, pending, Waiting.pending]
    omega
  · simp only [Focus.pending, pending, Waiting.pending, List.cons.sizeOf_spec]
    omega

/-- The expression that a JSON value stands for, or the first part of it that stands for none. -/
def ofJson (raw : Json) : Except Unrecognized Expr := readLoop (.raw raw) []

end LetLang.Expr
