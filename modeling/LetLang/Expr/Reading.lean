import LetLang.Expr.Reader

/-!
# The reader by recursion

The reader reads a value inside a larger one as it would read it alone (`readLoop_raw`).  Hence what a
value stands for is made of what its operands stand for, as its shape says (`ofJson_eq`).
-/

namespace LetLang.Expr

/-- The expressions that several values stand for, or the first part that stands for none. -/
def ofJsonAll : List Json → Except Unrecognized (List Expr)
  | [] => .ok []
  | raw :: rest =>
    match ofJson raw with
    | .error u => .error u
    | .ok e =>
      match ofJsonAll rest with
      | .error u => .error u
      | .ok es => .ok (e :: es)

/-! ## The steps of the reader -/

theorem readLoop_leaf {raw : Json} {e : Expr} (h : shape raw = .leaf e) (around : List Waiting) :
    readLoop (.raw raw) around = readLoop (.done e) around := by
  rw [readLoop.eq_def]
  dsimp only
  split <;> simp_all

theorem readLoop_unknown {raw : Json} (h : shape raw = .unknown) (around : List Waiting) :
    readLoop (.raw raw) around = .error ⟨raw⟩ := by
  rw [readLoop.eq_def]
  dsimp only
  split <;> simp_all

theorem readLoop_binary {raw left right : Json} {op : Operator}
    (h : shape raw = .binary op left right) (around : List Waiting) :
    readLoop (.raw raw) around = readLoop (.raw left) (.left op right :: around) := by
  rw [readLoop.eq_def]
  dsimp only
  split <;> simp_all

theorem readLoop_form {raw first : Json} {k : Keyword} {others : List Json}
    (h : shape raw = .form k first others) (around : List Waiting) :
    readLoop (.raw raw) around = readLoop (.raw first) (.operand k [] others :: around) := by
  rw [readLoop.eq_def]
  dsimp only
  split <;> simp_all

theorem readLoop_done_nil (e : Expr) : readLoop (.done e) [] = .ok e := by
  rw [readLoop.eq_def]

theorem readLoop_done_left (e : Expr) (op : Operator) (right : Json) (around : List Waiting) :
    readLoop (.done e) (.left op right :: around) =
      readLoop (.raw right) (.right op e :: around) := by
  rw [readLoop.eq_def]

theorem readLoop_done_right (e left : Expr) (op : Operator) (around : List Waiting) :
    readLoop (.done e) (.right op left :: around) =
      readLoop (.done (.binary op left e)) around := by
  rw [readLoop.eq_def]

theorem readLoop_done_last (e : Expr) (k : Keyword) (before : List Expr) (around : List Waiting) :
    readLoop (.done e) (.operand k before [] :: around) =
      readLoop (.done (.form k (e :: before).reverse)) around := by
  rw [readLoop.eq_def]

theorem readLoop_done_operand (e : Expr) (k : Keyword) (before : List Expr) (raw : Json)
    (after : List Json) (around : List Waiting) :
    readLoop (.done e) (.operand k before (raw :: after) :: around) =
      readLoop (.raw raw) (.operand k (e :: before) after :: around) := by
  rw [readLoop.eq_def]

/-! ## Reading inside a larger value -/

/-- What waits goes on from an expression; a part that stands for none stays as it is. -/
def resume (around : List Waiting) : Except Unrecognized Expr → Except Unrecognized Expr
  | .error u => .error u
  | .ok e => readLoop (.done e) around

/-- The operands that are left are read one after another, if each is read inside a larger value as
it is alone. -/
theorem readLoop_operands (k : Keyword) (after : List Json)
    (ih : ∀ raw ∈ after, ∀ around, readLoop (.raw raw) around = resume around (ofJson raw)) :
    ∀ (e : Expr) (before : List Expr) (around : List Waiting),
      readLoop (.done e) (.operand k before after :: around) =
        resume around
          ((ofJsonAll after).map fun es => .form k ((e :: before).reverse ++ es)) := by
  induction after with
  | nil =>
    intro e before around
    rw [readLoop_done_last]
    simp [ofJsonAll, resume, Except.map]
  | cons raw after rest =>
    intro e before around
    rw [readLoop_done_operand, ih raw (by simp)]
    unfold ofJsonAll
    cases ofJson raw with
    | error u => simp [resume, Except.map]
    | ok e' =>
      simp only [resume]
      rw [rest (fun raw h => ih raw (by simp [h]))]
      cases ofJsonAll after <;> simp [resume, Except.map]

/-- A value inside a larger one is read as it is alone. -/
theorem readLoop_raw (raw : Json) (around : List Waiting) :
    readLoop (.raw raw) around = resume around (ofJson raw) := by
  unfold ofJson
  cases h : shape raw with
  | leaf e => simp only [readLoop_leaf h, readLoop_done_nil, resume]
  | unknown => simp only [readLoop_unknown h, resume]
  | binary op left right =>
    have := sizeOf_shape_binary h
    simp only [readLoop_binary h]
    rw [readLoop_raw left, readLoop_raw left [_]]
    cases ofJson left with
    | error u => simp only [resume]
    | ok l =>
      simp only [resume, readLoop_done_left]
      rw [readLoop_raw right, readLoop_raw right [_]]
      cases ofJson right <;> simp only [resume, readLoop_done_right, readLoop_done_nil]
  | form k first others =>
    have := sizeOf_shape_form h
    have ih : ∀ raw ∈ others, ∀ around,
        readLoop (.raw raw) around = resume around (ofJson raw) := by
      intro j hj around
      have := List.sizeOf_lt_of_mem hj
      exact readLoop_raw j around
    simp only [readLoop_form h]
    rw [readLoop_raw first, readLoop_raw first [_]]
    cases ofJson first with
    | error u => simp only [resume]
    | ok e =>
      simp only [resume, readLoop_operands k others ih]
      cases ofJsonAll others <;> simp only [Except.map, readLoop_done_nil]
termination_by sizeOf raw

/-- What a value stands for, by its shape. -/
theorem ofJson_eq (raw : Json) : ofJson raw =
    match shape raw with
    | .leaf e => .ok e
    | .binary op left right =>
      match ofJson left with
      | .error u => .error u
      | .ok l =>
        match ofJson right with
        | .error u => .error u
        | .ok r => .ok (.binary op l r)
    | .form k first others =>
      match ofJsonAll (first :: others) with
      | .error u => .error u
      | .ok es => .ok (.form k es)
    | .unknown => .error ⟨raw⟩ := by
  rw [ofJson]
  cases h : shape raw with
  | leaf e => simp only [readLoop_leaf h, readLoop_done_nil]
  | unknown => simp only [readLoop_unknown h]
  | binary op left right =>
    simp only [readLoop_binary h, readLoop_raw left]
    cases ofJson left with
    | error u => simp only [resume]
    | ok l =>
      simp only [resume, readLoop_done_left, readLoop_raw right]
      cases ofJson right <;> simp only [readLoop_done_right, readLoop_done_nil]
  | form k first others =>
    simp only [readLoop_form h, readLoop_raw first, ofJsonAll]
    cases ofJson first with
    | error u => simp only [resume]
    | ok e =>
      simp only [resume, readLoop_operands k others fun j _ => readLoop_raw j]
      cases ofJsonAll others <;> simp [Except.map, readLoop_done_nil]

end LetLang.Expr
