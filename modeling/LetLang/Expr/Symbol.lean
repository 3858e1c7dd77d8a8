/-!
# Operators and keywords

The symbols at the head of a compound expression.
-/

namespace LetLang

/-- A binary operator. -/
inductive Operator where
  | add
  | sub
  | mul
  | div
deriving DecidableEq

namespace Operator

/-- How an operator is written. -/
def symbol : Operator → String
  | .add => "+"
  | .sub => "-"
  | .mul => "*"
  | .div => "/"

/-- The operator that a text stands for. -/
def ofSymbol? (s : String) : Option Operator :=
  if s = "+" then some .add
  else if s = "-" then some .sub
  else if s = "*" then some .mul
  else if s = "/" then some .div
  else none

theorem ofSymbol?_symbol (op : Operator) : ofSymbol? op.symbol = some op := by
  cases op <;> rfl

theorem ofSymbol?_eq_some_iff {s : String} {op : Operator} :
    ofSymbol? s = some op ↔ s = op.symbol := by
  constructor
  · intro h
    unfold ofSymbol? at h
    repeat' split at h
    all_goals cases h
    all_goals assumption
  · rintro rfl
    exact ofSymbol?_symbol op

end Operator

/-- A keyword. -/
inductive Keyword where
  /-- Binds a variable. -/
  | letForm
  /-- Changes a variable. -/
  | setForm
  /-- Evaluates in sequence. -/
  | beginForm
deriving DecidableEq

namespace Keyword

/-- How a keyword is written. -/
def word : Keyword → String
  | .letForm => "let"
  | .setForm => "set"
  | .beginForm => "begin"

/-- The keyword that a text stands for. -/
def ofWord? (s : String) : Option Keyword :=
  if s = "let" then some .letForm
  else if s = "set" then some .setForm
  else if s = "begin" then some .beginForm
  else none

theorem ofWord?_word (k : Keyword) : ofWord? k.word = some k := by
  cases k <;> rfl

theorem ofWord?_eq_some_iff {s : String} {k : Keyword} : ofWord? s = some k ↔ s = k.word := by
  constructor
  · intro h
    unfold ofWord? at h
    repeat' split at h
    all_goals cases h
    all_goals assumption
  · rintro rfl
    exact ofWord?_word k

end Keyword

end LetLang
