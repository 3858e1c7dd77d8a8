import LetLang.Eval.Event

/-!
# Applying operators

Two numbers are combined by floating-point arithmetic.  Two strings are concatenated, whatever the
operator; an operator other than addition is noted.  All other operands are refused.
-/

namespace LetLang.Operator

/-- The operation on numbers. -/
def compute : Operator → Float → Float → Float
  | .add, x, y => x + y
  | .sub, x, y => x - y
  | .mul, x, y => x * y
  | .div, x, y => x / y

/-- The value of an operator on two values. -/
def apply (op : Operator) : Value → Value → Except Failure Value
  | .number x, .number y => .ok (.number (op.compute x y))
  | .string s, .string t => .ok (.string (s ++ t))
  | l, r => .error (.typeMismatch op.symbol l.typeName r.typeName)

/-- What is noted when an operator is applied. -/
def notes (op : Operator) : Value → Value → List Event
  | .string _, .string _ => if op = .add then [] else [.concatenate op]
  | _, _ => []

/-- The value of the operator written `symbol` on two values.  Strings are concatenated even if it is
no operator. -/
def applySymbol (symbol : String) (l r : Value) : Except Failure Value :=
  match ofSymbol? symbol with
  | some op => op.apply l r
  | none =>
    match l, r with
    | .number _, .number _ => .error (.unknownOperator symbol)
    | .string s, .string t => .ok (.string (s ++ t))
    | l, r => .error (.typeMismatch symbol l.typeName r.typeName)

/-- What is noted when the operator written `symbol` is applied. -/
def symbolNotes (symbol : String) (l r : Value) : List Event :=
  match ofSymbol? symbol with
  | some op => op.notes l r
  | none => []

end LetLang.Operator
