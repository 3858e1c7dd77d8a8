import LetLang.Number.Text

/-!
# Values

What an expression evaluates to.
-/

namespace LetLang

/-- A value. -/
inductive Value where
  | number (x : Float)
  | string (s : String)
  | bool (b : Bool)
  | null

namespace Value

/-- The name of the type of a value. -/
def typeName : Value → String
  | .number _ => "number"
  | .string _ => "string"
  | .bool _ => "boolean"
  | .null => "null"

/-- A value as it is shown; a string is shown as it stands. -/
def text : Value → String
  | .number x => numberText x
  | .string s => s
  | .bool b => if b then "true" else "false"
  | .null => "null"

/-- The number in a value. -/
def number? : Value → Option Float
  | .number x => some x
  | _ => none

/-- The string in a value. -/
def string? : Value → Option String
  | .string s => some s
  | _ => none

/-- Equal values of one type.  Numbers are equal as floating-point numbers. -/
def same : Value → Value → Bool
  | .number x, .number y => x == y
  | .string s, .string t => s == t
  | .bool b, .bool c => b == c
  | .null, .null => true
  | _, _ => false

instance : BEq Value := ⟨same⟩

end Value

end LetLang
