/-!
# Failures

Each way in which an evaluation can fail is a cause of its own; `Failure.message` gives its wording.
-/

namespace LetLang

/-- Why an evaluation failed. -/
inductive Failure where
  /-- A variable has no value. -/
  | undefinedVariable (name : String)
  /-- An operator does not apply to operands of these types. -/
  | typeMismatch (op left right : String)
  /-- A symbol is no operator. -/
  | unknownOperator (symbol : String)
  /-- A form has no meaning. -/
  | unimplemented (form : String)
  /-- The expression is nested deeper than the limit allows. -/
  | tooDeep (limit : Nat)
deriving DecidableEq

/-- The wording of a failure. -/
def Failure.message : Failure → String
  | .undefinedVariable name => "Variable \"" ++ name ++ "\" is not defined"
  | .typeMismatch op left right =>
    "Type mismatch: cannot apply operator " ++ op ++ " to " ++ left ++ " and " ++ right
  | .unknownOperator symbol => "Unknown operator: " ++ symbol
  | .unimplemented form => "Unimplemented: " ++ form
  | .tooDeep limit =>
    "maximum recursion depth exceeded (limit: " ++ String.ofList (Nat.toDigits 10 limit) ++ ")"

end LetLang
