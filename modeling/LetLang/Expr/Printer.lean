import LetLang.Expr.Basic
import LetLang.Json.Printer
import LetLang.Number.Text

/-!
# The source form of an expression

An expression is written as the JSON text from which it can be read.
-/

namespace LetLang.Expr

mutual

/-- The source form of an expression. -/
def text : Expr → String
  | .number x => numberText x
  | .string content => Json.quote ("\"" ++ content ++ "\"")
  | .binary op l r => "[\"" ++ op.symbol ++ "\"," ++ text l ++ "," ++ text r ++ "]"
  | .form k operands => "[\"" ++ k.word ++ "\"" ++ operandsText operands ++ "]"
  | .ident name => "\"" ++ name ++ "\""

/-- The source forms of operands, each behind a comma. -/
def operandsText : List Expr → String
  | [] => ""
  | e :: es => "," ++ text e ++ operandsText es

end

end LetLang.Expr
