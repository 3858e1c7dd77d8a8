import LetLang.Expr.Symbol

/-!
# Expressions

An expression is a literal, a variable, an operator applied to two operands, or a keyword with a
list of operands.
-/

namespace LetLang

/-- A variable name is an ASCII letter followed by ASCII letters, digits and underscores. -/
def isName (s : String) : Bool :=
  match s.toList with
  | [] => false
  | c :: rest => c.isAlpha && rest.all fun d => d.isAlphanum || d == '_'

/-- An expression. -/
inductive Expr where
  /-- A number literal. -/
  | number (x : Float)
  /-- A string literal, without the quotes around it. -/
  | string (content : String)
  /-- An operator with its operands. -/
  | binary (op : Operator) (left right : Expr)
  /-- A keyword with its operands. -/
  | form (keyword : Keyword) (operands : List Expr)
  /-- A variable. -/
  | ident (name : String)

namespace Expr

/-- The kinds of expressions. -/
inductive Kind where
  | number
  | string
  | operator
  | keyword
  | ident
deriving DecidableEq

/-- The kind as messages name it. -/
def Kind.description : Kind → String
  | .number => "number literal"
  | .string => "string literal"
  | .operator => "operator expression"
  | .keyword => "keyword expression"
  | .ident => "variable name"

/-- The kind of an expression. -/
def kind : Expr → Kind
  | .number _ => .number
  | .string _ => .string
  | .binary _ _ _ => .operator
  | .form _ _ => .keyword
  | .ident _ => .ident

/-! ## Construction from text -/

/-- The string literal that a text with its quotes stands for.  A single quote both opens and
closes the empty literal. -/
def ofQuoted? (text : String) : Option Expr :=
  match text.toList with
  | [] => none
  | c :: rest =>
    if c ≠ '"' then none
    else if rest.isEmpty then some (.string "")
    else if rest.getLast? = some '"' then some (.string (String.ofList rest.dropLast))
    else none

/-- The variable of that name, if it is a name. -/
def ofName? (name : String) : Option Expr :=
  if isName name then some (.ident name) else none

/-- Binds the variable `name` to the value of `e`, if it is a name. -/
def letBinding? (name : String) (e : Expr) : Option Expr :=
  (ofName? name).map fun target => .form .letForm [target, e]

/-! ## Sameness -/

mutual

/-- Two expressions are built alike from equal parts.  Numbers are equal as floating-point numbers:
the two zeros are, and what is no number equals nothing. -/
def same : Expr → Expr → Bool
  | .number x, .number y => x == y
  | .string s, .string t => s == t
  | .binary op l r, .binary op' l' r' => op == op' && same l l' && same r r'
  | .form k es, .form k' es' => k == k' && sameAll es es'
  | .ident x, .ident y => x == y
  | _, _ => false

/-- Two lists of expressions agree one by one. -/
def sameAll : List Expr → List Expr → Bool
  | [], [] => true
  | e :: es, e' :: es' => same e e' && sameAll es es'
  | _, _ => false

end

instance : BEq Expr := ⟨same⟩

end Expr

end LetLang
