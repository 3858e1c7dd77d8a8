import LetLang.Json.Basic
import LetLang.Number.Shortest

/-!
# Compact JSON text

`Json.compact` writes a value without blanks.  A double always shows that it is one: it has a
point or an exponent, and as few digits as read back.
-/

namespace LetLang.Json

/-! ## Strings -/

/-- One character inside a quoted text. -/
def escape (c : Char) : List Char :=
  if c = '"' then ['\\', '"']
  else if c = '\\' then ['\\', '\\']
  else if c = '\x08' then ['\\', 'b']
  else if c = '\x0c' then ['\\', 'f']
  else if c = '\n' then ['\\', 'n']
  else if c = '\r' then ['\\', 'r']
  else if c = '\t' then ['\\', 't']
  else if c.toNat < 32 then
    ['\\', 'u', '0', '0', Nat.digitChar (c.toNat / 16), Nat.digitChar (c.toNat % 16)]
  else [c]

/-- A text between quotes.  Only quotes, backslashes and control characters are escaped. -/
def quote (s : String) : String :=
  String.ofList ('"' :: (s.toList.flatMap escape ++ ['"']))

/-! ## Numbers -/

/-- The digits of a positive double: positional from `10 ^ -5` up to `10 ^ 16`, and then always
with a fraction; with an exponent elsewhere. -/
def decimalText (d : Decimal) : List Char :=
  if -5 ≤ d.leadingExponent ∧ d.leadingExponent ≤ 15 then
    if 0 ≤ d.exponent then d.positional ++ ['.', '0'] else d.positional
  else d.scientific

/-- The digits of the magnitude of a double. -/
def doubleText (b : Binary) : List Char :=
  if b.mantissa = 0 then ['0', '.', '0'] else decimalText (b.shortest .even)

/-- The text of a JSON number. -/
def Number.text : Number → String
  | .integer n _ =>
    String.ofList (if n < 0 then '-' :: Nat.toDigits 10 n.natAbs else Nat.toDigits 10 n.natAbs)
  | .float x _ =>
    match Parts.ofFloat x with
    | .finite negative b =>
      String.ofList (if negative then '-' :: doubleText b else doubleText b)
    | _ => "null"

/-! ## Values -/

/-- Texts one after another, with a comma between two of them. -/
def commaSeparated : List String → String
  | [] => ""
  | [s] => s
  | s :: t :: rest => s ++ "," ++ commaSeparated (t :: rest)

mutual

/-- The text of a value, without blanks. -/
def compact : Json → String
  | .null => "null"
  | .bool b => if b then "true" else "false"
  | .number n => n.text
  | .string s => quote s
  | .array items => "[" ++ commaSeparated (compactItems items) ++ "]"
  | .object fields => "\x7b" ++ commaSeparated (compactFields fields) ++ "\x7d"

/-- The texts of the items of an array. -/
def compactItems : List Json → List String
  | [] => []
  | item :: rest => compact item :: compactItems rest

/-- The texts of the fields of an object. -/
def compactFields : List (String × Json) → List String
  | [] => []
  | (name, value) :: rest => (quote name ++ ":" ++ compact value) :: compactFields rest

end

end LetLang.Json
