import LetLang.Json.Printer

/-!
# Fragments of JSON text

In a message a value is shown by its compact text, but only down to a number of levels: below
them a container that is not empty is shown by an ellipsis.
-/

namespace LetLang.Json

mutual

/-- The compact text of a value in which containers below `levels` levels are elided. -/
def elided (levels : Nat) : Json → String
  | .array [] => "[]"
  | .object [] => "\x7b\x7d"
  | .array (item :: items) =>
    match levels with
    | 0 => "[...]"
    | inner + 1 => "[" ++ commaSeparated (elidedItems inner (item :: items)) ++ "]"
  | .object (field :: fields) =>
    match levels with
    | 0 => "\x7b...\x7d"
    | inner + 1 => "\x7b" ++ commaSeparated (elidedFields inner (field :: fields)) ++ "\x7d"
  | .null => compact .null
  | .bool b => compact (.bool b)
  | .number n => compact (.number n)
  | .string s => compact (.string s)

/-- The elided texts of the items of an array. -/
def elidedItems (levels : Nat) : List Json → List String
  | [] => []
  | item :: rest => elided levels item :: elidedItems levels rest

/-- The elided texts of the fields of an object. -/
def elidedFields (levels : Nat) : List (String × Json) → List String
  | [] => []
  | (name, value) :: rest => (quote name ++ ":" ++ elided levels value) :: elidedFields levels rest

end

/-- The number of levels shown in a message. -/
def fragmentLevels : Nat := 8

/-- How a value is shown in a message. -/
def fragment (raw : Json) : String := elided fragmentLevels raw

end LetLang.Json
