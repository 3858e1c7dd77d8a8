/-!
# JSON values

A JSON number is an integer of 64 bits, signed or unsigned, or a finite double.  The fields of an
object are kept sorted by name, each name once; `Json.insertField` keeps them so.
-/

namespace LetLang

/-- A JSON number. -/
inductive Json.Number where
  /-- An integer from `-2 ^ 63` to `2 ^ 64 - 1`. -/
  | integer (n : Int) (inRange : -9223372036854775808 ≤ n ∧ n < 18446744073709551616)
  /-- A finite double. -/
  | float (x : Float) (finite : x.isFinite = true)

/-- A JSON value. -/
inductive Json where
  | null
  | bool (b : Bool)
  | number (n : Json.Number)
  | string (s : String)
  | array (items : List Json)
  /-- An object, by its fields in the order of their names. -/
  | object (fields : List (String × Json))

namespace Json

/-- The integer `n` as a JSON number, if it has room in 64 bits. -/
def Number.ofInt? (n : Int) : Option Number :=
  if h : -9223372036854775808 ≤ n ∧ n < 18446744073709551616 then some (.integer n h) else none

/-- The double nearest to a JSON number; of two equally near ones, the even one. -/
def Number.toFloat : Number → Float
  | .integer n _ =>
    let magnitude := n.natAbs.toUInt64.toFloat
    if n < 0 then -magnitude else magnitude
  | .float x _ => x

/-- Sets the field `name`, keeping the fields sorted; an earlier value of it gives way. -/
def insertField (name : String) (value : Json) : List (String × Json) → List (String × Json)
  | [] => [(name, value)]
  | (other, old) :: rest =>
    if name = other then (name, value) :: rest
    else if name < other then (name, value) :: (other, old) :: rest
    else (other, old) :: insertField name value rest

end Json

end LetLang
