import LetLang.Eval.Failure
import LetLang.Eval.Value
import Std.Data.ExtTreeMap

/-!
# Environments

An environment is a finite map from variable names to values.
-/

namespace LetLang

/-- The values of variables. -/
structure Environment where
  /-- The value of each variable that has one. -/
  bindings : Std.ExtTreeMap String Value

namespace Environment

/-- No variable has a value. -/
def empty : Environment := ⟨∅⟩

/-- The value of a variable. -/
def get? (env : Environment) (name : String) : Option Value := env.bindings[name]?

/-- Gives a variable a value, in place of any earlier one. -/
def define (env : Environment) (name : String) (v : Value) : Environment :=
  ⟨env.bindings.insert name v⟩

/-- The value of a variable, which has to have one. -/
def lookup (env : Environment) (name : String) : Except Failure Value :=
  match env.get? name with
  | some v => .ok v
  | none => .error (.undefinedVariable name)

/-- The variable has a value. -/
def contains (env : Environment) (name : String) : Bool := env.bindings.contains name

/-- The number of variables that have a value. -/
def size (env : Environment) : Nat := env.bindings.size

/-- No variable has a value. -/
def isEmpty (env : Environment) : Bool := env.bindings.isEmpty

/-- Defines variables one after another; later definitions replace earlier ones. -/
def ofList (bindings : List (String × Value)) : Environment :=
  bindings.foldl (fun env b => env.define b.1 b.2) empty

/-- The constants `true`, `false` and `null`. -/
def constants : Environment :=
  ofList [("true", .bool true), ("false", .bool false), ("null", .null)]

@[simp] theorem get?_empty (name : String) : empty.get? name = none := by
  simp [empty, get?]

theorem get?_define (env : Environment) (name other : String) (v : Value) :
    (env.define name v).get? other = if name = other then some v else env.get? other := by
  simp [define, get?, Std.ExtTreeMap.getElem?_insert]

theorem size_define (env : Environment) (name : String) (v : Value) :
    (env.define name v).size = if env.contains name then env.size else env.size + 1 := by
  simp [define, size, contains, Std.ExtTreeMap.size_insert]

theorem contains_iff (env : Environment) (name : String) :
    env.contains name = (env.get? name).isSome := by
  simp [contains, get?]

end Environment

end LetLang
