import LetLang.Eval.Failure
import LetLang.Eval.Value
import LetLang.Expr.Basic

/-!
# Events

What is noted while expressions are evaluated.
-/

namespace LetLang

/-- How important an event is. -/
inductive Level where
  | trace
  | debug
  | warn
deriving DecidableEq

/-- The name of a level. -/
def Level.name : Level → String
  | .trace => "TRACE"
  | .debug => "DEBUG"
  | .warn => "WARN"

/-- Something noted during an evaluation. -/
inductive Event where
  /-- The evaluation of an expression of this kind begins, inside `depth` others. -/
  | enter (kind : Expr.Kind) (depth : Nat)
  /-- A variable is about to get a value. -/
  | bind (name : String) (v : Value)
  /-- Strings are concatenated by an operator other than addition. -/
  | concatenate (op : Operator)
  /-- An expression of a program has failed. -/
  | fail (index : Nat) (failure : Failure)

namespace Event

/-- How important an event is. -/
def level : Event → Level
  | .enter _ _ => .trace
  | .bind _ _ => .debug
  | .concatenate _ => .warn
  | .fail _ _ => .debug

/-- What an event says; the beginning of an evaluation is known by its name alone. -/
def message? : Event → Option String
  | .enter _ _ => none
  | .bind _ _ => some "let"
  | .concatenate _ => some "string operands concatenate regardless of operator"
  | .fail _ _ => some "evaluation failed"

/-- The details of an event, each with its name. -/
def details : Event → List (String × String)
  | .enter kind depth =>
    [("kind", kind.description), ("depth", String.ofList (Nat.toDigits 10 depth))]
  | .bind name v => [("name", name), ("value", v.text)]
  | .concatenate op => [("op", op.symbol)]
  | .fail index failure =>
    [("index", String.ofList (Nat.toDigits 10 index)), ("err", failure.message)]

end Event

end LetLang
