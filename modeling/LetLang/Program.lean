import LetLang.Interpreter
import LetLang.Json.Parser

/-!
# Programs

A program document is an object with the one field `program`, which lists expressions; every other
document is a single expression.  The expressions are evaluated one after another, up to the first
failure.
-/

namespace LetLang

/-- A program: expressions in the form of JSON values. -/
structure Program where
  /-- The expressions, in order. -/
  expressions : List Json

/-- How the run of a program ended. -/
structure ProgramOutcome where
  /-- The values of the expressions that succeeded. -/
  output : List Value
  /-- The failure of the last expression that was tried, if it failed. -/
  failure : Option Failure
  /-- The interpreter afterwards. -/
  interpreter : Interpreter
  /-- What was noted, in order. -/
  log : List Event

namespace Program

/-- The program that a document stands for. -/
def ofDocument : Json → Program
  | .object [(name, .array expressions)] =>
    if name = "program" then ⟨expressions⟩ else ⟨[.object [(name, .array expressions)]]⟩
  | document => ⟨[document]⟩

/-- The program that a text stands for. -/
def parse (text : String) : Except Json.SyntaxError Program :=
  (Json.parse text).map ofDocument

/-- Runs expressions of which the first one has the position `index`. -/
def runFrom (index : Nat) (i : Interpreter) : List Json → ProgramOutcome
  | [] => ⟨[], none, i, []⟩
  | raw :: rest =>
    let o := i.evalJson raw
    match o.result with
    | .error failure => ⟨[], some failure, i.after o, o.log ++ [.fail index failure]⟩
    | .ok v =>
      let later := runFrom (index + 1) (i.after o) rest
      ⟨v :: later.output, later.failure, later.interpreter, o.log ++ later.log⟩

/-- Runs a program. -/
def run (p : Program) (i : Interpreter) : ProgramOutcome := runFrom 0 i p.expressions

end Program

end LetLang
