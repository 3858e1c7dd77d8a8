import LetLang.Eval.Machine
import LetLang.Expr.Reader

/-!
# Interpreters

An interpreter keeps an environment from one evaluation to the next, and the limit on the depth of
what it evaluates.
-/

namespace LetLang

/-- Evaluates the expression that a JSON value stands for.  The whole value is read before anything is
evaluated, so a value that cannot be read changes nothing and notes nothing. -/
def Json.evaluate (limit : Option Nat) (raw : Json) (env : Environment) : Outcome :=
  match Expr.ofJson raw with
  | .error unrecognized => ⟨.error (.unimplemented unrecognized.message), env, []⟩
  | .ok e => e.evaluate limit env

/-- An environment that is kept between evaluations, and their limit. -/
structure Interpreter where
  /-- The number of levels that may be nested, if it is limited. -/
  limit : Option Nat
  /-- The environment in which the next expression is evaluated. -/
  env : Environment

namespace Interpreter

/-- The interpreter that runs whole programs: it knows the constants and has no limit. -/
def host : Interpreter := ⟨none, .constants⟩

/-- The interpreter after an evaluation. -/
def after (i : Interpreter) (o : Outcome) : Interpreter := { i with env := o.env }

/-- Evaluates an expression. -/
def eval (i : Interpreter) (e : Expr) : Outcome := e.evaluate i.limit i.env

/-- Evaluates the expression that a JSON value stands for. -/
def evalJson (i : Interpreter) (raw : Json) : Outcome := raw.evaluate i.limit i.env

end Interpreter

end LetLang
