import LetLang.Eval.Environment
import LetLang.Eval.Operation

/-!
# Evaluation

Operands are evaluated from left to right, each in the environment that the one before it left
behind.  `Expr.evaluate` keeps what is still to be done on a list of frames, so that the depth of the
expression is limited only by the limit that is asked for.
-/

namespace LetLang

/-- How an evaluation ended: its value or its failure, the environment it left behind, and what it
noted on the way. -/
structure Outcome where
  /-- The value, or why there is none. -/
  result : Except Failure Value
  /-- The environment left behind. -/
  env : Environment
  /-- What was noted, in order. -/
  log : List Event

/-- What the operands of a `let` ask for. -/
inductive LetShape where
  /-- Bind `name` to the value of an expression. -/
  | bind (name : String) (e : Expr)
  /-- Nothing that has a meaning. -/
  | refuse (failure : Failure)

/-- What the operands of a `let` ask for; operands behind the value are ignored. -/
def letShape : List Expr → LetShape
  | .ident name :: e :: _ => .bind name e
  | [.ident name] => .refuse (.unimplemented ("`let " ++ name ++ "` without a value"))
  | target :: _ =>
    .refuse (.unimplemented
      ("`let` target must be a variable name, got " ++ target.kind.description))
  | [] => .refuse (.unimplemented "`let` without a target")

/-- The failure of a keyword that cannot be evaluated. -/
def refuseKeyword (k : Keyword) : Failure := .unimplemented ("`" ++ k.word ++ "` expression")

/-- The failure of an expression inside `depth` others, if that is too deep. -/
def depthFailure? (limit : Option Nat) (depth : Nat) : Option Failure :=
  match limit with
  | none => none
  | some bound => if bound ≤ depth then some (.tooDeep bound) else none

/-- What is to be done with the value that is being computed. -/
inductive Frame where
  /-- It is the left operand; the right one, inside `depth` others, comes next. -/
  | right (op : Operator) (e : Expr) (depth : Nat)
  /-- It is the right operand, and the left one is known. -/
  | apply (op : Operator) (left : Value)
  /-- It is bound to a variable. -/
  | bind (name : String)

/-- What the machine turns to next. -/
inductive Control where
  /-- An expression inside `depth` others. -/
  | visit (e : Expr) (depth : Nat)
  /-- A value that has been computed. -/
  | give (v : Value)

/-- A measure of what a frame still has to do. -/
noncomputable def Frame.pending : Frame → Nat
  | .right _ e _ => 3 * sizeOf e + 2
  | .apply _ _ => 1
  | .bind _ => 1

/-- A measure of what all frames still have to do. -/
noncomputable def Frame.pendingAll : List Frame → Nat
  | [] => 0
  | f :: frames => f.pending + pendingAll frames

/-- A measure of what the machine turns to next. -/
noncomputable def Control.pending : Control → Nat
  | .visit e _ => 3 * sizeOf e
  | .give _ => 0

theorem sizeOf_letShape {operands : List Expr} {name : String} {e : Expr}
    (h : letShape operands = .bind name e) : sizeOf e < sizeOf operands := by
  unfold letShape at h
  split at h
  · cases h
    simp only [List.cons.sizeOf_spec]
    omega
  · cases h
  · cases h
  · cases h

/-- Runs the machine to its end. -/
def run (limit : Option Nat) (control : Control) (frames : List Frame) (env : Environment)
    (log : Array Event) : Outcome :=
  match control with
  | .visit e depth =>
    let log := log.push (.enter e.kind depth)
    match depthFailure? limit depth with
    | some failure => ⟨.error failure, env, log.toList⟩
    | none =>
      match e with
      | .number x => run limit (.give (.number x)) frames env log
      | .string s => run limit (.give (.string s)) frames env log
      | .ident name =>
        match env.lookup name with
        | .ok v => run limit (.give v) frames env log
        | .error failure => ⟨.error failure, env, log.toList⟩
      | .binary op l r =>
        run limit (.visit l (depth + 1)) (.right op r (depth + 1) :: frames) env log
      | .form .letForm operands =>
        match h : letShape operands with
        | .bind name e =>
          have := sizeOf_letShape h
          run limit (.visit e (depth + 1)) (.bind name :: frames) env log
        | .refuse failure => ⟨.error failure, env, log.toList⟩
      | .form k _ => ⟨.error (refuseKeyword k), env, log.toList⟩
  | .give v =>
    match frames with
    | [] => ⟨.ok v, env, log.toList⟩
    | .right op e depth :: frames => run limit (.visit e depth) (.apply op v :: frames) env log
    | .apply op left :: frames =>
      let log := log ++ op.notes left v
      match op.apply left v with
      | .ok w => run limit (.give w) frames env log
      | .error failure => ⟨.error failure, env, log.toList⟩
    | .bind name :: frames =>
      run limit (.give v) frames (env.define name v) (log.push (.bind name v))
termination_by control.pending + Frame.pendingAll frames
decreasing_by
  all_goals simp only [Control.pending, Frame.pendingAll, Frame.pending, Expr.number.sizeOf_spec,
    Expr.string.sizeOf_spec, Expr.ident.sizeOf_spec, Expr.binary.sizeOf_spec,
    Expr.form.sizeOf_spec]
  all_goals omega

/-- Evaluates an expression in an environment.  With a limit, an expression may lie inside fewer than
`limit` others. -/
def Expr.evaluate (limit : Option Nat) (e : Expr) (env : Environment) : Outcome :=
  run limit (.visit e 0) [] env #[]

end LetLang
