import LetLang.Eval.Machine

/-!
# The rules of evaluation

The machine evaluates an expression on top of any frames as it would evaluate it alone, and then goes
on with the frames (`run_visit`).  Hence the outcome of an expression is made of the outcomes of its
operands; there is one rule for each kind of expression.
-/

namespace LetLang

/-- The outcome of an expression inside `depth` others. -/
def Expr.evaluateAt (limit : Option Nat) (depth : Nat) (e : Expr) (env : Environment) : Outcome :=
  run limit (.visit e depth) [] env #[]

namespace Outcome

/-- Notes what was noted before. -/
def after (o : Outcome) (log : List Event) : Outcome := ⟨o.result, o.env, log ++ o.log⟩

/-- Goes on from a value; a failure stays as it is. -/
def andThen (o : Outcome) (next : Value → Environment → Outcome) : Outcome :=
  match o.result with
  | .error failure => ⟨.error failure, o.env, o.log⟩
  | .ok v => (next v o.env).after o.log

/-- The frames go on from a value; a failure stays as it is. -/
def resume (o : Outcome) (limit : Option Nat) (frames : List Frame) (log : Array Event) : Outcome :=
  match o.result with
  | .error failure => ⟨.error failure, o.env, log.toList ++ o.log⟩
  | .ok v => run limit (.give v) frames o.env (log ++ o.log)

end Outcome


/-! ## Evaluation on top of frames -/

/-- An expression that lies too deep fails at once. -/
theorem run_visit_of_tooDeep {limit : Option Nat} {depth : Nat} {failure : Failure}
    (h : depthFailure? limit depth = some failure) (e : Expr) (frames : List Frame)
    (env : Environment) (log : Array Event) :
    run limit (.visit e depth) frames env log =
      ⟨.error failure, env, log.toList ++ [.enter e.kind depth]⟩ := by
  rw [run.eq_def]
  simp [h]

theorem run_visit_number {limit : Option Nat} {depth : Nat}
    (h : depthFailure? limit depth = none) (x : Float) (frames : List Frame)
    (env : Environment) (log : Array Event) :
    run limit (.visit (.number x) depth) frames env log =
      run limit (.give (.number x)) frames env (log.push (.enter .number depth)) := by
  rw [run.eq_def]
  simp [h, Expr.kind]

theorem run_visit_string {limit : Option Nat} {depth : Nat}
    (h : depthFailure? limit depth = none) (s : String) (frames : List Frame)
    (env : Environment) (log : Array Event) :
    run limit (.visit (.string s) depth) frames env log =
      run limit (.give (.string s)) frames env (log.push (.enter .string depth)) := by
  rw [run.eq_def]
  simp [h, Expr.kind]

theorem run_visit_ident {limit : Option Nat} {depth : Nat}
    (h : depthFailure? limit depth = none) (name : String) (frames : List Frame)
    (env : Environment) (log : Array Event) :
    run limit (.visit (.ident name) depth) frames env log =
      match env.lookup name with
      | .ok v => run limit (.give v) frames env (log.push (.enter .ident depth))
      | .error failure => ⟨.error failure, env, log.toList ++ [.enter .ident depth]⟩ := by
  rw [run.eq_def]
  simp only [h, Expr.kind]
  split <;> simp_all

theorem run_visit_binary {limit : Option Nat} {depth : Nat}
    (h : depthFailure? limit depth = none) (op : Operator) (l r : Expr) (frames : List Frame)
    (env : Environment) (log : Array Event) :
    run limit (.visit (.binary op l r) depth) frames env log =
      run limit (.visit l (depth + 1)) (.right op r (depth + 1) :: frames) env
        (log.push (.enter .operator depth)) := by
  rw [run.eq_def]
  simp [h, Expr.kind]

theorem run_visit_let {limit : Option Nat} {depth : Nat}
    (h : depthFailure? limit depth = none) (operands : List Expr) (frames : List Frame)
    (env : Environment) (log : Array Event) :
    run limit (.visit (.form .letForm operands) depth) frames env log =
      match letShape operands with
      | .bind name e =>
        run limit (.visit e (depth + 1)) (.bind name :: frames) env
          (log.push (.enter .keyword depth))
      | .refuse failure => ⟨.error failure, env, log.toList ++ [.enter .keyword depth]⟩ := by
  rw [run.eq_def]
  simp only [h, Expr.kind]
  split <;> simp_all

theorem run_visit_keyword {limit : Option Nat} {depth : Nat} {k : Keyword}
    (h : depthFailure? limit depth = none) (hk : k ≠ .letForm) (operands : List Expr)
    (frames : List Frame) (env : Environment) (log : Array Event) :
    run limit (.visit (.form k operands) depth) frames env log =
      ⟨.error (refuseKeyword k), env, log.toList ++ [.enter .keyword depth]⟩ := by
  rw [run.eq_def]
  cases k <;> simp_all [Expr.kind]

theorem run_give_nil (limit : Option Nat) (v : Value) (env : Environment) (log : Array Event) :
    run limit (.give v) [] env log = ⟨.ok v, env, log.toList⟩ := by
  rw [run.eq_def]

theorem run_give_right (limit : Option Nat) (v : Value) (op : Operator) (e : Expr) (depth : Nat)
    (frames : List Frame) (env : Environment) (log : Array Event) :
    run limit (.give v) (.right op e depth :: frames) env log =
      run limit (.visit e depth) (.apply op v :: frames) env log := by
  rw [run.eq_def]

theorem run_give_apply (limit : Option Nat) (v left : Value) (op : Operator)
    (frames : List Frame) (env : Environment) (log : Array Event) :
    run limit (.give v) (.apply op left :: frames) env log =
      (Outcome.mk (op.apply left v) env (op.notes left v)).resume limit frames log := by
  rw [run.eq_def]
  simp only [Outcome.resume]
  split <;> simp_all

theorem run_give_bind (limit : Option Nat) (v : Value) (name : String)
    (frames : List Frame) (env : Environment) (log : Array Event) :
    run limit (.give v) (.bind name :: frames) env log =
      run limit (.give v) frames (env.define name v) (log.push (.bind name v)) := by
  rw [run.eq_def]

theorem append_noted (log : Array Event) (first second : List Event) :
    log ++ (first ++ second) = log ++ first ++ second := by
  apply Array.ext'
  simp

@[simp] theorem Outcome.resume_error (failure : Failure) (env : Environment) (noted : List Event)
    (limit : Option Nat) (frames : List Frame) (log : Array Event) :
    (Outcome.mk (.error failure) env noted).resume limit frames log =
      ⟨.error failure, env, log.toList ++ noted⟩ := rfl

@[simp] theorem Outcome.resume_ok (v : Value) (env : Environment) (noted : List Event)
    (limit : Option Nat) (frames : List Frame) (log : Array Event) :
    (Outcome.mk (.ok v) env noted).resume limit frames log =
      run limit (.give v) frames env (log ++ noted) := rfl

/-- The machine evaluates an expression on top of frames as it does alone, and then goes on with the
frames. -/
theorem run_visit (limit : Option Nat) (e : Expr) (depth : Nat) (frames : List Frame)
    (env : Environment) (log : Array Event) :
    run limit (.visit e depth) frames env log =
      (e.evaluateAt limit depth env).resume limit frames log := by
  unfold Expr.evaluateAt
  cases h : depthFailure? limit depth with
  | some failure => simp [run_visit_of_tooDeep h]
  | none =>
    match e with
    | .number x => simp [run_visit_number h, run_give_nil]
    | .string s => simp [run_visit_string h, run_give_nil]
    | .ident name =>
      simp only [run_visit_ident h]
      split <;> simp [run_give_nil]
    | .binary op l r =>
      simp only [run_visit_binary h]
      rw [run_visit limit l, run_visit limit l (depth + 1) [_]]
      obtain ⟨result, env₁, log₁⟩ := l.evaluateAt limit (depth + 1) env
      cases result with
      | error failure => simp
      | ok a =>
        simp only [Outcome.resume_ok, run_give_right]
        rw [run_visit limit r, run_visit limit r (depth + 1) [_]]
        obtain ⟨result, env₂, log₂⟩ := r.evaluateAt limit (depth + 1) env₁
        cases result with
        | error failure => simp
        | ok b =>
          simp only [Outcome.resume_ok, run_give_apply]
          cases op.apply a b <;> simp [run_give_nil, append_noted]
    | .form k operands =>
      by_cases hk : k = .letForm
      · subst hk
        simp only [run_visit_let h]
        split
        · next name e hs =>
          have := sizeOf_letShape hs
          rw [run_visit limit e, run_visit limit e (depth + 1) [_]]
          obtain ⟨result, env₁, log₁⟩ := e.evaluateAt limit (depth + 1) env
          cases result <;> simp [run_give_bind, run_give_nil, append_noted]
        · simp
      · simp [run_visit_keyword h hk]
termination_by sizeOf e

/-! ## One rule for each kind of expression -/

/-- Begins an evaluation: the beginning is noted, and an expression that lies too deep fails. -/
def entering (limit : Option Nat) (kind : Expr.Kind) (depth : Nat) (env : Environment)
    (body : Outcome) : Outcome :=
  match depthFailure? limit depth with
  | some failure => ⟨.error failure, env, [.enter kind depth]⟩
  | none => body.after [.enter kind depth]

namespace Expr

variable (limit : Option Nat) (depth : Nat) (env : Environment)

theorem evaluate_eq (e : Expr) : e.evaluate limit env = e.evaluateAt limit 0 env := rfl

/-- A number stands for itself. -/
theorem evaluateAt_number (x : Float) : (number x).evaluateAt limit depth env =
    entering limit .number depth env ⟨.ok (.number x), env, []⟩ := by
  unfold evaluateAt entering
  cases h : depthFailure? limit depth with
  | some failure => simp [run_visit_of_tooDeep h, kind]
  | none => simp [run_visit_number h, run_give_nil, Outcome.after]

/-- A string stands for itself. -/
theorem evaluateAt_string (s : String) : (string s).evaluateAt limit depth env =
    entering limit .string depth env ⟨.ok (.string s), env, []⟩ := by
  unfold evaluateAt entering
  cases h : depthFailure? limit depth with
  | some failure => simp [run_visit_of_tooDeep h, kind]
  | none => simp [run_visit_string h, run_give_nil, Outcome.after]

/-- A variable stands for its value. -/
theorem evaluateAt_ident (name : String) : (ident name).evaluateAt limit depth env =
    entering limit .ident depth env ⟨env.lookup name, env, []⟩ := by
  unfold evaluateAt entering
  cases h : depthFailure? limit depth with
  | some failure => simp [run_visit_of_tooDeep h, kind]
  | none =>
    rw [run_visit_ident h]
    split <;> simp_all [run_give_nil, Outcome.after]

/-- The left operand is evaluated before the right one, and the operator applied to both. -/
theorem evaluateAt_binary (op : Operator) (l r : Expr) :
    (binary op l r).evaluateAt limit depth env =
      entering limit .operator depth env
        ((l.evaluateAt limit (depth + 1) env).andThen fun a env₁ =>
          (r.evaluateAt limit (depth + 1) env₁).andThen fun b env₂ =>
            ⟨op.apply a b, env₂, op.notes a b⟩) := by
  unfold entering
  rw [evaluateAt]
  cases h : depthFailure? limit depth with
  | some failure => simp [run_visit_of_tooDeep h, kind]
  | none =>
    rw [run_visit_binary h, run_visit]
    obtain ⟨result, env₁, log₁⟩ := l.evaluateAt limit (depth + 1) env
    cases result with
    | error failure => simp [Outcome.andThen, Outcome.after]
    | ok a =>
      simp only [Outcome.resume_ok, run_give_right, run_visit limit r, Outcome.andThen]
      obtain ⟨result, env₂, log₂⟩ := r.evaluateAt limit (depth + 1) env₁
      cases result with
      | error failure => simp [Outcome.after]
      | ok b =>
        simp only [Outcome.resume_ok, run_give_apply]
        cases op.apply a b <;> simp [run_give_nil, Outcome.after]

/-- What a `let` binds is evaluated and then bound. -/
theorem evaluateAt_let (operands : List Expr) :
    (form .letForm operands).evaluateAt limit depth env =
      entering limit .keyword depth env
        (match letShape operands with
        | .bind name e =>
          (e.evaluateAt limit (depth + 1) env).andThen fun v env₁ =>
            ⟨.ok v, env₁.define name v, [.bind name v]⟩
        | .refuse failure => ⟨.error failure, env, []⟩) := by
  unfold entering
  rw [evaluateAt]
  cases h : depthFailure? limit depth with
  | some failure => simp [run_visit_of_tooDeep h, kind]
  | none =>
    rw [run_visit_let h]
    cases letShape operands with
    | bind name e =>
      simp only [run_visit limit e, Outcome.andThen]
      obtain ⟨result, env₁, log₁⟩ := e.evaluateAt limit (depth + 1) env
      cases result <;> simp [run_give_bind, run_give_nil, Outcome.after]
    | refuse failure => simp [Outcome.after]

/-- The other keywords cannot be evaluated. -/
theorem evaluateAt_keyword {k : Keyword} (hk : k ≠ .letForm) (operands : List Expr) :
    (form k operands).evaluateAt limit depth env =
      entering limit .keyword depth env ⟨.error (refuseKeyword k), env, []⟩ := by
  unfold evaluateAt entering
  cases h : depthFailure? limit depth with
  | some failure => simp [run_visit_of_tooDeep h, kind]
  | none => simp [run_visit_keyword h hk, Outcome.after]

end Expr

end LetLang
