import LetLang.Eval.Rules
import Mathlib.Tactic.Lemma

/-!
# Derivations of outcomes

`Evaluates` gives the meaning of the language by rules.  A judgement says that an expression inside
`depth` others, evaluated in an environment, ends with a result, leaves an environment behind and
has noted a log.  Each rule treats one kind of expression at one way of ending; nothing else is
derivable.

The machine works on a list of frames and has one loop for all of this.  `Evaluates.evaluateAt_eq`
shows that it finds every derivable outcome, `evaluates_evaluateAt` that it finds no other one, so
the machine and the rules agree on every expression.

`Expr.induction_on_visits` goes down only to operands that an evaluation may visit.  Statements for
which it makes no difference how an expression without such operands ends use
`Expr.induction_on_evaluation`.
-/

namespace LetLang

/-- An expression inside `depth` others is within the limit, if there is one. -/
def Within (limit : Option Nat) (depth : Nat) : Prop :=
  ∀ bound, limit = some bound → depth < bound

/-- Without a limit nothing lies too deep. -/
@[simp] lemma within_none (depth : Nat) : Within none depth := by
  simp [Within]

/-- The limit bounds the depth. -/
@[simp] lemma within_some {bound depth : Nat} : Within (some bound) depth ↔ depth < bound := by
  simp [Within]

/-- `Combines op a b r log` says that the operator makes `r` of the values `a` and `b`, and notes
`log` about it. -/
inductive Combines (op : Operator) :
    Value → Value → Except Failure Value → List Event → Prop
  /-- Numbers are added. -/
  | sum (x y : Float) (hop : op = .add) :
      Combines op (.number x) (.number y) (.ok (.number (x + y))) []
  /-- Numbers are subtracted. -/
  | difference (x y : Float) (hop : op = .sub) :
      Combines op (.number x) (.number y) (.ok (.number (x - y))) []
  /-- Numbers are multiplied. -/
  | product (x y : Float) (hop : op = .mul) :
      Combines op (.number x) (.number y) (.ok (.number (x * y))) []
  /-- Numbers are divided. -/
  | quotient (x y : Float) (hop : op = .div) :
      Combines op (.number x) (.number y) (.ok (.number (x / y))) []
  /-- Addition of strings is concatenation. -/
  | addition (s t : String) (hop : op = .add) :
      Combines op (.string s) (.string t) (.ok (.string (s ++ t))) []
  /-- Every other operator concatenates strings as well, but that is noted. -/
  | concatenation (s t : String) (hop : op ≠ .add) :
      Combines op (.string s) (.string t) (.ok (.string (s ++ t))) [.concatenate op]
  /-- Values that are neither both numbers nor both strings are refused. -/
  | mismatch (a b : Value) (hnumbers : ∀ x y, ¬(a = .number x ∧ b = .number y))
      (hstrings : ∀ s t, ¬(a = .string s ∧ b = .string t)) :
      Combines op a b (.error (.typeMismatch op.symbol a.typeName b.typeName)) []

/-- `Evaluates limit depth e env r env' log` says that the expression `e`, inside `depth` others and
evaluated in `env`, ends with the result `r`, leaves `env'` behind and has noted `log`. -/
inductive Evaluates (limit : Option Nat) :
    Nat → Expr → Environment → Except Failure Value → Environment → List Event → Prop
  /-- An expression that lies too deep is noted and fails. -/
  | tooDeep {depth bound : Nat} {e : Expr} {env : Environment}
      (hlimit : limit = some bound) (hdepth : bound ≤ depth) :
      Evaluates limit depth e env (.error (.tooDeep bound)) env [.enter e.kind depth]
  /-- A number stands for itself. -/
  | number {depth : Nat} {x : Float} {env : Environment} (h : Within limit depth) :
      Evaluates limit depth (.number x) env (.ok (.number x)) env [.enter .number depth]
  /-- A string stands for itself. -/
  | string {depth : Nat} {s : String} {env : Environment} (h : Within limit depth) :
      Evaluates limit depth (.string s) env (.ok (.string s)) env [.enter .string depth]
  /-- A variable stands for its value. -/
  | bound {depth : Nat} {name : String} {v : Value} {env : Environment}
      (h : Within limit depth) (hv : env.get? name = some v) :
      Evaluates limit depth (.ident name) env (.ok v) env [.enter .ident depth]
  /-- A variable without a value fails. -/
  | unbound {depth : Nat} {name : String} {env : Environment}
      (h : Within limit depth) (hv : env.get? name = none) :
      Evaluates limit depth (.ident name) env (.error (.undefinedVariable name)) env
        [.enter .ident depth]
  /-- If the left operand fails, the right one is not visited. -/
  | binaryLeft {depth : Nat} {op : Operator} {l r : Expr} {failure : Failure}
      {env env₁ : Environment} {log₁ : List Event} (h : Within limit depth)
      (hl : Evaluates limit (depth + 1) l env (.error failure) env₁ log₁) :
      Evaluates limit depth (.binary op l r) env (.error failure) env₁
        (.enter .operator depth :: log₁)
  /-- The right operand is evaluated in the environment that the left one left behind. -/
  | binaryRight {depth : Nat} {op : Operator} {l r : Expr} {a : Value} {failure : Failure}
      {env env₁ env₂ : Environment} {log₁ log₂ : List Event} (h : Within limit depth)
      (hl : Evaluates limit (depth + 1) l env (.ok a) env₁ log₁)
      (hr : Evaluates limit (depth + 1) r env₁ (.error failure) env₂ log₂) :
      Evaluates limit depth (.binary op l r) env (.error failure) env₂
        (.enter .operator depth :: log₁ ++ log₂)
  /-- The operator is applied to the values of both operands. -/
  | binary {depth : Nat} {op : Operator} {l r : Expr} {a b : Value} {res : Except Failure Value}
      {env env₁ env₂ : Environment} {log₁ log₂ noted : List Event} (h : Within limit depth)
      (hl : Evaluates limit (depth + 1) l env (.ok a) env₁ log₁)
      (hr : Evaluates limit (depth + 1) r env₁ (.ok b) env₂ log₂)
      (hop : Combines op a b res noted) :
      Evaluates limit depth (.binary op l r) env res env₂
        (.enter .operator depth :: log₁ ++ log₂ ++ noted)
  /-- If the value of a `let` fails, nothing is bound. -/
  | letValue {depth : Nat} {name : String} {e : Expr} {others : List Expr} {failure : Failure}
      {env env₁ : Environment} {log₁ : List Event} (h : Within limit depth)
      (he : Evaluates limit (depth + 1) e env (.error failure) env₁ log₁) :
      Evaluates limit depth (.form .letForm (.ident name :: e :: others)) env
        (.error failure) env₁ (.enter .keyword depth :: log₁)
  /-- A `let` notes and binds the value, whatever operands stand behind it. -/
  | letBind {depth : Nat} {name : String} {e : Expr} {others : List Expr} {v : Value}
      {env env₁ : Environment} {log₁ : List Event} (h : Within limit depth)
      (he : Evaluates limit (depth + 1) e env (.ok v) env₁ log₁) :
      Evaluates limit depth (.form .letForm (.ident name :: e :: others)) env
        (.ok v) (env₁.define name v) (.enter .keyword depth :: log₁ ++ [.bind name v])
  /-- A `let` needs a value. -/
  | letBare {depth : Nat} {name : String} {env : Environment} (h : Within limit depth) :
      Evaluates limit depth (.form .letForm [.ident name]) env
        (.error (.unimplemented ("`let " ++ name ++ "` without a value"))) env
        [.enter .keyword depth]
  /-- The target of a `let` has to be a variable. -/
  | letTarget {depth : Nat} {target : Expr} {others : List Expr} {env : Environment}
      (h : Within limit depth) (htarget : ∀ name, target ≠ .ident name) :
      Evaluates limit depth (.form .letForm (target :: others)) env
        (.error (.unimplemented
          ("`let` target must be a variable name, got " ++ target.kind.description))) env
        [.enter .keyword depth]
  /-- A `let` needs a target. -/
  | letEmpty {depth : Nat} {env : Environment} (h : Within limit depth) :
      Evaluates limit depth (.form .letForm []) env
        (.error (.unimplemented "`let` without a target")) env [.enter .keyword depth]
  /-- A `set` cannot be evaluated. -/
  | setForm {depth : Nat} {operands : List Expr} {env : Environment} (h : Within limit depth) :
      Evaluates limit depth (.form .setForm operands) env
        (.error (.unimplemented "`set` expression")) env [.enter .keyword depth]
  /-- A `begin` cannot be evaluated. -/
  | beginForm {depth : Nat} {operands : List Expr} {env : Environment} (h : Within limit depth) :
      Evaluates limit depth (.form .beginForm operands) env
        (.error (.unimplemented "`begin` expression")) env [.enter .keyword depth]

/-! ## The shapes of a `let` -/

/-- A `let` that binds has a variable and an expression in front. -/
lemma letShape_eq_bind_iff {operands : List Expr} {name : String} {e : Expr} :
    letShape operands = .bind name e ↔ ∃ others, operands = .ident name :: e :: others := by
  constructor
  · intro h
    unfold letShape at h
    split at h
    · cases h
      exact ⟨_, rfl⟩
    all_goals cases h
  · rintro ⟨others, rfl⟩
    rfl

/-- The three ways in which a `let` has no meaning, each with its failure. -/
lemma letShape_eq_refuse {operands : List Expr} {failure : Failure}
    (h : letShape operands = .refuse failure) :
    (∃ name, operands = [.ident name] ∧
      failure = .unimplemented ("`let " ++ name ++ "` without a value")) ∨
    (∃ target others, operands = target :: others ∧ (∀ name, target ≠ .ident name) ∧
      failure = .unimplemented
        ("`let` target must be a variable name, got " ++ target.kind.description)) ∨
    (operands = [] ∧ failure = .unimplemented "`let` without a target") := by
  unfold letShape at h
  split at h
  · cases h
  · next name =>
    cases h
    exact .inl ⟨name, rfl, rfl⟩
  · next target others hpair hsingle =>
    cases h
    refine .inr (.inl ⟨target, others, rfl, ?_, rfl⟩)
    -- a variable in front would have met one of the two patterns before this one
    rintro name rfl
    cases others with
    | nil => exact hsingle name rfl rfl
    | cons e others => exact hpair name e others rfl rfl
  · cases h
    exact .inr (.inr ⟨rfl, rfl⟩)

/-- A `let` on something other than a variable is refused. -/
lemma letShape_of_target {target : Expr} (htarget : ∀ name, target ≠ .ident name)
    (others : List Expr) : letShape (target :: others) =
      .refuse (.unimplemented
        ("`let` target must be a variable name, got " ++ target.kind.description)) := by
  cases target with
  | ident name => exact absurd rfl (htarget name)
  | _ => rfl

/-- The outcome of a `let` that binds a variable. -/
lemma Expr.evaluateAt_of_bind {operands : List Expr} {name : String} {e : Expr}
    (hs : letShape operands = .bind name e) (limit : Option Nat) (depth : Nat)
    (env : Environment) :
    (Expr.form .letForm operands).evaluateAt limit depth env =
      entering limit .keyword depth env
        ((e.evaluateAt limit (depth + 1) env).andThen fun v env₁ =>
          ⟨.ok v, env₁.define name v, [.bind name v]⟩) := by
  rw [evaluateAt_let, hs]

/-- The outcome of a `let` that has no meaning. -/
lemma Expr.evaluateAt_of_refuse {operands : List Expr} {failure : Failure}
    (hs : letShape operands = .refuse failure) (limit : Option Nat) (depth : Nat)
    (env : Environment) :
    (Expr.form .letForm operands).evaluateAt limit depth env =
      entering limit .keyword depth env ⟨.error failure, env, []⟩ := by
  rw [evaluateAt_let, hs]

/-! ## Induction along the operands that are visited -/

/-- A statement holds of all expressions if it passes from the operands that an evaluation may visit
to the expression itself. -/
@[elab_as_elim]
theorem Expr.induction_on_visits {motive : Expr → Prop}
    (number : ∀ x, motive (.number x)) (string : ∀ s, motive (.string s))
    (ident : ∀ name, motive (.ident name))
    (binary : ∀ op l r, motive l → motive r → motive (.binary op l r))
    (bind : ∀ operands name e, letShape operands = .bind name e → motive e →
      motive (.form .letForm operands))
    (refuse : ∀ operands failure, letShape operands = .refuse failure →
      motive (.form .letForm operands))
    (keyword : ∀ k operands, k ≠ .letForm → motive (.form k operands)) (e : Expr) : motive e :=
  match e with
  | .number x => number x
  | .string s => string s
  | .ident name => ident name
  | .binary op l r =>
    binary op l r
      (induction_on_visits number string ident binary bind refuse keyword l)
      (induction_on_visits number string ident binary bind refuse keyword r)
  | .form k operands => by
    by_cases hk : k = .letForm
    · subst hk
      cases hs : letShape operands with
      | bind name e =>
        have := sizeOf_letShape hs
        exact bind operands name e hs
          (induction_on_visits number string ident binary bind refuse keyword e)
      | refuse failure => exact refuse operands failure hs
    · exact keyword k operands hk
termination_by sizeOf e

/-- The expression visits no operand: once entered it ends at once, with a result that depends on
the environment only. -/
def Expr.Immediate (e : Expr) : Prop :=
  ∃ find : Environment → Except Failure Value, ∀ limit depth env,
    e.evaluateAt limit depth env = entering limit e.kind depth env ⟨find env, env, []⟩

/-- A statement holds of all expressions if it holds of those that visit no operand and passes from
the operands of an operator and from the value of a `let` to the whole. -/
@[elab_as_elim]
theorem Expr.induction_on_evaluation {motive : Expr → Prop}
    (immediate : ∀ e : Expr, e.Immediate → motive e)
    (binary : ∀ op l r, motive l → motive r → motive (.binary op l r))
    (bind : ∀ operands name e, letShape operands = .bind name e → motive e →
      motive (.form .letForm operands)) (e : Expr) : motive e := by
  induction e using Expr.induction_on_visits with
  | number x => exact immediate _ ⟨fun _ => .ok (.number x), fun _ _ _ => evaluateAt_number _ _ _ x⟩
  | string s => exact immediate _ ⟨fun _ => .ok (.string s), fun _ _ _ => evaluateAt_string _ _ _ s⟩
  | ident name =>
    exact immediate _ ⟨fun env => env.lookup name, fun _ _ _ => evaluateAt_ident _ _ _ name⟩
  | binary op l r ihl ihr => exact binary op l r ihl ihr
  | bind operands name e hs ih => exact bind operands name e hs ih
  | refuse operands failure hs =>
    exact immediate _ ⟨fun _ => .error failure, evaluateAt_of_refuse hs⟩
  | keyword k operands hk =>
    exact immediate _
      ⟨fun _ => .error (refuseKeyword k), fun _ _ _ => evaluateAt_keyword _ _ _ hk operands⟩

/-! ## Limits and operators -/

/-- An expression is within the limit exactly if it does not lie too deep. -/
lemma depthFailure?_eq_none_iff {limit : Option Nat} {depth : Nat} :
    depthFailure? limit depth = none ↔ Within limit depth := by
  cases limit with
  | none => simp [depthFailure?]
  | some bound => simp [depthFailure?]

/-- The failure of an expression that lies too deep names the limit. -/
lemma depthFailure?_eq_some_iff {limit : Option Nat} {depth : Nat} {failure : Failure} :
    depthFailure? limit depth = some failure ↔
      ∃ bound, limit = some bound ∧ bound ≤ depth ∧ failure = .tooDeep bound := by
  cases limit with
  | none => simp [depthFailure?]
  | some bound => simp [depthFailure?, eq_comm]

/-- Within the limit an evaluation notes its beginning and goes on with its body. -/
lemma entering_of_within {limit : Option Nat} {depth : Nat} (h : Within limit depth)
    (kind : Expr.Kind) (env : Environment) (body : Outcome) :
    entering limit kind depth env body = body.after [.enter kind depth] := by
  unfold entering
  rw [depthFailure?_eq_none_iff.mpr h]

/-- What an operator finds is allowed by `Combines`. -/
lemma combines_apply (op : Operator) (a b : Value) :
    Combines op a b (op.apply a b) (op.notes a b) := by
  cases a <;> cases b
  case number.number x y =>
    cases op with
    | add => exact .sum x y rfl
    | sub => exact .difference x y rfl
    | mul => exact .product x y rfl
    | div => exact .quotient x y rfl
  case string.string s t =>
    simp only [Operator.apply, Operator.notes]
    split
    · next hop => exact .addition s t hop
    · next hop => exact .concatenation s t hop
  all_goals exact .mismatch _ _ (by simp) (by simp)

/-- What `Combines` allows is found by the operator. -/
lemma Combines.apply_eq {op : Operator} {a b : Value} {res : Except Failure Value}
    {noted : List Event} (h : Combines op a b res noted) :
    op.apply a b = res ∧ op.notes a b = noted := by
  cases h with
  | sum x y hop => simp [Operator.apply, Operator.notes, Operator.compute, hop]
  | difference x y hop => simp [Operator.apply, Operator.notes, Operator.compute, hop]
  | product x y hop => simp [Operator.apply, Operator.notes, Operator.compute, hop]
  | quotient x y hop => simp [Operator.apply, Operator.notes, Operator.compute, hop]
  | addition s t hop => simp [Operator.apply, Operator.notes, hop]
  | concatenation s t hop => simp [Operator.apply, Operator.notes, hop]
  | mismatch a b hnumbers hstrings =>
    cases a <;> cases b
    case number.number x y => exact absurd ⟨rfl, rfl⟩ (hnumbers x y)
    case string.string s t => exact absurd ⟨rfl, rfl⟩ (hstrings s t)
    all_goals exact ⟨rfl, rfl⟩

/-! ## The machine and the rules -/

section Agreement

variable {limit : Option Nat}

/-- The machine finds every outcome that can be derived. -/
theorem Evaluates.evaluateAt_eq {depth : Nat} {e : Expr} {env env' : Environment}
    {res : Except Failure Value} {log : List Event}
    (h : Evaluates limit depth e env res env' log) :
    e.evaluateAt limit depth env = ⟨res, env', log⟩ := by
  induction h with
  | tooDeep hlimit hdepth =>
    have htooDeep := depthFailure?_eq_some_iff.mpr ⟨_, hlimit, hdepth, rfl⟩
    simp [Expr.evaluateAt, run_visit_of_tooDeep htooDeep]
  | number h => rw [Expr.evaluateAt_number, entering_of_within h]; rfl
  | string h => rw [Expr.evaluateAt_string, entering_of_within h]; rfl
  | bound h hv =>
    rw [Expr.evaluateAt_ident, entering_of_within h]
    simp [Environment.lookup, hv, Outcome.after]
  | unbound h hv =>
    rw [Expr.evaluateAt_ident, entering_of_within h]
    simp [Environment.lookup, hv, Outcome.after]
  | binaryLeft h hl ihl =>
    rw [Expr.evaluateAt_binary, entering_of_within h, ihl]
    simp [Outcome.andThen, Outcome.after]
  | binaryRight h hl hr ihl ihr =>
    rw [Expr.evaluateAt_binary, entering_of_within h, ihl]
    simp [Outcome.andThen, Outcome.after, ihr]
  | binary h hl hr hop ihl ihr =>
    obtain ⟨happly, hnotes⟩ := hop.apply_eq
    rw [Expr.evaluateAt_binary, entering_of_within h, ihl]
    simp [Outcome.andThen, Outcome.after, ihr, happly, hnotes]
  | letValue h he ih =>
    rw [Expr.evaluateAt_of_bind rfl, entering_of_within h, ih]
    simp [Outcome.andThen, Outcome.after]
  | letBind h he ih =>
    rw [Expr.evaluateAt_of_bind rfl, entering_of_within h, ih]
    simp [Outcome.andThen, Outcome.after]
  | letBare h => rw [Expr.evaluateAt_of_refuse rfl, entering_of_within h]; rfl
  | letTarget h htarget =>
    rw [Expr.evaluateAt_of_refuse (letShape_of_target htarget _), entering_of_within h]; rfl
  | letEmpty h => rw [Expr.evaluateAt_of_refuse rfl, entering_of_within h]; rfl
  | setForm h => rw [Expr.evaluateAt_keyword _ _ _ (by decide), entering_of_within h]; rfl
  | beginForm h => rw [Expr.evaluateAt_keyword _ _ _ (by decide), entering_of_within h]; rfl

/-- A `let` that is refused has a rule for its shape. -/
lemma evaluates_refuse {depth : Nat} {env : Environment} {operands : List Expr}
    {failure : Failure} (h : Within limit depth) (hs : letShape operands = .refuse failure) :
    Evaluates limit depth (.form .letForm operands) env (.error failure) env
      [.enter .keyword depth] := by
  obtain ⟨name, rfl, rfl⟩ | ⟨target, others, rfl, htarget, rfl⟩ | ⟨rfl, rfl⟩ :=
    letShape_eq_refuse hs
  · exact .letBare h
  · exact .letTarget h htarget
  · exact .letEmpty h

/-- An expression that lies too deep has a rule whatever its kind, so only those within the limit
have to be looked at. -/
lemma evaluates_of_within {depth : Nat} {e : Expr} {env : Environment} {o : Outcome}
    (ho : e.evaluateAt limit depth env = o)
    (hwithin : Within limit depth → Evaluates limit depth e env o.result o.env o.log) :
    Evaluates limit depth e env o.result o.env o.log := by
  cases h : depthFailure? limit depth with
  | none => exact hwithin (depthFailure?_eq_none_iff.mp h)
  | some failure =>
    obtain ⟨bound, hlimit, hdepth, rfl⟩ := depthFailure?_eq_some_iff.mp h
    rw [Expr.evaluateAt, run_visit_of_tooDeep h] at ho
    subst ho
    exact .tooDeep hlimit hdepth

/-- The outcome that the machine finds can be derived. -/
theorem evaluates_evaluateAt (limit : Option Nat) (e : Expr) :
    ∀ (depth : Nat) (env : Environment),
      Evaluates limit depth e env (e.evaluateAt limit depth env).result
        (e.evaluateAt limit depth env).env (e.evaluateAt limit depth env).log := by
  induction e using Expr.induction_on_visits with
  | number x =>
    intro depth env
    refine evaluates_of_within rfl fun h => ?_
    rw [Expr.evaluateAt_number, entering_of_within h]
    exact .number h
  | string s =>
    intro depth env
    refine evaluates_of_within rfl fun h => ?_
    rw [Expr.evaluateAt_string, entering_of_within h]
    exact .string h
  | ident name =>
    intro depth env
    refine evaluates_of_within rfl fun h => ?_
    rw [Expr.evaluateAt_ident, entering_of_within h, Environment.lookup]
    cases hv : env.get? name with
    | none => exact .unbound h hv
    | some v => exact .bound h hv
  | binary op l r ihl ihr =>
    intro depth env
    refine evaluates_of_within rfl fun h => ?_
    rw [Expr.evaluateAt_binary, entering_of_within h]
    have hl := ihl (depth + 1) env
    rcases hlo : l.evaluateAt limit (depth + 1) env with ⟨failure | a, env₁, log₁⟩
    · rw [hlo] at hl
      exact .binaryLeft h hl
    · rw [hlo] at hl
      have hr := ihr (depth + 1) env₁
      rcases hro : r.evaluateAt limit (depth + 1) env₁ with ⟨failure | b, env₂, log₂⟩
      · rw [hro] at hr
        simpa [Outcome.andThen, Outcome.after, hro] using Evaluates.binaryRight h hl hr
      · rw [hro] at hr
        have hop := combines_apply op a b
        simpa [Outcome.andThen, Outcome.after, hro] using Evaluates.binary h hl hr hop
  | bind operands name e hs ih =>
    intro depth env
    refine evaluates_of_within rfl fun h => ?_
    rw [Expr.evaluateAt_of_bind hs, entering_of_within h]
    obtain ⟨others, rfl⟩ := letShape_eq_bind_iff.mp hs
    have he := ih (depth + 1) env
    rcases heo : e.evaluateAt limit (depth + 1) env with ⟨failure | v, env₁, log₁⟩
    · rw [heo] at he
      exact .letValue h he
    · rw [heo] at he
      exact .letBind h he
  | refuse operands failure hs =>
    intro depth env
    refine evaluates_of_within rfl fun h => ?_
    rw [Expr.evaluateAt_of_refuse hs, entering_of_within h]
    exact evaluates_refuse h hs
  | keyword k operands hk =>
    intro depth env
    refine evaluates_of_within rfl fun h => ?_
    rw [Expr.evaluateAt_keyword _ _ _ hk, entering_of_within h]
    cases k with
    | letForm => exact absurd rfl hk
    | setForm => exact .setForm h
    | beginForm => exact .beginForm h

/-- The machine implements the rules: an evaluation ends with a result, an environment and a log
exactly if the rules derive them for the expression inside no other one. -/
theorem evaluate_eq_iff_evaluates (limit : Option Nat) (e : Expr) (env env' : Environment)
    (res : Except Failure Value) (log : List Event) :
    e.evaluate limit env = ⟨res, env', log⟩ ↔ Evaluates limit 0 e env res env' log := by
  constructor
  · intro h
    have hderived := evaluates_evaluateAt limit e 0 env
    rw [← Expr.evaluate_eq, h] at hderived
    exact hderived
  · exact Evaluates.evaluateAt_eq

end Agreement

end LetLang
