import LetLang.Proofs.Derivation

/-!
# Data and control

The language has no branches, and no operation looks into its data before it decides what to do.
So whether an evaluation succeeds, and with which failure it ends, depends on the types of the data
only.  Two expressions that differ in nothing but their literals, evaluated in environments that
differ in nothing but the contents of their values, are followed side by side: `Outcome.Alike` says
that the outcomes show no difference but the contents of values.  Division by zero, what is no
number, and empty strings are contents like any others.

Instead of two expressions it is enough to compare an expression with its `Expr.blank`, in which all
literals have been replaced by fixed ones (`alike_blank`), since two expressions of the same shape
have the same blank.
-/

namespace LetLang

/-! ## Shapes -/

mutual

/-- The expression with `x` in the place of each number and `s` in the place of each string. -/
def Expr.blank (x : Float) (s : String) : Expr → Expr
  | .number _ => .number x
  | .string _ => .string s
  | .binary op l r => .binary op (l.blank x s) (r.blank x s)
  | .form k operands => .form k (Expr.blankAll x s operands)
  | .ident name => .ident name

/-- Several expressions with `x` in the place of each number and `s` in the place of each string. -/
def Expr.blankAll (x : Float) (s : String) : List Expr → List Expr
  | [] => []
  | e :: es => e.blank x s :: Expr.blankAll x s es

end

/-- Two expressions are equal once their numbers are replaced by one number and their strings by one
string. -/
def Expr.SameShape (e e' : Expr) : Prop :=
  ∃ x s, e.blank x s = e'.blank x s

/-- What a `let` asks for, with the literals replaced. -/
def LetShape.blank (x : Float) (s : String) : LetShape → LetShape
  | .bind name e => .bind name (e.blank x s)
  | .refuse failure => .refuse failure

/-- Whether a `let` binds, and how it is refused otherwise, does not depend on literals. -/
lemma letShape_blankAll (x : Float) (s : String) (operands : List Expr) :
    letShape (Expr.blankAll x s operands) = (letShape operands).blank x s := by
  rcases operands with _ | ⟨target, _ | ⟨e, others⟩⟩
  · rfl
  · cases target <;> simp [Expr.blankAll, Expr.blank, letShape, LetShape.blank, Expr.kind]
  · cases target <;> simp [Expr.blankAll, Expr.blank, letShape, LetShape.blank, Expr.kind]

/-! ## Outcomes that differ in contents only -/

/-- Two environments have the same variables, and the values of each are of one type. -/
def Environment.SameTypes (env env' : Environment) : Prop :=
  ∀ name, (env.get? name).map Value.typeName = (env'.get? name).map Value.typeName

/-- The event with nothing in the place of a value that is bound. -/
def Event.withoutValue : Event → Event
  | .bind name _ => .bind name .null
  | ev => ev

/-- Two outcomes show no difference but the contents of values. -/
structure Outcome.Alike (o o' : Outcome) : Prop where
  /-- Both have values of one type or the same failure. -/
  result : o.result.map Value.typeName = o'.result.map Value.typeName
  /-- Both leave the same variables behind, with values of the same types. -/
  env : o.env.SameTypes o'.env
  /-- Both have noted the same but for the values that were bound. -/
  log : o.log.map Event.withoutValue = o'.log.map Event.withoutValue

namespace Environment

/-- Definitions of one variable by values of one type keep environments alike. -/
lemma SameTypes.define {env env' : Environment} (h : env.SameTypes env') (name : String)
    {v v' : Value} (hv : v.typeName = v'.typeName) :
    (env.define name v).SameTypes (env'.define name v') := by
  intro other
  rw [get?_define, get?_define]
  split
  · simp [hv]
  · exact h other

/-- The values of a variable in both environments are of one type, or both have none. -/
lemma SameTypes.lookup {env env' : Environment} (h : env.SameTypes env') (name : String) :
    (env.lookup name).map Value.typeName = (env'.lookup name).map Value.typeName := by
  have hname := h name
  unfold Environment.lookup
  cases hv : env.get? name with
  | none =>
    cases hv' : env'.get? name with
    | none => rfl
    | some v' => simp [hv, hv'] at hname
  | some v =>
    cases hv' : env'.get? name with
    | none => simp [hv, hv'] at hname
    | some v' =>
      have htype : v.typeName = v'.typeName := by simpa [hv, hv'] using hname
      simp [Except.map, htype]

end Environment

/-- Operators look at nothing but the types of their operands. -/
lemma Operator.alike_apply (op : Operator) {a a' b b' : Value} (ha : a.typeName = a'.typeName)
    (hb : b.typeName = b'.typeName) :
    (op.apply a b).map Value.typeName = (op.apply a' b').map Value.typeName ∧
      op.notes a b = op.notes a' b' := by
  cases a <;> cases a' <;> simp only [Value.typeName, String.reduceEq] at ha <;>
    cases b <;> cases b' <;> simp only [Value.typeName, String.reduceEq] at hb <;>
    simp only [Operator.apply, Operator.notes, Except.map, Value.typeName, and_self]

/-- Results are alike if both are values of one type or both are one failure. -/
lemma alike_result_cases {r r' : Except Failure Value}
    (h : r.map Value.typeName = r'.map Value.typeName) :
    (∃ v v', r = .ok v ∧ r' = .ok v' ∧ v.typeName = v'.typeName) ∨
      ∃ failure, r = .error failure ∧ r' = .error failure := by
  cases r with
  | error failure =>
    cases r' with
    | error failure' =>
      obtain rfl : failure = failure' := Except.error.inj h
      exact .inr ⟨failure, rfl, rfl⟩
    | ok v' => cases h
  | ok v =>
    cases r' with
    | error failure' => cases h
    | ok v' => exact .inl ⟨v, v', rfl, rfl, Except.ok.inj h⟩

namespace Outcome.Alike

/-- Alike outcomes stay so if alike notes are put in front. -/
lemma after {o o' : Outcome} (h : o.Alike o') {log log' : List Event}
    (hlog : log.map Event.withoutValue = log'.map Event.withoutValue) :
    (o.after log).Alike (o'.after log') := by
  refine ⟨h.result, h.env, ?_⟩
  simp only [Outcome.after, List.map_append]
  rw [hlog, h.log]

/-- Alike outcomes go on alike. -/
lemma andThen {o o' : Outcome} (h : o.Alike o') {next next' : Value → Environment → Outcome}
    (hnext : ∀ v v' env env', v.typeName = v'.typeName → env.SameTypes env' →
      (next v env).Alike (next' v' env')) :
    (o.andThen next).Alike (o'.andThen next') := by
  unfold Outcome.andThen
  obtain ⟨v, v', hv, hv', htype⟩ | ⟨failure, hr, hr'⟩ := alike_result_cases h.result
  · rw [hv, hv']
    exact (hnext v v' o.env o'.env htype h.env).after h.log
  · rw [hr, hr']
    exact ⟨rfl, h.env, h.log⟩

/-- Alike evaluations begin alike. -/
lemma entering {body body' : Outcome} (hbody : body.Alike body') {env env' : Environment}
    (henv : env.SameTypes env') (limit : Option Nat) (kind : Expr.Kind) (depth : Nat) :
    (entering limit kind depth env body).Alike (entering limit kind depth env' body') := by
  unfold LetLang.entering
  split
  · exact ⟨rfl, henv, rfl⟩
  · exact hbody.after rfl

/-- Expressions that visit no operand are evaluated alike if their results are. -/
lemma immediate {r r' : Except Failure Value}
    (hr : r.map Value.typeName = r'.map Value.typeName) {env env' : Environment}
    (henv : env.SameTypes env') (limit : Option Nat) (kind : Expr.Kind) (depth : Nat) :
    (LetLang.entering limit kind depth env ⟨r, env, []⟩).Alike
      (LetLang.entering limit kind depth env' ⟨r', env', []⟩) := by
  have hbody : Outcome.Alike ⟨r, env, []⟩ ⟨r', env', []⟩ := ⟨hr, henv, rfl⟩
  exact hbody.entering henv limit kind depth

end Outcome.Alike

/-! ## Evaluation -/

/-- An expression and its blank are evaluated alike. -/
theorem alike_blank (x : Float) (s : String) (limit : Option Nat) (e : Expr) :
    ∀ (depth : Nat) {env env' : Environment}, env.SameTypes env' →
      (e.evaluateAt limit depth env).Alike ((e.blank x s).evaluateAt limit depth env') := by
  induction e using Expr.induction_on_visits with
  | number y =>
    intro depth env env' henv
    rw [Expr.blank, Expr.evaluateAt_number, Expr.evaluateAt_number]
    refine .immediate ?_ henv limit _ depth
    rfl
  | string t =>
    intro depth env env' henv
    rw [Expr.blank, Expr.evaluateAt_string, Expr.evaluateAt_string]
    refine .immediate ?_ henv limit _ depth
    rfl
  | ident name =>
    intro depth env env' henv
    rw [Expr.blank, Expr.evaluateAt_ident, Expr.evaluateAt_ident]
    exact .immediate (henv.lookup name) henv limit _ depth
  | binary op l r ihl ihr =>
    intro depth env env' henv
    rw [Expr.blank, Expr.evaluateAt_binary, Expr.evaluateAt_binary]
    refine .entering (.andThen (ihl _ henv) ?_) henv limit _ depth
    intro a a' env₁ env₁' ha henv₁
    refine .andThen (ihr _ henv₁) ?_
    intro b b' env₂ env₂' hb henv₂
    obtain ⟨happly, hnotes⟩ := op.alike_apply ha hb
    exact ⟨happly, henv₂, congrArg _ hnotes⟩
  | bind operands name e hs ih =>
    intro depth env env' henv
    have hblank : letShape (Expr.blankAll x s operands) = .bind name (e.blank x s) := by
      rw [letShape_blankAll, hs]
      rfl
    rw [Expr.blank, Expr.evaluateAt_of_bind hs, Expr.evaluateAt_of_bind hblank]
    refine .entering (.andThen (ih _ henv) ?_) henv limit _ depth
    intro v v' env₁ env₁' hv henv₁
    exact ⟨congrArg Except.ok hv, henv₁.define name hv, rfl⟩
  | refuse operands failure hs =>
    intro depth env env' henv
    have hblank : letShape (Expr.blankAll x s operands) = .refuse failure := by
      rw [letShape_blankAll, hs]
      rfl
    rw [Expr.blank, Expr.evaluateAt_of_refuse hs, Expr.evaluateAt_of_refuse hblank]
    exact .immediate rfl henv limit _ depth
  | keyword k operands hk =>
    intro depth env env' henv
    rw [Expr.blank, Expr.evaluateAt_keyword _ _ _ hk, Expr.evaluateAt_keyword _ _ _ hk]
    exact .immediate rfl henv limit _ depth

/-- Success, failure and the failure itself depend on the types of data only.  Two expressions of
the same shape, evaluated in environments with the same variables and types under any limit, both
end with values of one type or both with the same failure; they leave environments with the same
variables and types behind, and note the same but for the values that were bound. -/
theorem evaluate_independent_of_data {e e' : Expr} (hshape : e.SameShape e')
    {env env' : Environment} (henv : env.SameTypes env') (limit : Option Nat) :
    ((∃ v v', (e.evaluate limit env).result = .ok v ∧ (e'.evaluate limit env').result = .ok v' ∧
        v.typeName = v'.typeName) ∨
      ∃ failure, (e.evaluate limit env).result = .error failure ∧
        (e'.evaluate limit env').result = .error failure) ∧
    (e.evaluate limit env).env.SameTypes (e'.evaluate limit env').env ∧
    (e.evaluate limit env).log.map Event.withoutValue =
      (e'.evaluate limit env').log.map Event.withoutValue := by
  obtain ⟨x, s, hblank⟩ := hshape
  -- both are compared with their common blank, in the second environment
  have h : (e.evaluate limit env).Alike ((e.blank x s).evaluate limit env') :=
    alike_blank x s limit e 0 henv
  have h' : (e'.evaluate limit env').Alike ((e'.blank x s).evaluate limit env') :=
    alike_blank x s limit e' 0 fun _ => rfl
  rw [← hblank] at h'
  refine ⟨alike_result_cases (h.result.trans h'.result.symm), ?_, h.log.trans h'.log.symm⟩
  intro name
  exact (h.env name).trans (h'.env name).symm

/-- The quotient bound to `x` is an infinity in one evaluation and no number in the other.  Both
fail on the string behind it, with `x` bound. -/
theorem evaluate_independent_of_data_quotient :
    let sum (n : Float) : Expr :=
      .binary .add (.form .letForm [.ident "x", .binary .div (.number n) (.ident "zero")])
        (.string "")
    let zero : Environment := .ofList [("zero", .number 0)]
    let negativeZero : Environment := .ofList [("zero", .number (-0))]
    ((sum 1).SameShape (sum 0) ∧ zero.SameTypes negativeZero) ∧
      ((∃ v v', ((sum 1).evaluate (some 9) zero).result = .ok v ∧
          ((sum 0).evaluate (some 9) negativeZero).result = .ok v' ∧ v.typeName = v'.typeName) ∨
        ∃ failure, ((sum 1).evaluate (some 9) zero).result = .error failure ∧
          ((sum 0).evaluate (some 9) negativeZero).result = .error failure) ∧
      ((sum 1).evaluate (some 9) zero).env.SameTypes
        ((sum 0).evaluate (some 9) negativeZero).env ∧
      ((sum 1).evaluate (some 9) zero).log.map Event.withoutValue =
        ((sum 0).evaluate (some 9) negativeZero).log.map Event.withoutValue := by
  intro sum zero negativeZero
  have hshape : (sum 1).SameShape (sum 0) :=
    ⟨2, "s", by simp only [sum, Expr.blank, Expr.blankAll]⟩
  have henv : zero.SameTypes negativeZero :=
    Environment.SameTypes.define (fun _ => rfl) "zero" (by simp only [Value.typeName])
  exact ⟨⟨hshape, henv⟩, evaluate_independent_of_data hshape henv (some 9)⟩

end LetLang
