import LetLang.Proofs.LastWrite
import LetLang.Proofs.Sequencing
import LetLang.Proofs.Walk

/-!
# The causes of failures

A failure arises at one expression in an evaluated position, and nothing is evaluated after it.
`Failure.Arises` says what can go wrong at a single expression, in the environment that is left
behind in the end; every derivable failure arises somewhere (`Evaluates.exists_arises`).

So a failure can be taken at its word.  A variable that it calls undefined stands in an evaluated
position and has no value when the evaluation ends.  Since no evaluation takes a value away
(`get?_of_evaluate`), it had none in the beginning either.  Types that it calls mismatched are those
of two values that an operator of the expression was applied to.  `Failure.Truthful` puts this
together; it is shared by expressions, JSON values and programs, as these fail only where an
expression does.
-/

namespace LetLang

/-! ## Where failures arise -/

/-- `failure.Arises limit env e` says that the failure arises at the expression `e` itself, not at
one of its operands, and that `env` is the environment at that moment. -/
inductive Failure.Arises (limit : Option Nat) (env : Environment) : Expr → Failure → Prop
  /-- The expression lies too deep. -/
  | tooDeep (e : Expr) {bound : Nat} (hlimit : limit = some bound) :
      Arises limit env e (.tooDeep bound)
  /-- The variable has no value. -/
  | unbound {x : String} (hx : env.get? x = none) :
      Arises limit env (.ident x) (.undefinedVariable x)
  /-- The operator does not apply to the values of its operands. -/
  | mismatch (op : Operator) (l r : Expr) {a b : Value}
      (hnumbers : ∀ x y, ¬(a = .number x ∧ b = .number y))
      (hstrings : ∀ s t, ¬(a = .string s ∧ b = .string t)) :
      Arises limit env (.binary op l r) (.typeMismatch op.symbol a.typeName b.typeName)
  /-- The keyword form has no meaning. -/
  | refused (k : Keyword) (operands : List Expr) (text : String) :
      Arises limit env (.form k operands) (.unimplemented text)

/-- A failure that can be derived arises at an expression in an evaluated position, in the
environment that is left behind. -/
theorem Evaluates.exists_arises {limit : Option Nat} {depth : Nat} {e : Expr}
    {env env' : Environment} {res : Except Failure Value} {log : List Event}
    (h : Evaluates limit depth e env res env' log) :
    ∀ failure, res = .error failure →
      ∃ node ∈ e.visited depth, failure.Arises limit env' node.1 := by
  induction h with
  | tooDeep hlimit _ =>
    rintro failure ⟨⟩
    exact ⟨_, Expr.self_mem_visited _ _, .tooDeep _ hlimit⟩
  | number _ => exact fun _ hres => nomatch hres
  | string _ => exact fun _ hres => nomatch hres
  | bound _ _ => exact fun _ hres => nomatch hres
  | unbound _ hv =>
    rintro failure ⟨⟩
    exact ⟨_, Expr.self_mem_visited _ _, .unbound hv⟩
  | @binaryLeft _ op _ r _ _ _ _ _ _ ihl =>
    intro failure hres
    obtain ⟨node, hmem, harises⟩ := ihl failure hres
    exact ⟨node, Expr.mem_visited_left hmem op r, harises⟩
  | @binaryRight _ op l _ _ _ _ _ _ _ _ _ _ _ _ ihr =>
    intro failure hres
    obtain ⟨node, hmem, harises⟩ := ihr failure hres
    exact ⟨node, Expr.mem_visited_right hmem op l, harises⟩
  | binary _ _ _ hop _ _ =>
    rintro failure rfl
    cases hop with
    | mismatch a b hnumbers hstrings =>
      exact ⟨_, Expr.self_mem_visited _ _, .mismatch _ _ _ hnumbers hstrings⟩
  | @letValue _ name _ others _ _ _ _ _ _ ih =>
    intro failure hres
    obtain ⟨node, hmem, harises⟩ := ih failure hres
    exact ⟨node, Expr.mem_visited_value hmem name others, harises⟩
  | letBind _ _ _ => exact fun _ hres => nomatch hres
  | letBare _ | letTarget _ _ | letEmpty _ | setForm _ | beginForm _ =>
    rintro failure ⟨⟩
    exact ⟨_, Expr.self_mem_visited _ _, .refused _ _ _⟩

/-- A variable that has no value after an evaluation had none before it. -/
lemma get?_of_evaluate {limit : Option Nat} {e : Expr} {env : Environment} {x : String}
    (h : (e.evaluate limit env).env.get? x = none) : env.get? x = none := by
  rw [Expr.evaluate_env, Environment.get?_defineAll, Option.or_eq_none_iff] at h
  exact h.2

/-! ## What failures say -/

/-- What a failure says about the evaluation of `e` from `env` to `env'` is true, and its message
says it in words. -/
structure Failure.Truthful (failure : Failure) (limit : Option Nat) (e : Expr)
    (env env' : Environment) : Prop where
  /-- Every operator of an expression is known. -/
  known : ∀ symbol, failure ≠ .unknownOperator symbol
  /-- The limit that is named is the one in force. -/
  tooDeep : ∀ bound, failure = .tooDeep bound → limit = some bound ∧
    failure.message = "maximum recursion depth exceeded (limit: " ++
      String.ofList (Nat.toDigits 10 bound) ++ ")"
  /-- A variable that is called undefined stands in an evaluated position and never had a value. -/
  undefined : ∀ x, failure = .undefinedVariable x →
    (∃ depth, (.ident x, depth) ∈ e.visited 0) ∧ env.get? x = none ∧ env'.get? x = none ∧
    failure.message = "Variable \"" ++ x ++ "\" is not defined"
  /-- Types that are called mismatched belong to values, not both of them numbers and not both of
  them strings, and the operator stands in an evaluated position. -/
  mismatch : ∀ symbol left right, failure = .typeMismatch symbol left right →
    (∃ op l r depth, (.binary op l r, depth) ∈ e.visited 0 ∧ symbol = op.symbol) ∧
    (∃ a b : Value, left = a.typeName ∧ right = b.typeName) ∧
    (left, right) ≠ ("number", "number") ∧ (left, right) ≠ ("string", "string") ∧
    failure.message =
      "Type mismatch: cannot apply operator " ++ symbol ++ " to " ++ left ++ " and " ++ right
  /-- A form that has no meaning is described. -/
  unimplemented : ∀ text, failure = .unimplemented text →
    failure.message = "Unimplemented: " ++ text
  /-- If all variables in evaluated positions have values, none is called undefined. -/
  defined : (∀ x depth, (.ident x, depth) ∈ e.visited 0 → env.contains x = true) →
    ∀ x, failure ≠ .undefinedVariable x
  /-- Without a limit nothing is too deep. -/
  unlimited : limit = none → ∀ bound, failure ≠ .tooDeep bound

/-- The types of values that are neither both numbers nor both strings say so. -/
lemma Value.typeNames_ne {a b : Value} (hnumbers : ∀ x y, ¬(a = .number x ∧ b = .number y))
    (hstrings : ∀ s t, ¬(a = .string s ∧ b = .string t)) :
    (a.typeName, b.typeName) ≠ ("number", "number") ∧
      (a.typeName, b.typeName) ≠ ("string", "string") := by
  cases a <;> cases b
  case number.number x y => exact absurd ⟨rfl, rfl⟩ (hnumbers x y)
  case string.string s t => exact absurd ⟨rfl, rfl⟩ (hstrings s t)
  all_goals simp [typeName]

/-- A failure is truthful wherever in the expression it arises, if no value is ever taken away. -/
lemma Failure.Arises.truthful {limit : Option Nat} {e : Expr} {env env' : Environment}
    {failure : Failure} {node : Expr × Nat} (h : failure.Arises limit env' node.1)
    (hnode : node ∈ e.visited 0) (hkept : ∀ x, env'.get? x = none → env.get? x = none) :
    failure.Truthful limit e env env' := by
  obtain ⟨n, depth⟩ := node
  cases h with
  | tooDeep _ hlimit =>
    constructor
    case tooDeep =>
      rintro bound ⟨⟩
      exact ⟨hlimit, rfl⟩
    case unlimited =>
      intro hnone
      rw [hlimit] at hnone
      cases hnone
    all_goals simp
  | @unbound x hx =>
    have hunbound := hkept x hx
    constructor
    case undefined =>
      rintro y ⟨⟩
      exact ⟨⟨depth, hnode⟩, hunbound, hx, rfl⟩
    case defined =>
      intro hall
      have hcontains := hall x depth hnode
      simp [Environment.contains_iff, hunbound] at hcontains
    all_goals simp
  | mismatch op l r hnumbers hstrings =>
    obtain ⟨hnumber, hstring⟩ := Value.typeNames_ne hnumbers hstrings
    constructor
    case mismatch =>
      rintro symbol left right ⟨⟩
      exact ⟨⟨op, l, r, depth, hnode, rfl⟩, ⟨_, _, rfl, rfl⟩, hnumber, hstring, rfl⟩
    all_goals simp
  | refused k operands text =>
    constructor
    case unimplemented =>
      rintro other ⟨⟩
      rfl
    all_goals simp

/-- Every failure of an evaluation is truthful. -/
theorem truthful_of_evaluate {limit : Option Nat} {e : Expr} {env : Environment}
    {failure : Failure} (h : (e.evaluate limit env).result = .error failure) :
    failure.Truthful limit e env (e.evaluate limit env).env := by
  obtain ⟨node, hnode, harises⟩ := (evaluates_evaluateAt limit e 0 env).exists_arises failure h
  exact harises.truthful hnode fun x hx => get?_of_evaluate hx

/-- Expressions that have values do not change the limit, and each has one value. -/
lemma Succeeds.limit_eq_and_length_eq {i i' : Interpreter} {raws : List Json} {vs : List Value}
    {log : List Event} (h : Succeeds i raws vs log i') :
    i'.limit = i.limit ∧ vs.length = raws.length := by
  induction h with
  | nil i => exact ⟨rfl, rfl⟩
  | cons _ _ ih => exact ⟨ih.1, congrArg Nat.succ ih.2⟩

/-- A JSON value is evaluated as the expression that it stands for. -/
lemma Json.evaluate_of_ofJson {raw : Json} {e : Expr} (h : Expr.ofJson raw = .ok e)
    (limit : Option Nat) (env : Environment) : raw.evaluate limit env = e.evaluate limit env := by
  rw [Json.evaluate, h]

/-- Every failure is truthful: the failure of an expression, that of a JSON value which stands for
one, and that of a program, which is the failure of its first expression without a value, evaluated
in the environment that the expressions before it left behind.  A program shows its failure once,
in the words of the failure. -/
theorem evaluate_fails_truthfully :
    (∀ (limit : Option Nat) (e : Expr) (env : Environment) (failure : Failure),
      (e.evaluate limit env).result = .error failure →
        failure.Truthful limit e env (e.evaluate limit env).env) ∧
    (∀ (limit : Option Nat) (raw : Json) (e : Expr) (env : Environment) (failure : Failure),
      Expr.ofJson raw = .ok e → (raw.evaluate limit env).result = .error failure →
        failure.Truthful limit e env (raw.evaluate limit env).env) ∧
    ∀ (p : Program) (i : Interpreter) (failure : Failure), (p.run i).failure = some failure →
      ∃ before raw later vs log i', p.expressions = before ++ raw :: later ∧
        Succeeds i before vs log i' ∧
        shown "evaluation failed" (p.run i).log =
          [[("index", String.ofList (Nat.toDigits 10 before.length)),
            ("err", failure.message)]] ∧
        ∀ e, Expr.ofJson raw = .ok e →
          failure.Truthful i.limit e i'.env (p.run i).interpreter.env := by
  refine ⟨fun _ _ _ _ => truthful_of_evaluate, ?_, ?_⟩
  · intro limit raw e env failure hread hfailure
    rw [Json.evaluate_of_ofJson hread] at hfailure ⊢
    exact truthful_of_evaluate hfailure
  · rintro ⟨raws⟩ i failure hfailure
    rcases exists_succeeds raws i with
      ⟨vs, log, i', hs⟩ | ⟨before, raw, later, vs, log, i', failure', rfl, hs, hfails⟩
    · rw [Program.run_of_succeeds hs] at hfailure
      cases hfailure
    · obtain ⟨hlimit, hlength⟩ := hs.limit_eq_and_length_eq
      have hshown := Program.shown_failed_run i (before ++ raw :: later)
      rw [Program.run_of_failure hs hfails] at hfailure hshown ⊢
      obtain rfl : failure' = failure := Option.some.inj hfailure
      refine ⟨before, raw, later, vs, log, i', rfl, hs, hlength ▸ hshown, fun e hread => ?_⟩
      rw [Interpreter.evalJson, Json.evaluate_of_ofJson hread] at hfails ⊢
      rw [← hlimit]
      exact truthful_of_evaluate hfails

/-- The sum of `let x y` and `z` fails at `z`, since only `y` has a value.  Neither before nor after
does `z` have one, although `x` has got one.  The same failure ends a program in which the sum comes
second, behind an expression that binds `y`. -/
theorem evaluate_fails_truthfully_at_variable :
    let sum : Expr := .binary .add (.form .letForm [.ident "x", .ident "y"]) (.ident "z")
    let raw : Json := .array
      [.string "+", .array [.string "let", .string "x", .string "y"], .string "z"]
    let p : Program := ⟨[.array [.string "let", .string "y", .string "null"], raw]⟩
    let env : Environment := .ofList [("y", .null)]
    ((sum.evaluate (some 7) env).result = .error (.undefinedVariable "z") ∧
      (∃ depth, (.ident "z", depth) ∈ sum.visited 0) ∧ env.get? "z" = none ∧
      (sum.evaluate (some 7) env).env.get? "z" = none) ∧
    (Expr.ofJson raw = .ok sum ∧
      (raw.evaluate (some 7) env).result = .error (.undefinedVariable "z") ∧
      (raw.evaluate (some 7) env).env.get? "z" = none) ∧
    (p.run .host).failure = some (.undefinedVariable "z") ∧
      ∃ before last later, p.expressions = before ++ last :: later ∧
        shown "evaluation failed" (p.run .host).log =
          [[("index", String.ofList (Nat.toDigits 10 before.length)),
            ("err", "Variable \"" ++ "z" ++ "\" is not defined")]] := by
  intro sum raw p env
  have hread : Expr.ofJson raw = .ok sum := by cbv
  have hresult : (sum.evaluate (some 7) env).result = .error (.undefinedVariable "z") := by
    simp [sum, env, Expr.evaluate_eq, Expr.evaluateAt_binary, Expr.evaluateAt_let,
      Expr.evaluateAt_ident, letShape, entering, depthFailure?, Outcome.andThen, Outcome.after,
      Environment.lookup, Environment.ofList, Environment.get?_define]
  have hraw : (raw.evaluate (some 7) env).result = .error (.undefinedVariable "z") := by
    rw [Json.evaluate_of_ofJson hread, hresult]
  have hrun : (p.run .host).failure = some (.undefinedVariable "z") := by decide +kernel
  obtain ⟨hexpressions, hjson, hprograms⟩ := evaluate_fails_truthfully
  obtain ⟨hvisited, hbefore, hafter, -⟩ := (hexpressions _ _ _ _ hresult).undefined "z" rfl
  obtain ⟨-, -, hafter', -⟩ := (hjson _ _ _ _ _ hread hraw).undefined "z" rfl
  obtain ⟨before, last, later, -, -, -, hsplit, -, hshown, -⟩ := hprograms _ _ _ hrun
  exact ⟨⟨hresult, hvisited, hbefore, hafter⟩, ⟨hread, hraw, hafter'⟩, hrun,
    before, last, later, hsplit, hshown⟩

end LetLang
