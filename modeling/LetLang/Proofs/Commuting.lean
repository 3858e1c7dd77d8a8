import LetLang.Proofs.Footprint
import LetLang.Proofs.Walk

/-!
# Evaluations that commute

Two expressions are independent if neither writes a name that the other writes or reads.  What each
of them needs is then the same before and after the other one has been evaluated, so each has the
same result and the same log whether it comes first or second (`Expr.Independent.sameRun`).  The
logs tell what is defined, and the names defined by one are not defined by the other.  Definitions
of different names may be carried out in either order (`Environment.defineAll_comm`), and hence the
environments left behind are equal.

Nothing here asks how an evaluation ends.  One that fails has carried out some of its definitions,
and these commute with those of the other as well.
-/

namespace LetLang

/-! ## Independent expressions -/

namespace Expr

/-- The expression writes the name in one of its lets, or reads it where the variable stands in an
evaluated position. -/
def Touches (e : Expr) (x : String) : Prop :=
  x ∈ e.lets ∨ ∃ depth, (.ident x, depth) ∈ e.visited 0

/-- Neither expression touches a name that the other one writes. -/
structure Independent (e₁ e₂ : Expr) : Prop where
  left : ∀ x ∈ e₁.lets, ¬e₂.Touches x
  right : ∀ x ∈ e₂.lets, ¬e₁.Touches x

lemma Independent.symm {e₁ e₂ : Expr} (h : e₁.Independent e₂) : e₂.Independent e₁ :=
  ⟨h.right, h.left⟩

/-- Where a name is read, the variable stands in an evaluated position. -/
lemma exists_mem_visited_of_read {x : String} (e : Expr) : ∀ depth, .read x ∈ e.accesses →
    ∃ depth', (.ident x, depth') ∈ e.visited depth := by
  induction e using Expr.induction_on_accesses with
  | constant e he =>
    intro depth hread
    rw [he.accesses] at hread
    cases hread
  | ident name =>
    intro depth hread
    obtain ⟨⟩ := List.mem_singleton.mp hread
    exact ⟨depth, List.mem_singleton_self _⟩
  | binary op l r ihl ihr =>
    intro depth hread
    rw [accesses, List.mem_append] at hread
    rcases hread with hleft | hright
    · obtain ⟨depth', hmem⟩ := ihl (depth + 1) hleft
      exact ⟨depth', mem_visited_left hmem op r⟩
    · obtain ⟨depth', hmem⟩ := ihr (depth + 1) hright
      exact ⟨depth', mem_visited_right hmem op l⟩
  | bind b ih =>
    intro depth hread
    have haccesses : b.expr.accesses = b.value.accesses ++ [.write b.name] := rfl
    have hvalue : .read x ∈ b.value.accesses := by
      simpa [haccesses] using hread
    obtain ⟨depth', hmem⟩ := ih (depth + 1) hvalue
    exact ⟨depth', mem_visited_value hmem b.name b.ignored⟩

/-- An expression touches what it needs. -/
lemma Needs.touches {e : Expr} {x : String} (h : e.Needs x) : e.Touches x := by
  obtain ⟨before, later, haccesses, -⟩ := h
  have hread : .read x ∈ e.accesses := by simp [haccesses]
  exact .inr (e.exists_mem_visited_of_read 0 hread)

end Expr

/-! ## Definitions of different names -/

namespace Environment

/-- Environments that give every name the same value are equal. -/
lemma ext_get? {A B : Environment} (h : ∀ x, A.get? x = B.get? x) : A = B := by
  obtain ⟨bindings⟩ := A
  obtain ⟨bindings'⟩ := B
  have hbindings : bindings = bindings' := Std.ExtTreeMap.ext_getElem? h
  rw [hbindings]

/-- Definitions may change places with definitions of other names. -/
theorem defineAll_comm {first second : List (String × Value)}
    (h : ∀ x ∈ first.map Prod.fst, x ∉ second.map Prod.fst) (env : Environment) :
    (env.defineAll first).defineAll second = (env.defineAll second).defineAll first := by
  refine ext_get? fun x => ?_
  rw [get?_defineAll, get?_defineAll, get?_defineAll, get?_defineAll]
  by_cases hx : x ∈ first.map Prod.fst
  · rw [lookup_reverse_eq_none_iff.mpr (h x hx), Option.none_or, Option.none_or]
  · rw [lookup_reverse_eq_none_iff.mpr hx, Option.none_or, Option.none_or]

end Environment

/-! ## Two evaluations in either order -/

/-- An evaluation leaves the names that its lets do not write as they were. -/
lemma Expr.get?_evaluate_of_notMem {e : Expr} {x : String} (hx : x ∉ e.lets) (limit : Option Nat)
    (env : Environment) : (e.evaluate limit env).env.get? x = env.get? x := by
  have hnot : x ∉ (definitions (e.evaluate limit env).log).map Prod.fst :=
    fun hmem => hx ((isPrefix_names_definitions limit e 0 env).subset hmem)
  rw [e.evaluate_eq, evaluateAt_env, Environment.get?_defineAll, ← e.evaluate_eq,
    Environment.lookup_reverse_eq_none_iff.mpr hnot, Option.none_or]

namespace Expr.Independent

variable {e₁ e₂ : Expr}

/-- An expression is evaluated behind an independent one as it is without it. -/
lemma sameRun (h : e₁.Independent e₂) (limit : Option Nat) (env : Environment) :
    (e₂.evaluate limit (e₁.evaluate limit env).env).SameRun (e₂.evaluate limit env) := by
  refine sameRun_of_agree limit e₂ 0 _ _ fun x hx => ?_
  exact Expr.get?_evaluate_of_notMem (fun hwritten => h.left x hwritten hx.touches) limit env

/-- Two independent expressions leave the same environment behind in either order. -/
lemma env_eq (h : e₁.Independent e₂) (limit : Option Nat) (env : Environment) :
    (e₂.evaluate limit (e₁.evaluate limit env).env).env =
      (e₁.evaluate limit (e₂.evaluate limit env).env).env := by
  -- whichever comes second, its log is the one that it has in the first environment
  have hlog₂ := (h.sameRun limit env).log
  have hlog₁ := (h.symm.sameRun limit env).log
  have henv : ∀ (e : Expr) (A : Environment),
      (e.evaluate limit A).env = A.defineAll (definitions (e.evaluate limit A).log) :=
    fun e A => evaluateAt_env limit e 0 A
  rw [henv e₂, henv e₁ (e₂.evaluate limit env).env, hlog₁, hlog₂, henv e₁, henv e₂]
  refine Environment.defineAll_comm (fun x hx₁ hx₂ => ?_) env
  have hwritten₁ : x ∈ e₁.lets := (isPrefix_names_definitions limit e₁ 0 env).subset hx₁
  have hwritten₂ : x ∈ e₂.lets := (isPrefix_names_definitions limit e₂ 0 env).subset hx₂
  exact h.left x hwritten₁ (.inl hwritten₂)

end Expr.Independent

/-- Of two environments put at one place the second one stays. -/
lemma Session.put_put (s : Session) (place : Place) (env env' : Environment) :
    (s.put place env).put place env' = s.put place env' := by
  cases place with
  | none => rfl
  | some name =>
    have hnamed : (s.named.insert name env).insert name env' = s.named.insert name env' := by
      refine Std.ExtTreeMap.ext_getElem? fun other => ?_
      simp only [Std.ExtTreeMap.getElem?_insert]
      split <;> rfl
    rw [put, put, put, hnamed]

/-- The call that evaluates an expression at a place. -/
def Call.evaluation (place : Place) (e : Expr) : Call := ⟨place, .eval e, trivial⟩

/-- What a session gives back for two evaluations at one place. -/
lemma Session.serve_two {s : Session} {place : Place} {env : Environment}
    (henv : s.env? place = some env) (e₁ e₂ : Expr) :
    let limit := s.interpreter.limit
    let o₁ := e₁.evaluate limit env
    let o₂ := e₂.evaluate limit o₁.env
    s.serve [.evaluation place e₁, .evaluation place e₂] =
      some ([⟨place, .result o₁.result, o₁.log⟩, ⟨place, .result o₂.result, o₂.log⟩],
        s.put place o₂.env) := by
  intro limit o₁ o₂
  have henv₁ : (s.put place o₁.env).env? place = some o₁.env := by simp [env?_put]
  have hcall₂ : (Request.eval e₂).ComesTo (s.put place o₁.env).interpreter.limit o₁.env
      (.result o₂.result) o₂.log o₂.env := by
    rw [limit_put]
    exact Request.comesTo_eval e₂
  have hfirst := serve_cons (c := .evaluation place e₁) henv (Request.comesTo_eval e₁)
    [.evaluation place e₂]
  have hsecond := serve_cons (c := .evaluation place e₂) henv₁ hcall₂ []
  rw [hfirst]
  simp only [Call.evaluation] at hsecond ⊢
  rw [hsecond, put_put]
  rfl

/-- Independent evaluations commute, under every limit and in every environment, also if one or both
of them fail.  Each expression has the same result and the same log whether it is evaluated before
the other one or behind it, and both orders leave the same environment behind.  To a session the two
orders of the calls make no difference at all: each call gets the same reply, and the session
afterwards is the same. -/
theorem evaluate_commutes (e₁ e₂ : Expr) (h : e₁.Independent e₂) :
    (∀ (limit : Option Nat) (env : Environment),
      let first₁ := e₁.evaluate limit env
      let second₂ := e₂.evaluate limit first₁.env
      let first₂ := e₂.evaluate limit env
      let second₁ := e₁.evaluate limit first₂.env
      first₁.result = second₁.result ∧ first₁.log = second₁.log ∧
      first₂.result = second₂.result ∧ first₂.log = second₂.log ∧
      second₂.env = second₁.env) ∧
    ∀ (s : Session) (place : Place), s.env? place ≠ none →
      ∃ reply₁ reply₂ s',
        s.serve [.evaluation place e₁, .evaluation place e₂] = some ([reply₁, reply₂], s') ∧
        s.serve [.evaluation place e₂, .evaluation place e₁] = some ([reply₂, reply₁], s') := by
  refine ⟨?_, ?_⟩
  · intro limit env first₁ second₂ first₂ second₁
    have hrun₁ : second₁.SameRun first₁ := h.symm.sameRun limit env
    have hrun₂ : second₂.SameRun first₂ := h.sameRun limit env
    exact ⟨hrun₁.result.symm, hrun₁.log.symm, hrun₂.result.symm, hrun₂.log.symm,
      h.env_eq limit env⟩
  · intro s place hplace
    obtain ⟨env, henv⟩ := Option.ne_none_iff_exists'.mp hplace
    have hrun₁ := h.symm.sameRun s.interpreter.limit env
    have hrun₂ := h.sameRun s.interpreter.limit env
    refine ⟨_, _, _, Session.serve_two henv e₁ e₂, ?_⟩
    rw [Session.serve_two henv e₂ e₁, hrun₁.result, hrun₁.log, hrun₂.result, hrun₂.log,
      h.env_eq]

/-- The sum of `let x a` and `z` fails at `z`, and the product of `let y "b"` and `a` fails as well,
since `a` is bound to `null`.  Both read `a`, but only the first writes `x` and only the second
writes `y`; in either order both names are bound afterwards. -/
theorem evaluate_commutes_of_failures :
    let sum : Expr := .binary .add (.form .letForm [.ident "x", .ident "a"]) (.ident "z")
    let product : Expr := .binary .mul (.form .letForm [.ident "y", .string "b"]) (.ident "a")
    let env : Environment := .ofList [("a", .null), ("x", .bool true)]
    let s : Session := .start ⟨none, env⟩
    sum.Independent product ∧
      (sum.evaluate none env).result = .error (.undefinedVariable "z") ∧
      (product.evaluate none env).result = .error (.typeMismatch "*" "string" "null") ∧
      (product.evaluate none (sum.evaluate none env).env).result =
        .error (.typeMismatch "*" "string" "null") ∧
      (product.evaluate none (sum.evaluate none env).env).env =
        (sum.evaluate none (product.evaluate none env).env).env ∧
      s.env? none ≠ none ∧ ∃ reply₁ reply₂ s',
        s.serve [.evaluation none sum, .evaluation none product] = some ([reply₁, reply₂], s') ∧
        s.serve [.evaluation none product, .evaluation none sum] =
          some ([reply₂, reply₁], s') := by
  intro sum product env s
  have hindependent : sum.Independent product := by
    constructor <;>
      simp [sum, product, Expr.lets, Expr.evaluatedLets, Expr.Touches, Expr.visited]
  have hsum : (sum.evaluate none env).result = .error (.undefinedVariable "z") := by
    simp [sum, env, Expr.evaluate_eq, Expr.evaluateAt_binary, Expr.evaluateAt_let,
      Expr.evaluateAt_ident, letShape, entering, depthFailure?, Outcome.andThen, Outcome.after,
      Environment.lookup, Environment.ofList, Environment.get?_define]
  have hproduct : (product.evaluate none env).result =
      .error (.typeMismatch "*" "string" "null") := by
    simp [product, env, Expr.evaluate_eq, Expr.evaluateAt_binary, Expr.evaluateAt_let,
      Expr.evaluateAt_string, Expr.evaluateAt_ident, letShape, entering, depthFailure?,
      Outcome.andThen, Outcome.after, Environment.lookup, Environment.ofList,
      Environment.get?_define, Operator.apply, Operator.symbol, Value.typeName]
  have hplace : s.env? none ≠ none := Option.some_ne_none _
  obtain ⟨hevaluations, hsessions⟩ := evaluate_commutes sum product hindependent
  obtain ⟨-, -, hresult, -, henv⟩ := hevaluations none env
  exact ⟨hindependent, hsum, hproduct, hresult ▸ hproduct, henv, hplace,
    hsessions s none hplace⟩

end LetLang
