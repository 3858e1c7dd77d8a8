import LetLang.Proofs.Derivation

/-!
# The walk of an evaluation

The expressions that an evaluation may enter can be read off the tree.  `Expr.visited` lists them,
each with the number of expressions around it: the expression itself, then what lies below it on the
left and on the right of an operator, or in the value of a `let` that binds a variable.  Nothing
else is ever entered.

Each beginning is noted together with its depth, so a log shows a walk of its own (`spans`).  It
follows the walk of the tree: an evaluation that ends early has gone along the first part of it, and
one that has a value has gone along all of it.  `Outcome.Follows` says this of any outcome and any
path; it is kept when outcomes follow one another, since a later one begins only where the path of
the earlier one has ended (`Outcome.Follows.andThen`).
-/

namespace LetLang

/-! ## The expressions that are visited -/

namespace Expr

/-- The expressions in evaluated positions, in the order in which they are met, each with the number
of expressions around it.  The expression itself lies inside `depth` others. -/
def visited (depth : Nat) : Expr → List (Expr × Nat)
  | .binary op l r => (.binary op l r, depth) :: (l.visited (depth + 1) ++ r.visited (depth + 1))
  | .form .letForm (.ident name :: value :: ignored) =>
    (.form .letForm (.ident name :: value :: ignored), depth) :: value.visited (depth + 1)
  | e => [(e, depth)]

/-- The walk along an expression inside `depth` others: the names of the kinds that are met, each
with its depth. -/
def walk (depth : Nat) (e : Expr) : List (String × Nat) :=
  (e.visited depth).map fun node => (node.1.kind.description, node.2)

/-- An expression is the first that is visited. -/
lemma self_mem_visited (e : Expr) (depth : Nat) : (e, depth) ∈ e.visited depth := by
  unfold visited
  split <;> exact List.mem_cons_self

lemma mem_visited_left {l : Expr} {depth : Nat} {node : Expr × Nat}
    (h : node ∈ l.visited (depth + 1)) (op : Operator) (r : Expr) :
    node ∈ (binary op l r).visited depth := by
  rw [visited]
  exact List.mem_cons_of_mem _ (List.mem_append_left _ h)

lemma mem_visited_right {r : Expr} {depth : Nat} {node : Expr × Nat}
    (h : node ∈ r.visited (depth + 1)) (op : Operator) (l : Expr) :
    node ∈ (binary op l r).visited depth := by
  rw [visited]
  exact List.mem_cons_of_mem _ (List.mem_append_right _ h)

lemma mem_visited_value {value : Expr} {depth : Nat} {node : Expr × Nat}
    (h : node ∈ value.visited (depth + 1)) (name : String) (ignored : List Expr) :
    node ∈ (form .letForm (.ident name :: value :: ignored)).visited depth := by
  rw [visited]
  exact List.mem_cons_of_mem _ h

/-- A `let` that is refused has no operand in an evaluated position. -/
lemma visited_of_refuse {operands : List Expr} {failure : Failure}
    (hs : letShape operands = .refuse failure) (depth : Nat) :
    (form .letForm operands).visited depth = [(form .letForm operands, depth)] := by
  obtain ⟨name, rfl, -⟩ | ⟨target, others, rfl, htarget, -⟩ | ⟨rfl, -⟩ := letShape_eq_refuse hs
  · rfl
  · cases target with
    | ident name => exact absurd rfl (htarget name)
    | _ => rfl
  · rfl

/-- A keyword other than `let` has no operand in an evaluated position. -/
lemma visited_of_keyword {k : Keyword} (hk : k ≠ .letForm) (operands : List Expr) (depth : Nat) :
    (form k operands).visited depth = [(form k operands, depth)] := by
  cases k with
  | letForm => exact absurd rfl hk
  | setForm => rfl
  | beginForm => rfl

@[simp] lemma walk_binary (op : Operator) (l r : Expr) (depth : Nat) :
    (binary op l r).walk depth =
      (Kind.operator.description, depth) :: (l.walk (depth + 1) ++ r.walk (depth + 1)) := by
  rw [walk, visited, List.map_cons, List.map_append]
  rfl

/-- The walk along a `let` that binds goes on along its value. -/
lemma walk_of_bind {operands : List Expr} {name : String} {e : Expr}
    (hs : letShape operands = .bind name e) (depth : Nat) :
    (form .letForm operands).walk depth =
      (Kind.keyword.description, depth) :: e.walk (depth + 1) := by
  obtain ⟨others, rfl⟩ := letShape_eq_bind_iff.mp hs
  rw [walk, visited, List.map_cons]
  rfl

end Expr

/-! ## The beginnings in a log -/

/-- The kind and the depth of the expression whose evaluation begins. -/
def Event.span? : Event → Option (String × Nat)
  | .enter kind depth => some (kind.description, depth)
  | _ => none

/-- The beginnings that a log notes. -/
def spans (log : List Event) : List (String × Nat) :=
  log.filterMap Event.span?

@[simp] lemma spans_enter (kind : Expr.Kind) (depth : Nat) (log : List Event) :
    spans (.enter kind depth :: log) = (kind.description, depth) :: spans log := rfl

@[simp] lemma spans_append (first second : List Event) :
    spans (first ++ second) = spans first ++ spans second :=
  List.filterMap_append

/-- What operators note is not the beginning of an evaluation. -/
@[simp] lemma spans_notes (op : Operator) (a b : Value) : spans (op.notes a b) = [] := by
  unfold Operator.notes
  split
  · split <;> rfl
  · rfl

/-- Every derivable log begins with the beginning of the expression. -/
lemma Evaluates.exists_log_eq {limit : Option Nat} {depth : Nat} {e : Expr}
    {env env' : Environment} {res : Except Failure Value} {log : List Event}
    (h : Evaluates limit depth e env res env' log) :
    ∃ later, log = .enter e.kind depth :: later := by
  cases h <;> exact ⟨_, rfl⟩

/-! ## Outcomes along a path -/

/-- The beginnings that an outcome has noted are the first part of a path, and all of it if the
outcome has a value. -/
structure Outcome.Follows (o : Outcome) (path : List (String × Nat)) : Prop where
  first : spans o.log <+: path
  whole : ∀ v, o.result = .ok v → spans o.log = path

namespace Outcome.Follows

/-- Without any beginning the path is empty. -/
lemma nil {o : Outcome} (h : spans o.log = []) : o.Follows [] :=
  ⟨h ▸ List.prefix_refl [], fun _ _ => h⟩

/-- The path of what follows a value continues the path before it. -/
lemma andThen {o : Outcome} {path path' : List (String × Nat)}
    {next : Value → Environment → Outcome} (h : o.Follows path)
    (hnext : ∀ v, (next v o.env).Follows path') : (o.andThen next).Follows (path ++ path') := by
  unfold Outcome.andThen
  cases hr : o.result with
  | error failure => exact ⟨h.first.trans (List.prefix_append _ _), by simp⟩
  | ok v =>
    -- a value is found at the end of the path only, so nothing of it is left out
    have hspans : spans ((next v o.env).after o.log).log = path ++ spans (next v o.env).log := by
      rw [Outcome.after, spans_append, h.whole v hr]
    refine ⟨?_, fun w hw => ?_⟩
    · rw [hspans]
      exact (List.prefix_append_right_inj path).mpr (hnext v).first
    · rw [hspans, (hnext v).whole w hw]

/-- What follows a value and begins no evaluation leaves the path as it is. -/
lemma andThen_nil {o : Outcome} {path : List (String × Nat)}
    {next : Value → Environment → Outcome} (h : o.Follows path)
    (hnext : ∀ v, spans (next v o.env).log = []) : (o.andThen next).Follows path := by
  have happend := h.andThen fun v => nil (hnext v)
  rwa [List.append_nil] at happend

/-- The path begins with the expression that is entered, also if that lies too deep. -/
lemma entering {body : Outcome} {path : List (String × Nat)} (h : body.Follows path)
    (limit : Option Nat) (kind : Expr.Kind) (depth : Nat) (env : Environment) :
    (entering limit kind depth env body).Follows ((kind.description, depth) :: path) := by
  unfold LetLang.entering
  split
  · exact ⟨List.prefix_append [_] path, by simp⟩
  · refine ⟨?_, fun v hv => ?_⟩
    · exact (List.prefix_append_right_inj [_]).mpr h.first
    · exact congrArg (List.cons _) (h.whole v hv)

end Outcome.Follows

/-- An expression that visits no operand is its own walk. -/
lemma follows_of_immediate {e : Expr} {result : Except Failure Value} {limit : Option Nat}
    {depth : Nat} {env : Environment}
    (hresult : e.evaluateAt limit depth env = entering limit e.kind depth env ⟨result, env, []⟩)
    (hvisited : e.visited depth = [(e, depth)]) :
    (e.evaluateAt limit depth env).Follows (e.walk depth) := by
  have hbody : (Outcome.mk result env []).Follows [] := .nil rfl
  rw [hresult, Expr.walk, hvisited]
  exact hbody.entering limit e.kind depth env

/-- Every evaluation follows the walk along its expression. -/
theorem follows_evaluateAt (limit : Option Nat) (e : Expr) : ∀ (depth : Nat) (env : Environment),
    (e.evaluateAt limit depth env).Follows (e.walk depth) := by
  induction e using Expr.induction_on_visits with
  | number x =>
    intro depth env
    exact follows_of_immediate (Expr.evaluateAt_number ..) rfl
  | string s =>
    intro depth env
    exact follows_of_immediate (Expr.evaluateAt_string ..) rfl
  | ident name =>
    intro depth env
    exact follows_of_immediate (Expr.evaluateAt_ident ..) rfl
  | binary op l r ihl ihr =>
    intro depth env
    rw [Expr.evaluateAt_binary, Expr.walk_binary]
    refine .entering ((ihl (depth + 1) env).andThen fun a => ?_) _ _ _ _
    exact (ihr (depth + 1) _).andThen_nil fun b => spans_notes op a b
  | bind operands name e hs ih =>
    intro depth env
    rw [Expr.evaluateAt_of_bind hs, Expr.walk_of_bind hs]
    exact .entering ((ih (depth + 1) env).andThen_nil fun v => rfl) _ _ _ _
  | refuse operands failure hs =>
    intro depth env
    exact follows_of_immediate (Expr.evaluateAt_of_refuse hs ..) (Expr.visited_of_refuse hs depth)
  | keyword k operands hk =>
    intro depth env
    exact follows_of_immediate (Expr.evaluateAt_keyword _ _ _ hk operands)
      (Expr.visited_of_keyword hk operands depth)

/-- The beginnings that an evaluation notes are the walk along the tree.  In every environment and
under every limit they are a first part of it, which has at least the expression itself, and they
are all of it if the evaluation has a value. -/
theorem evaluate_enters_walk (limit : Option Nat) (e : Expr) (env : Environment) :
    let o := e.evaluate limit env
    spans o.log ≠ [] ∧ spans o.log <+: e.walk 0 ∧
      ∀ v, o.result = .ok v → spans o.log = e.walk 0 := by
  intro o
  have hfollows : o.Follows (e.walk 0) := follows_evaluateAt limit e 0 env
  obtain ⟨later, hlog⟩ := (evaluates_evaluateAt limit e 0 env).exists_log_eq
  have hfirst : spans o.log = (e.kind.description, 0) :: spans later := by
    rw [← spans_enter, ← hlog]
    rfl
  exact ⟨hfirst ▸ List.cons_ne_nil _ _, hfollows.first, hfollows.whole⟩

/-- The difference of `let x (let y "a")` and `x` has a value.  Its right operand is noted at depth
1 again, after the left one has been followed down to depth 3; the operand behind the value of the
inner `let` is not entered. -/
theorem evaluate_enters_walk_of_difference :
    let difference : Expr := .binary .sub
      (.form .letForm [.ident "x", .form .letForm [.ident "y", .string "a", .ident "z"]])
      (.ident "x")
    (difference.evaluate (some 4) .empty).result = .ok (.string ("a" ++ "a")) ∧
      spans (difference.evaluate (some 4) .empty).log =
        [("operator expression", 0), ("keyword expression", 1), ("keyword expression", 2),
          ("string literal", 3), ("variable name", 1)] := by
  intro difference
  have hresult : (difference.evaluate (some 4) .empty).result = .ok (.string ("a" ++ "a")) := by
    simp [difference, Expr.evaluate_eq, Expr.evaluateAt_binary, Expr.evaluateAt_let,
      Expr.evaluateAt_string, Expr.evaluateAt_ident, letShape, entering, depthFailure?,
      Outcome.andThen, Outcome.after, Environment.lookup, Environment.get?_define, Operator.apply]
  exact ⟨hresult, (evaluate_enters_walk (some 4) difference .empty).2.2 _ hresult⟩

end LetLang
