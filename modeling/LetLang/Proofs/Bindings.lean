import LetLang.Proofs.Replay

/-!
# Bindings in the tree, in the log and in the environment

The lets that an evaluation may carry out can be read off the expression: they lie on the left and
the right of operators and in the values of other lets, and nowhere else.  `Expr.evaluatedLets`
lists them in the order in which they would be completed, the inner ones before the outer ones.  An
evaluation that fails or runs into the limit completes only some of them, `Expr.completedLets`.

Three views agree at every point where an evaluation can end.  The lets that were completed are the
first ones of the tree, and the log notes exactly these: `Outcome.Completes` puts the two together,
and every evaluation has it (`completes_evaluateAt`).  Since the log tells how the environment
changes, the environment has changed by their definitions and by nothing else.
-/

namespace LetLang

/-! ## The lets of an expression -/

/-- A `let` that binds a variable. -/
structure Binding where
  /-- The variable. -/
  name : String
  /-- The expression whose value it gets. -/
  value : Expr
  /-- The operands behind the value. -/
  ignored : List Expr

/-- The `let` as an expression. -/
def Binding.expr (b : Binding) : Expr :=
  .form .letForm (.ident b.name :: b.value :: b.ignored)

/-- The lets that an evaluation may carry out, from left to right and inner ones before outer
ones. -/
def Expr.evaluatedLets : Expr → List Binding
  | .binary _ l r => l.evaluatedLets ++ r.evaluatedLets
  | .form .letForm (.ident name :: value :: ignored) =>
    value.evaluatedLets ++ [⟨name, value, ignored⟩]
  | _ => []

/-- The lets that an evaluation inside `depth` others completes, each with the value it returned
there.  The right operand of an operator is reached only if the left one has a value. -/
def Expr.completedLets (limit : Option Nat) (depth : Nat) :
    Expr → Environment → List (Binding × Value)
  | .binary _ l r, env =>
    l.completedLets limit (depth + 1) env ++
      match (l.evaluateAt limit (depth + 1) env).result with
      | .ok _ => r.completedLets limit (depth + 1) (l.evaluateAt limit (depth + 1) env).env
      | .error _ => []
  | .form .letForm (.ident name :: value :: ignored), env =>
    value.completedLets limit (depth + 1) env ++
      match ((Binding.mk name value ignored).expr.evaluateAt limit depth env).result with
      | .ok v => [(⟨name, value, ignored⟩, v)]
      | .error _ => []
  | _, _ => []

/-- The variable that a completed `let` has bound, with its value. -/
def Binding.definition (b : Binding × Value) : String × Value := (b.1.name, b.2)

/-- The expression has no lets, so an evaluation completes none. -/
def Expr.BindsNothing (e : Expr) : Prop :=
  e.evaluatedLets = [] ∧ ∀ limit depth env, e.completedLets limit depth env = []

/-- A `let` that is refused binds nothing. -/
lemma Expr.bindsNothing_of_refuse {operands : List Expr} {failure : Failure}
    (hs : letShape operands = .refuse failure) : (Expr.form .letForm operands).BindsNothing := by
  obtain ⟨name, rfl, -⟩ | ⟨target, others, rfl, htarget, -⟩ | ⟨rfl, -⟩ := letShape_eq_refuse hs
  · exact ⟨rfl, fun _ _ _ => rfl⟩
  · cases target with
    | ident name => exact absurd rfl (htarget name)
    | _ => exact ⟨rfl, fun _ _ _ => rfl⟩
  · exact ⟨rfl, fun _ _ _ => rfl⟩

/-- A keyword other than `let` binds nothing. -/
lemma Expr.bindsNothing_of_keyword {k : Keyword} (hk : k ≠ .letForm) (operands : List Expr) :
    (Expr.form k operands).BindsNothing := by
  cases k with
  | letForm => exact absurd rfl hk
  | setForm => exact ⟨rfl, fun _ _ _ => rfl⟩
  | beginForm => exact ⟨rfl, fun _ _ _ => rfl⟩

/-- A statement holds of all expressions if it holds of those that visit no operand and bind
nothing, and passes from the operands of an operator and from the value of a `let` to the whole. -/
@[elab_as_elim]
theorem Expr.induction_on_lets {motive : Expr → Prop}
    (immediate : ∀ e : Expr, e.Immediate → e.BindsNothing → motive e)
    (binary : ∀ op l r, motive l → motive r → motive (.binary op l r))
    (bind : ∀ b : Binding, motive b.value → motive b.expr) (e : Expr) : motive e := by
  induction e using Expr.induction_on_visits with
  | number x =>
    exact immediate _ ⟨fun _ => .ok (.number x), fun _ _ _ => evaluateAt_number _ _ _ x⟩
      ⟨rfl, fun _ _ _ => rfl⟩
  | string s =>
    exact immediate _ ⟨fun _ => .ok (.string s), fun _ _ _ => evaluateAt_string _ _ _ s⟩
      ⟨rfl, fun _ _ _ => rfl⟩
  | ident name =>
    exact immediate _ ⟨fun env => env.lookup name, fun _ _ _ => evaluateAt_ident _ _ _ name⟩
      ⟨rfl, fun _ _ _ => rfl⟩
  | binary op l r ihl ihr => exact binary op l r ihl ihr
  | bind operands name e hs ih =>
    obtain ⟨ignored, rfl⟩ := letShape_eq_bind_iff.mp hs
    exact bind ⟨name, e, ignored⟩ ih
  | refuse operands failure hs =>
    exact immediate _ ⟨fun _ => .error failure, evaluateAt_of_refuse hs⟩ (bindsNothing_of_refuse hs)
  | keyword k operands hk =>
    exact immediate _
      ⟨fun _ => .error (refuseKeyword k), fun _ _ _ => evaluateAt_keyword _ _ _ hk operands⟩
      (bindsNothing_of_keyword hk operands)

/-! ## Definitions in a log -/

/-- Defines variables one after another. -/
def Environment.defineAll (env : Environment) (definitions : List (String × Value)) : Environment :=
  definitions.foldl (fun env d => env.define d.1 d.2) env

/-- The definition that an event notes. -/
def Event.definition? : Event → Option (String × Value)
  | .bind name v => some (name, v)
  | _ => none

/-- The definitions that a log notes. -/
def definitions (log : List Event) : List (String × Value) :=
  log.filterMap Event.definition?

/-- A log notes the definitions of its parts. -/
@[simp] lemma definitions_append (first second : List Event) :
    definitions (first ++ second) = definitions first ++ definitions second :=
  List.filterMap_append

/-- What operators note defines nothing. -/
@[simp] lemma definitions_notes (op : Operator) (a b : Value) :
    definitions (op.notes a b) = [] := by
  unfold Operator.notes
  split
  · split <;> rfl
  · rfl

/-- To replay a log is to carry out the definitions it notes. -/
lemma Environment.replay_eq_defineAll (env : Environment) (log : List Event) :
    env.replay log = env.defineAll (definitions log) := by
  induction log generalizing env with
  | nil => rfl
  | cons ev log ih =>
    have hcons : env.replay (ev :: log) = (ev.effect env).replay log := rfl
    rw [hcons, ih]
    cases ev <;> rfl

/-- The events of a log that say `message`, by the details they show. -/
def shown (message : String) (log : List Event) : List (List (String × String)) :=
  (log.filter fun ev => ev.message? = some message).map Event.details

/-- A log shows what its parts show. -/
@[simp] lemma shown_append (message : String) (first second : List Event) :
    shown message (first ++ second) = shown message first ++ shown message second := by
  unfold shown
  rw [List.filter_append, List.map_append]

/-- The events that say `let` show the definitions that the log notes. -/
lemma shown_let (log : List Event) :
    shown "let" log = (definitions log).map fun d => [("name", d.1), ("value", d.2.text)] := by
  induction log with
  | nil => rfl
  | cons ev log ih =>
    have hev : shown "let" [ev] =
        (definitions [ev]).map fun d => [("name", d.1), ("value", d.2.text)] := by
      cases ev <;> rfl
    rw [← List.singleton_append, shown_append, hev, ih, ← List.map_append, ← definitions_append]

/-! ## The lets that an outcome has completed -/

/-- `o.Completes lets done` says that the outcome has completed `done`, which are the first of
`lets`, and all of them if it has a value. -/
structure Outcome.Completes (o : Outcome) (lets : List Binding) (done : List (Binding × Value)) :
    Prop where
  /-- The log notes exactly what was completed. -/
  noted : definitions o.log = done.map Binding.definition
  /-- The lets are completed in their order. -/
  first : done.map Prod.fst <+: lets
  /-- A value is found only behind all of them. -/
  whole : ∀ v, o.result = .ok v → done.map Prod.fst = lets

namespace Outcome.Completes

/-- The note of a beginning completes nothing. -/
lemma after_enter {o : Outcome} {lets : List Binding} {done : List (Binding × Value)}
    (h : o.Completes lets done) (kind : Expr.Kind) (depth : Nat) :
    (o.after [.enter kind depth]).Completes lets done :=
  ⟨h.noted, h.first, h.whole⟩

/-- A failure in which nothing has been noted but its beginning completes nothing. -/
lemma of_failure (failure : Failure) (env : Environment) (kind : Expr.Kind) (depth : Nat)
    (lets : List Binding) :
    (Outcome.mk (.error failure) env [.enter kind depth]).Completes lets [] :=
  ⟨rfl, List.nil_prefix, fun _ h => nomatch h⟩

/-- What follows a value completes its lets behind the earlier ones. -/
lemma andThen {o : Outcome} {lets lets' : List Binding} {done done' : List (Binding × Value)}
    {next : Value → Environment → Outcome} (h : o.Completes lets done)
    (hnext : ∀ v, o.result = .ok v → (next v o.env).Completes lets' done')
    (hstop : ∀ failure, o.result = .error failure → done' = []) :
    (o.andThen next).Completes (lets ++ lets') (done ++ done') := by
  unfold Outcome.andThen
  cases hr : o.result with
  | error failure =>
    rw [hstop failure hr, List.append_nil]
    exact ⟨h.noted, h.first.trans (List.prefix_append _ _), fun _ h => nomatch h⟩
  | ok v =>
    have hv := hnext v hr
    refine ⟨?_, ?_, ?_⟩
    · simp [Outcome.after, h.noted, hv.noted]
    · rw [List.map_append, h.whole v hr]
      exact (List.prefix_append_right_inj _).mpr hv.first
    · intro w hw
      rw [List.map_append, h.whole v hr, hv.whole w hw]

/-- What follows a value and has no lets completes none. -/
lemma andThen_nothing {o : Outcome} {lets : List Binding} {done : List (Binding × Value)}
    {next : Value → Environment → Outcome} (h : o.Completes lets done)
    (hnext : ∀ v, (next v o.env).Completes [] []) : (o.andThen next).Completes lets done := by
  have happend := h.andThen (fun v _ => hnext v) fun _ _ => rfl
  rwa [List.append_nil, List.append_nil] at happend

end Outcome.Completes

/-! ## Evaluation -/

/-- An expression that lies too deep fails at once. -/
lemma Expr.evaluateAt_of_tooDeep {limit : Option Nat} {depth : Nat} {failure : Failure}
    (h : depthFailure? limit depth = some failure) (e : Expr) (env : Environment) :
    e.evaluateAt limit depth env = ⟨.error failure, env, [.enter e.kind depth]⟩ := by
  rw [evaluateAt, run_visit_of_tooDeep h]
  rfl

/-- What lies below an expression that lies too deep does so as well. -/
lemma depthFailure?_succ {limit : Option Nat} {depth : Nat} {failure : Failure}
    (h : depthFailure? limit depth = some failure) :
    depthFailure? limit (depth + 1) = some failure := by
  obtain ⟨bound, hlimit, hdepth, rfl⟩ := depthFailure?_eq_some_iff.mp h
  exact depthFailure?_eq_some_iff.mpr ⟨bound, hlimit, by omega, rfl⟩

/-- Below an expression that lies too deep nothing is completed. -/
lemma Expr.completedLets_of_tooDeep {limit : Option Nat} {failure : Failure} (e : Expr) :
    ∀ {depth : Nat}, depthFailure? limit depth = some failure →
      ∀ env, e.completedLets limit depth env = [] := by
  induction e using Expr.induction_on_lets with
  | immediate e _ hnothing =>
    intro depth _ env
    exact hnothing.2 limit depth env
  | binary op l r ihl _ =>
    intro depth h env
    have hsucc := depthFailure?_succ h
    rw [completedLets, ihl hsucc, evaluateAt_of_tooDeep hsucc]
    rfl
  | bind b ih =>
    intro depth h env
    have hfail := evaluateAt_of_tooDeep h b.expr env
    unfold Binding.expr at hfail ⊢
    rw [completedLets, ih (depthFailure?_succ h), Binding.expr, hfail]
    rfl

/-- Nothing is completed beyond the limit, so only expressions within it have to be looked at. -/
lemma completes_of_within {limit : Option Nat} {depth : Nat} {e : Expr} {env : Environment}
    (hwithin : Within limit depth →
      (e.evaluateAt limit depth env).Completes e.evaluatedLets (e.completedLets limit depth env)) :
    (e.evaluateAt limit depth env).Completes e.evaluatedLets
      (e.completedLets limit depth env) := by
  cases h : depthFailure? limit depth with
  | none => exact hwithin (depthFailure?_eq_none_iff.mp h)
  | some failure =>
    rw [Expr.evaluateAt_of_tooDeep h, Expr.completedLets_of_tooDeep e h]
    exact .of_failure failure env e.kind depth _

/-- Within the limit a `let` returns the value that it binds. -/
lemma Binding.evaluateAt_result {limit : Option Nat} {depth : Nat} (h : Within limit depth)
    (b : Binding) (env : Environment) :
    (b.expr.evaluateAt limit depth env).result =
      (b.value.evaluateAt limit (depth + 1) env).result := by
  rw [Binding.expr, Expr.evaluateAt_of_bind rfl, entering_of_within h]
  unfold Outcome.after Outcome.andThen
  cases hr : (b.value.evaluateAt limit (depth + 1) env).result <;> rfl

/-- Every evaluation completes the first of the lets of its expression, and all of them if it has a
value. -/
theorem completes_evaluateAt (limit : Option Nat) (e : Expr) :
    ∀ (depth : Nat) (env : Environment),
      (e.evaluateAt limit depth env).Completes e.evaluatedLets
        (e.completedLets limit depth env) := by
  induction e using Expr.induction_on_lets with
  | immediate e he hnothing =>
    intro depth env
    refine completes_of_within fun h => ?_
    obtain ⟨find, hfind⟩ := he
    obtain ⟨hlets, hdone⟩ := hnothing
    rw [hfind, entering_of_within h, hlets, hdone]
    exact ⟨rfl, List.nil_prefix, fun _ _ => rfl⟩
  | binary op l r ihl ihr =>
    intro depth env
    refine completes_of_within fun h => ?_
    rw [Expr.evaluateAt_binary, entering_of_within h, Expr.evaluatedLets, Expr.completedLets]
    refine .after_enter (.andThen (ihl (depth + 1) env) ?_ ?_) _ _
    · intro a ha
      rw [ha]
      refine .andThen_nothing (ihr (depth + 1) _) fun b => ?_
      exact ⟨definitions_notes op a b, List.nil_prefix, fun _ _ => rfl⟩
    · intro failure hfailure
      rw [hfailure]
  | bind b ih =>
    intro depth env
    refine completes_of_within fun h => ?_
    have hresult := b.evaluateAt_result h env
    unfold Binding.expr at hresult ⊢
    rw [Expr.evaluateAt_of_bind rfl, entering_of_within h, Expr.evaluatedLets, Expr.completedLets,
      Binding.expr, hresult]
    refine .after_enter (.andThen (ih (depth + 1) env) ?_ ?_) _ _
    · intro v hv
      rw [hv]
      exact ⟨rfl, List.prefix_refl _, fun _ _ => rfl⟩
    · intro failure hfailure
      rw [hfailure]

/-- Bindings change exactly as the events that say `let` show, however the evaluation ends.  The
environment left behind is the first one with the definitions of the completed lets carried out in
order, and these are what the log shows.  They are the first ones of the lets of the expression, and
all of them if the evaluation has a value; each has bound the value that it returned. -/
theorem evaluate_changes_bindings_as_noted (limit : Option Nat) (e : Expr) (env : Environment) :
    let o := e.evaluate limit env
    let done := e.completedLets limit 0 env
    o.env = env.defineAll (done.map fun b => (b.1.name, b.2)) ∧
    shown "let" o.log = done.map (fun b => [("name", b.1.name), ("value", b.2.text)]) ∧
    done.map Prod.fst <+: e.evaluatedLets ∧
    ∀ v, o.result = .ok v → done.map Prod.fst = e.evaluatedLets := by
  intro o done
  have hcompletes : o.Completes e.evaluatedLets done := completes_evaluateAt limit e 0 env
  refine ⟨?_, ?_, hcompletes.first, hcompletes.whole⟩
  · have hreplays : o.env = env.replay o.log := evaluateAt_replays limit e 0 env
    rw [hreplays, Environment.replay_eq_defineAll, hcompletes.noted]
    rfl
  · rw [shown_let, hcompletes.noted, List.map_map]
    rfl

/-- The sum of `let x (let y "a")` and `let x "b"` has a value, and so all three lets have been
completed, the inner one first.  The second `let x` has the last word. -/
theorem evaluate_changes_bindings_as_noted_nested :
    let sum : Expr := .binary .add
      (.form .letForm [.ident "x", .form .letForm [.ident "y", .string "a"]])
      (.form .letForm [.ident "x", .string "b"])
    let o := sum.evaluate none .empty
    o.result = .ok (.string ("a" ++ "b")) ∧
      (sum.completedLets none 0 .empty).map Prod.fst =
        [⟨"y", .string "a", []⟩, ⟨"x", .form .letForm [.ident "y", .string "a"], []⟩,
          ⟨"x", .string "b", []⟩] ∧
      o.env = ((Environment.empty.define "y" (.string "a")).define "x" (.string "a")).define "x"
        (.string "b") ∧
      o.env.get? "x" = some (.string "b") ∧ o.env.get? "y" = some (.string "a") ∧
      shown "let" o.log = [[("name", "y"), ("value", "a")], [("name", "x"), ("value", "a")],
        [("name", "x"), ("value", "b")]] := by
  intro sum o
  have hresult : o.result = .ok (.string ("a" ++ "b")) := by
    simp [o, sum, Expr.evaluate_eq, Expr.evaluateAt_binary, Expr.evaluateAt_let,
      Expr.evaluateAt_string, letShape, entering, depthFailure?, Outcome.andThen, Outcome.after,
      Operator.apply]
  have hdone : sum.completedLets none 0 .empty =
      [(⟨"y", .string "a", []⟩, .string "a"),
        (⟨"x", .form .letForm [.ident "y", .string "a"], []⟩, .string "a"),
        (⟨"x", .string "b", []⟩, .string "b")] := by
    with_unfolding_all rfl
  obtain ⟨henv, hshown, -, hwhole⟩ := evaluate_changes_bindings_as_noted none sum .empty
  rw [hdone] at henv hshown
  have hleft : o.env = ((Environment.empty.define "y" (.string "a")).define "x"
      (.string "a")).define "x" (.string "b") := henv
  refine ⟨hresult, hwhole _ hresult, hleft, ?_, ?_, hshown⟩
  · rw [hleft, Environment.get?_define, if_pos rfl]
  · rw [hleft]
    simp [Environment.get?_define]

end LetLang
