import LetLang.Proofs.Replay

/-!
# The limit on the depth

A limit never changes what an evaluation does; it only ends it earlier.  The evaluation without a
limit and the one with it are followed side by side.  `Cut limit env free limited` says how they
compare: either nothing in the log of `free` lies too deep and both are the same, or `limited` ends
at the first expression inside `limit` others, with the log up to there and with the definitions
noted in it.

The relation is kept by each way in which an evaluation is put together: notes in front
(`Cut.after`), one outcome after another (`Cut.andThen`) and the beginning of an expression
(`Cut.entering`).  Hence it holds of every expression that itself lies inside at most `limit` others
(`cut_evaluateAt`).
-/

namespace LetLang

/-- The event is not the beginning of an expression inside `limit` or more others. -/
def Event.Shallow (limit : Nat) (ev : Event) : Prop :=
  ∀ kind depth, ev = .enter kind depth → depth < limit

/-- No event of the log is the beginning of an expression inside `limit` or more others. -/
def ShallowLog (limit : Nat) (log : List Event) : Prop :=
  ∀ ev ∈ log, ev.Shallow limit

namespace ShallowLog

variable {limit : Nat}

@[simp] lemma nil : ShallowLog limit [] := by
  simp [ShallowLog]

@[simp] lemma enter_cons {kind : Expr.Kind} {depth : Nat} {log : List Event} :
    ShallowLog limit (.enter kind depth :: log) ↔ depth < limit ∧ ShallowLog limit log := by
  simp [ShallowLog, Event.Shallow]

@[simp] lemma bind_cons {name : String} {v : Value} {log : List Event} :
    ShallowLog limit (.bind name v :: log) ↔ ShallowLog limit log := by
  simp [ShallowLog, Event.Shallow]

@[simp] lemma append {first second : List Event} :
    ShallowLog limit (first ++ second) ↔ ShallowLog limit first ∧ ShallowLog limit second := by
  simp [ShallowLog, or_imp, forall_and]

/-- What operators note is not the beginning of an expression. -/
@[simp] lemma notes (op : Operator) (a b : Value) : ShallowLog limit (op.notes a b) := by
  unfold Operator.notes
  split
  · split <;> simp [ShallowLog, Event.Shallow]
  · exact nil

/-- A log is shallow if all beginnings in it are. -/
lemma iff_enter {log : List Event} :
    ShallowLog limit log ↔ ∀ kind depth, .enter kind depth ∈ log → depth < limit := by
  constructor
  · intro h kind depth hmem
    exact h _ hmem kind depth rfl
  · intro h ev hmem kind depth hev
    subst hev
    exact h kind depth hmem

end ShallowLog

/-- How an outcome without a limit compares with the one that has it, both from `env`. -/
inductive Cut (limit : Nat) (env : Environment) (free : Outcome) : Outcome → Prop
  /-- Nothing lies too deep, and the limit does not show. -/
  | whole (hshallow : ShallowLog limit free.log) : Cut limit env free free
  /-- The evaluation ends at the first expression that lies too deep. -/
  | short {before later : List Event} {kind : Expr.Kind}
      (hlog : free.log = before ++ .enter kind limit :: later)
      (hbefore : ShallowLog limit before) :
      Cut limit env free
        ⟨.error (.tooDeep limit), env.replay before, before ++ [.enter kind limit]⟩

namespace Cut

variable {limit : Nat} {env : Environment}

/-- Notes in front of both outcomes make no difference. -/
lemma after {free limited : Outcome} {log : List Event} (hshallow : ShallowLog limit log)
    (h : Cut limit (env.replay log) free limited) :
    Cut limit env (free.after log) (limited.after log) := by
  cases h with
  | whole hfree => exact .whole (ShallowLog.append.mpr ⟨hshallow, hfree⟩)
  | @short before later kind hlog hbefore =>
    have hlog' : (free.after log).log = (log ++ before) ++ .enter kind limit :: later := by
      simp [Outcome.after, hlog]
    have hbefore' : ShallowLog limit (log ++ before) :=
      ShallowLog.append.mpr ⟨hshallow, hbefore⟩
    have hcut : Cut limit env (free.after log) ⟨.error (.tooDeep limit),
        env.replay (log ++ before), (log ++ before) ++ [.enter kind limit]⟩ :=
      .short hlog' hbefore'
    simpa [Outcome.after] using hcut

/-- What follows an outcome is reached only if nothing before it lies too deep. -/
lemma andThen {free limited : Outcome} {next next' : Value → Environment → Outcome}
    (hfree : free.Replays env) (h : Cut limit env free limited)
    (hnext : ∀ v, Cut limit free.env (next v free.env) (next' v free.env)) :
    Cut limit env (free.andThen next) (limited.andThen next') := by
  cases h with
  | whole hshallow =>
    obtain ⟨failure | v, env₁, log₁⟩ := free
    · exact .whole hshallow
    · have henv : env₁ = env.replay log₁ := hfree
      subst henv
      exact after hshallow (hnext v)
  | @short before later kind hlog hbefore =>
    -- the limited outcome has failed already, so what the free one adds stands behind the cut
    obtain ⟨failure | v, env₁, log₁⟩ := free
    · exact .short hlog hbefore
    · have hlog₁ : log₁ = before ++ .enter kind limit :: later := hlog
      have hlog' : ((next v env₁).after log₁).log =
          before ++ .enter kind limit :: (later ++ (next v env₁).log) := by
        simp [Outcome.after, hlog₁]
      exact .short hlog' hbefore

/-- The beginning of an expression is where a cut may happen. -/
lemma entering {free limited : Outcome} {kind : Expr.Kind} {depth : Nat} (hdepth : depth ≤ limit)
    (h : depth < limit → Cut limit env free limited) :
    Cut limit env (entering none kind depth env free)
      (entering (some limit) kind depth env limited) := by
  rw [entering_of_within (within_none depth)]
  rcases Nat.lt_or_eq_of_le hdepth with hlt | rfl
  · rw [entering_of_within (within_some.mpr hlt)]
    exact after (by simp [hlt]) (h hlt)
  · have htooDeep : depthFailure? (some depth) depth = some (.tooDeep depth) := by
      simp [depthFailure?]
    rw [LetLang.entering, htooDeep]
    have hlog : (free.after [.enter kind depth]).log = [] ++ .enter kind depth :: free.log := rfl
    exact .short hlog ShallowLog.nil

end Cut

/-- The limit cuts the evaluation of every expression that does not itself lie beyond it. -/
theorem cut_evaluateAt (limit : Nat) (e : Expr) : ∀ (depth : Nat) (env : Environment),
    depth ≤ limit →
      Cut limit env (e.evaluateAt none depth env) (e.evaluateAt (some limit) depth env) := by
  induction e using Expr.induction_on_evaluation with
  | immediate e he =>
    intro depth env hdepth
    obtain ⟨find, hfind⟩ := he
    rw [hfind, hfind]
    exact .entering hdepth fun _ => .whole ShallowLog.nil
  | binary op l r ihl ihr =>
    intro depth env hdepth
    rw [Expr.evaluateAt_binary, Expr.evaluateAt_binary]
    refine .entering hdepth fun hlt => ?_
    refine .andThen (evaluateAt_replays none l _ _) (ihl _ env hlt) fun a => ?_
    refine .andThen (evaluateAt_replays none r _ _) (ihr _ _ hlt) fun b => ?_
    exact .whole (ShallowLog.notes op a b)
  | bind operands name e hs ih =>
    intro depth env hdepth
    rw [Expr.evaluateAt_of_bind hs, Expr.evaluateAt_of_bind hs]
    refine .entering hdepth fun hlt => ?_
    refine .andThen (evaluateAt_replays none e _ _) (ih _ env hlt) fun v => ?_
    exact .whole (by simp)

/-- The limit cuts every evaluation. -/
lemma cut_evaluate (limit : Nat) (e : Expr) (env : Environment) :
    Cut limit env (e.evaluate none env) (e.evaluate (some limit) env) :=
  cut_evaluateAt limit e 0 env (Nat.zero_le limit)

/-- Where nothing lies too deep the limit does not show. -/
lemma Cut.eq_of_shallow {limit : Nat} {env : Environment} {free limited : Outcome}
    (h : Cut limit env free limited) (hshallow : ShallowLog limit free.log) : limited = free := by
  cases h with
  | whole _ => rfl
  | short hlog _ => simp [hlog] at hshallow

/-- An outcome that has not run into the limit does not show it. -/
lemma Cut.shallow_of_ne {limit : Nat} {env : Environment} {free limited : Outcome}
    (h : Cut limit env free limited) (hne : limited.result ≠ .error (.tooDeep limit)) :
    ShallowLog limit free.log := by
  cases h with
  | whole hshallow => exact hshallow
  | short _ _ => exact absurd rfl hne

/-- A greater limit leaves more logs shallow. -/
lemma ShallowLog.mono {limit limit' : Nat} {log : List Event} (h : ShallowLog limit log)
    (hle : limit ≤ limit') : ShallowLog limit' log := by
  intro ev hmem kind depth hev
  exact Nat.lt_of_lt_of_le (h ev hmem kind depth hev) hle

/-- A limit only ever cuts an evaluation short.  If no expression inside `limit` or more others is
entered without it, it changes nothing.  Otherwise the evaluation fails, its log is the one without
a limit up to the first such expression, and it leaves behind the environment with just the
definitions noted so far.  Hence an evaluation that has not run into the limit goes the same way
with every greater limit and with none. -/
theorem evaluate_limited (e : Expr) (env : Environment) (limit : Nat) :
    ((∀ kind depth, .enter kind depth ∈ (e.evaluate none env).log → depth < limit) →
      e.evaluate (some limit) env = e.evaluate none env) ∧
    ((∃ kind depth, .enter kind depth ∈ (e.evaluate none env).log ∧ limit ≤ depth) →
      ∃ before kind later,
        (e.evaluate none env).log = before ++ .enter kind limit :: later ∧
        (∀ kind' depth', .enter kind' depth' ∈ before → depth' < limit) ∧
        e.evaluate (some limit) env =
          ⟨.error (.tooDeep limit), env.replay (before ++ [.enter kind limit]),
            before ++ [.enter kind limit]⟩) ∧
    ((e.evaluate (some limit) env).result ≠ .error (.tooDeep limit) →
      e.evaluate none env = e.evaluate (some limit) env ∧
      ∀ limit', limit ≤ limit' → e.evaluate (some limit') env = e.evaluate (some limit) env) := by
  have hcut := cut_evaluate limit e env
  refine ⟨?_, ?_, ?_⟩
  · intro h
    exact hcut.eq_of_shallow (ShallowLog.iff_enter.mpr h)
  · rintro ⟨kind, depth, hmem, hdeep⟩
    generalize e.evaluate (some limit) env = limited at hcut ⊢
    cases hcut with
    | whole hshallow =>
      have hlt := ShallowLog.iff_enter.mp hshallow kind depth hmem
      omega
    | @short before later kind hlog hbefore =>
      refine ⟨before, kind, later, hlog, ShallowLog.iff_enter.mp hbefore, ?_⟩
      simp
  · intro hne
    have hshallow := hcut.shallow_of_ne hne
    have heq := hcut.eq_of_shallow hshallow
    refine ⟨heq.symm, fun limit' hle => ?_⟩
    rw [heq]
    exact (cut_evaluate limit' e env).eq_of_shallow (hshallow.mono hle)

/-- The sum of `let x "a"` and `let y (let z "b")` reaches depth 3 at `"b"`, and there the limit 3
cuts it, after `x` has been bound and before `y` and `z` are. -/
theorem evaluate_limited_sum_of_lets :
    (∃ kind depth, .enter kind depth ∈
      ((Expr.binary .add (.form .letForm [.ident "x", .string "a"])
        (.form .letForm [.ident "y", .form .letForm [.ident "z", .string "b"]])).evaluate none
          .empty).log ∧ 3 ≤ depth) ∧
    ∃ before kind later,
      ((Expr.binary .add (.form .letForm [.ident "x", .string "a"])
        (.form .letForm [.ident "y", .form .letForm [.ident "z", .string "b"]])).evaluate none
          .empty).log = before ++ .enter kind 3 :: later ∧
      (∀ kind' depth', .enter kind' depth' ∈ before → depth' < 3) ∧
      (Expr.binary .add (.form .letForm [.ident "x", .string "a"])
        (.form .letForm [.ident "y", .form .letForm [.ident "z", .string "b"]])).evaluate (some 3)
          .empty = ⟨.error (.tooDeep 3), Environment.empty.replay (before ++ [.enter kind 3]),
            before ++ [.enter kind 3]⟩ := by
  have hdeep : ∃ kind depth, .enter kind depth ∈
      ((Expr.binary .add (.form .letForm [.ident "x", .string "a"])
        (.form .letForm [.ident "y", .form .letForm [.ident "z", .string "b"]])).evaluate none
          .empty).log ∧ 3 ≤ depth := by
    refine ⟨.string, 3, ?_, Nat.le_refl 3⟩
    simp [Expr.evaluate_eq, Expr.evaluateAt_binary, Expr.evaluateAt_let, Expr.evaluateAt_string,
      letShape, entering, depthFailure?, Outcome.andThen, Outcome.after]
  exact ⟨hdeep, (evaluate_limited _ _ _).2.1 hdeep⟩

end LetLang
