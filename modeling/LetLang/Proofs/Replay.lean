import LetLang.Proofs.Derivation

/-!
# Environments rebuilt from logs

A log tells how the environment has changed: each note that a variable is about to get a value
stands for one definition, and no other note stands for anything.  `Environment.replay` carries
these definitions out.  An evaluation changes the environment only so, whether it ends with a value,
with a failure or at the limit (`evaluateAt_replays`).
-/

namespace LetLang

/-- What an event does to an environment. -/
def Event.effect (env : Environment) : Event → Environment
  | .bind name v => env.define name v
  | .enter _ _ => env
  | .concatenate _ => env
  | .fail _ _ => env

/-- The environment after the definitions that a log notes, in order. -/
def Environment.replay (env : Environment) (log : List Event) : Environment :=
  log.foldl Event.effect env

namespace Environment

@[simp] lemma replay_nil (env : Environment) : env.replay [] = env := rfl

@[simp] lemma replay_enter (env : Environment) (kind : Expr.Kind) (depth : Nat)
    (log : List Event) : env.replay (.enter kind depth :: log) = env.replay log := rfl

@[simp] lemma replay_bind (env : Environment) (name : String) (v : Value) (log : List Event) :
    env.replay (.bind name v :: log) = (env.define name v).replay log := rfl

/-- A log is replayed part by part. -/
@[simp] lemma replay_append (env : Environment) (first second : List Event) :
    env.replay (first ++ second) = (env.replay first).replay second :=
  List.foldl_append

/-- What operators note changes nothing. -/
@[simp] lemma replay_notes (env : Environment) (op : Operator) (a b : Value) :
    env.replay (op.notes a b) = env := by
  unfold Operator.notes
  split
  · split <;> rfl
  · rfl

end Environment

/-- The environment that an outcome leaves behind is what its log makes of the first one. -/
def Outcome.Replays (o : Outcome) (env : Environment) : Prop :=
  o.env = env.replay o.log

namespace Outcome

/-- What was noted before an outcome has changed the environment before it. -/
lemma Replays.after {o : Outcome} {env : Environment} {log : List Event}
    (ho : o.Replays (env.replay log)) : (o.after log).Replays env := by
  unfold Replays Outcome.after at *
  rw [ho, Environment.replay_append]

/-- Outcomes that follow one another change the environment one after another. -/
lemma Replays.andThen {o : Outcome} {env : Environment} {next : Value → Environment → Outcome}
    (ho : o.Replays env) (hnext : ∀ v, (next v o.env).Replays o.env) :
    (o.andThen next).Replays env := by
  unfold Outcome.andThen
  split
  · exact ho
  · next v hv =>
    refine Replays.after ?_
    rw [← show o.env = env.replay o.log from ho]
    exact hnext v

/-- The note of a beginning changes nothing. -/
lemma Replays.entering {limit : Option Nat} {kind : Expr.Kind} {depth : Nat} {env : Environment}
    {body : Outcome} (hbody : body.Replays env) :
    (entering limit kind depth env body).Replays env := by
  unfold LetLang.entering
  split
  · rfl
  · exact Replays.after hbody

end Outcome

/-- An evaluation changes the environment exactly as its log says, however it ends. -/
theorem evaluateAt_replays (limit : Option Nat) (e : Expr) : ∀ (depth : Nat) (env : Environment),
    (e.evaluateAt limit depth env).Replays env := by
  induction e using Expr.induction_on_evaluation with
  | immediate e he =>
    intro depth env
    obtain ⟨find, hfind⟩ := he
    rw [hfind]
    exact .entering rfl
  | binary op l r ihl ihr =>
    intro depth env
    rw [Expr.evaluateAt_binary]
    refine .entering (.andThen (ihl _ _) fun a => .andThen (ihr _ _) fun b => ?_)
    exact (Environment.replay_notes _ op a b).symm
  | bind operands name e hs ih =>
    intro depth env
    rw [Expr.evaluateAt_of_bind hs]
    exact .entering (.andThen (ih _ _) fun v => rfl)

end LetLang
