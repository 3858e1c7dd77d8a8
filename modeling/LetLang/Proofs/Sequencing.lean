import LetLang.Program
import LetLang.Proofs.Bindings

/-!
# Programs in sequence

A program evaluates its expressions one after another, each in the environment that the one before
it left behind, and stops at the first failure.  `Succeeds` describes the part before the failure:
several expressions that all have values.  Every program is such a part, or such a part and an
expression that fails (`exists_succeeds`); what stands behind that expression is not looked at, so
it makes no difference whether it could be read at all.

Two programs in a row therefore do what the first one does if it fails (`run_append_of_failure`),
and otherwise go on with the second one where the first one ends (`run_append_of_succeeds`).  The
position of a failure is counted from the beginning of the whole program.
-/

namespace LetLang

/-! ## Events of an evaluation -/

namespace Outcome

/-- What one outcome after another notes is noted by one of them. -/
lemma mem_log_andThen {o : Outcome} {next : Value → Environment → Outcome} {ev : Event}
    (h : ev ∈ (o.andThen next).log) : ev ∈ o.log ∨ ∃ v, ev ∈ (next v o.env).log := by
  unfold Outcome.andThen at h
  split at h
  · exact .inl h
  · next v _ =>
    rcases List.mem_append.mp h with hmem | hmem
    · exact .inl hmem
    · exact .inr ⟨v, hmem⟩

/-- An evaluation notes its beginning and what its body notes. -/
lemma mem_log_entering {limit : Option Nat} {kind : Expr.Kind} {depth : Nat} {env : Environment}
    {body : Outcome} {ev : Event} (h : ev ∈ (entering limit kind depth env body).log) :
    ev = .enter kind depth ∨ ev ∈ body.log := by
  unfold entering at h
  split at h
  · exact .inl (List.mem_singleton.mp h)
  · exact List.mem_cons.mp h

end Outcome

/-- The event is the failure of an expression of a program. -/
def Event.isFail : Event → Bool
  | .fail _ _ => true
  | _ => false

/-- What operators note is not a failure. -/
lemma Operator.isFail_of_mem_notes {op : Operator} {a b : Value} {ev : Event}
    (h : ev ∈ op.notes a b) : ev.isFail = false := by
  unfold Operator.notes at h
  split at h
  · split at h
    · cases h
    · obtain rfl := List.mem_singleton.mp h
      rfl
  · cases h

/-- No evaluation notes the failure of an expression of a program, not even one that fails. -/
theorem isFail_of_mem_evaluateAt {limit : Option Nat} (e : Expr) :
    ∀ {depth : Nat} {env : Environment} {ev : Event},
      ev ∈ (e.evaluateAt limit depth env).log → ev.isFail = false := by
  induction e using Expr.induction_on_evaluation with
  | immediate e he =>
    intro depth env ev hev
    obtain ⟨find, hfind⟩ := he
    rw [hfind] at hev
    rcases Outcome.mem_log_entering hev with rfl | hmem
    · rfl
    · cases hmem
  | binary op l r ihl ihr =>
    intro depth env ev hev
    rw [Expr.evaluateAt_binary] at hev
    rcases Outcome.mem_log_entering hev with rfl | hmem
    · rfl
    rcases Outcome.mem_log_andThen hmem with hleft | ⟨a, hmem⟩
    · exact ihl hleft
    rcases Outcome.mem_log_andThen hmem with hright | ⟨b, hnotes⟩
    · exact ihr hright
    · exact Operator.isFail_of_mem_notes hnotes
  | bind operands name e hs ih =>
    intro depth env ev hev
    rw [Expr.evaluateAt_of_bind hs] at hev
    rcases Outcome.mem_log_entering hev with rfl | hmem
    · rfl
    rcases Outcome.mem_log_andThen hmem with hvalue | ⟨v, hbind⟩
    · exact ih hvalue
    · obtain rfl := List.mem_singleton.mp hbind
      rfl

/-- No evaluation of a JSON value notes the failure of an expression of a program. -/
lemma Interpreter.isFail_of_mem_evalJson {i : Interpreter} {raw : Json} {ev : Event}
    (h : ev ∈ (i.evalJson raw).log) : ev.isFail = false := by
  unfold Interpreter.evalJson Json.evaluate at h
  split at h
  · cases h
  · next e _ => exact isFail_of_mem_evaluateAt e h

/-! ## Expressions that all have values -/

/-- `Succeeds i raws vs log i'` says that the expressions `raws`, evaluated one after another by
`i`, have the values `vs`, note `log` and leave the interpreter `i'` behind. -/
inductive Succeeds : Interpreter → List Json → List Value → List Event → Interpreter → Prop
  /-- No expressions have no values. -/
  | nil (i : Interpreter) : Succeeds i [] [] [] i
  /-- The others are evaluated by the interpreter that the first one left behind. -/
  | cons {i i' : Interpreter} {raw : Json} {raws : List Json} {v : Value} {vs : List Value}
      {log : List Event} (h : (i.evalJson raw).result = .ok v)
      (hs : Succeeds (i.after (i.evalJson raw)) raws vs log i') :
      Succeeds i (raw :: raws) (v :: vs) ((i.evalJson raw).log ++ log) i'

/-- Expressions all have values, or there is a first one that fails. -/
theorem exists_succeeds (raws : List Json) : ∀ i : Interpreter,
    (∃ vs log i', Succeeds i raws vs log i') ∨
      ∃ before raw later vs log i' failure, raws = before ++ raw :: later ∧
        Succeeds i before vs log i' ∧ (i'.evalJson raw).result = .error failure := by
  induction raws with
  | nil => exact fun i => .inl ⟨[], [], i, .nil i⟩
  | cons raw raws ih =>
    intro i
    cases hr : (i.evalJson raw).result with
    | error failure => exact .inr ⟨[], raw, raws, [], [], i, failure, rfl, .nil i, hr⟩
    | ok v =>
      rcases ih (i.after (i.evalJson raw)) with
        ⟨vs, log, i', hs⟩ | ⟨before, raw', later, vs, log, i', failure, rfl, hs, hfailure⟩
      · exact .inl ⟨_, _, _, .cons hr hs⟩
      · exact .inr ⟨raw :: before, raw', later, _, _, i', failure, rfl, .cons hr hs, hfailure⟩

namespace Succeeds

/-- If expressions all have values, so have those behind a part of them, by the interpreter that the
part left behind. -/
lemma of_append {i i' i'' : Interpreter} {before rest : List Json} {vs vs' : List Value}
    {log log' : List Event} (h : Succeeds i before vs log i') :
    Succeeds i (before ++ rest) vs' log' i'' →
      ∃ vs₂ log₂, Succeeds i' rest vs₂ log₂ i'' := by
  induction h generalizing vs' log' with
  | nil i => exact fun h' => ⟨vs', log', h'⟩
  | cons _ _ ih =>
    intro h'
    cases h' with
    | cons _ hs' => exact ih hs'

/-- A part that has values is not followed by an expression that fails. -/
lemma length_le_of_prefix {i i' : Interpreter} {before later longer : List Json} {raw : Json}
    {vs vs' : List Value} {log log' : List Event} {failure : Failure} {i'' : Interpreter}
    (h : Succeeds i before vs log i') (hfailure : (i'.evalJson raw).result = .error failure)
    (hinitial : longer <+: before ++ raw :: later) (hlonger : Succeeds i longer vs' log' i'') :
    longer.length ≤ before.length := by
  rcases List.prefix_or_prefix_of_prefix hinitial (List.prefix_append before (raw :: later)) with
    hle | ⟨rest, rfl⟩
  · exact hle.length_le
  · have hrest : rest <+: raw :: later := (List.prefix_append_right_inj before).mp hinitial
    obtain ⟨vs₂, log₂, hs⟩ := h.of_append hlonger
    cases hs with
    | nil _ => simp
    | cons hr _ =>
      obtain ⟨rfl, -⟩ := List.cons_prefix_cons.mp hrest
      rw [hfailure] at hr
      cases hr

end Succeeds

/-! ## Runs of programs -/

/-- What a program does behind values that were found and events that were noted before it. -/
def ProgramOutcome.after (o : ProgramOutcome) (vs : List Value) (log : List Event) :
    ProgramOutcome :=
  ⟨vs ++ o.output, o.failure, o.interpreter, log ++ o.log⟩

/-- The event as it is noted behind `n` expressions. -/
def Event.postpone (n : Nat) : Event → Event
  | .fail index failure => .fail (n + index) failure
  | ev => ev

namespace Program

variable {i i' : Interpreter} {before : List Json} {vs : List Value} {log : List Event}

/-- The first expression fails. -/
lemma runFrom_cons_of_error {raw : Json} {failure : Failure}
    (h : (i.evalJson raw).result = .error failure) (index : Nat) (rest : List Json) :
    runFrom index i (raw :: rest) =
      ⟨[], some failure, i.after (i.evalJson raw),
        (i.evalJson raw).log ++ [.fail index failure]⟩ := by
  simp only [runFrom, h]

/-- The first expression has a value. -/
lemma runFrom_cons_of_ok {raw : Json} {v : Value} (h : (i.evalJson raw).result = .ok v)
    (index : Nat) (rest : List Json) :
    runFrom index i (raw :: rest) =
      (runFrom (index + 1) (i.after (i.evalJson raw)) rest).after [v] (i.evalJson raw).log := by
  simp only [runFrom, h]
  rfl

/-- A program goes on behind expressions that all have values. -/
theorem runFrom_append (h : Succeeds i before vs log i') (rest : List Json) :
    ∀ index, runFrom index i (before ++ rest) =
      (runFrom (index + vs.length) i' rest).after vs log := by
  induction h with
  | nil i => exact fun index => rfl
  | cons hr _ ih =>
    intro index
    rw [List.cons_append, runFrom_cons_of_ok hr, ih, List.length_cons, Nat.add_assoc,
      Nat.add_comm 1]
    simp [ProgramOutcome.after]

/-- The outcome of expressions that all have values. -/
lemma run_of_succeeds (h : Succeeds i before vs log i') :
    run ⟨before⟩ i = ⟨vs, none, i', log⟩ := by
  have hrun := runFrom_append h [] 0
  simpa [run, runFrom, ProgramOutcome.after] using hrun

/-- The outcome of expressions of which one fails; what follows it does not matter. -/
lemma run_of_failure {raw : Json} {failure : Failure} (h : Succeeds i before vs log i')
    (hfailure : (i'.evalJson raw).result = .error failure) (later : List Json) :
    run ⟨before ++ raw :: later⟩ i =
      ⟨vs, some failure, i'.after (i'.evalJson raw),
        log ++ (i'.evalJson raw).log ++ [.fail vs.length failure]⟩ := by
  rw [run, runFrom_append h, runFrom_cons_of_error hfailure]
  simp [ProgramOutcome.after]

/-- Evaluations note nothing that depends on the position in a program. -/
lemma map_postpone_evalJson (n : Nat) (i : Interpreter) (raw : Json) :
    (i.evalJson raw).log.map (Event.postpone n) = (i.evalJson raw).log := by
  have hkeep : ∀ ev ∈ (i.evalJson raw).log, ev.postpone n = ev := by
    intro ev hev
    have hnot := Interpreter.isFail_of_mem_evalJson hev
    cases ev with
    | fail index failure => cases hnot
    | _ => rfl
  exact (List.map_congr_left hkeep).trans (List.map_id _)

/-- A program does the same at every position, but for the position it notes. -/
theorem runFrom_add (n : Nat) (raws : List Json) : ∀ (index : Nat) (i : Interpreter),
    runFrom (n + index) i raws =
      { runFrom index i raws with log := (runFrom index i raws).log.map (Event.postpone n) } := by
  induction raws with
  | nil => exact fun _ _ => rfl
  | cons raw raws ih =>
    intro index i
    have hlog := map_postpone_evalJson n i raw
    cases hr : (i.evalJson raw).result with
    | error failure =>
      rw [runFrom_cons_of_error hr, runFrom_cons_of_error hr, List.map_append, hlog]
      rfl
    | ok v =>
      rw [runFrom_cons_of_ok hr, runFrom_cons_of_ok hr, Nat.add_assoc, ih]
      simp [ProgramOutcome.after, hlog]

/-- A program that ends without a failure consists of expressions that all have values. -/
lemma succeeds_of_run (raws : List Json) (h : (run ⟨raws⟩ i).failure = none) :
    Succeeds i raws (run ⟨raws⟩ i).output (run ⟨raws⟩ i).log (run ⟨raws⟩ i).interpreter := by
  rcases exists_succeeds raws i with
    ⟨vs, log, i', hs⟩ | ⟨before, raw, later, vs, log, i', failure, rfl, hs, hfailure⟩
  · rw [run_of_succeeds hs]
    exact hs
  · rw [run_of_failure hs hfailure] at h
    cases h

/-- No evaluation shows the failure of an expression of a program. -/
lemma shown_failed_evalJson (i : Interpreter) (raw : Json) :
    shown "evaluation failed" (i.evalJson raw).log = [] := by
  unfold shown
  rw [List.map_eq_nil_iff, List.filter_eq_nil_iff]
  intro ev hev
  have hnot := Interpreter.isFail_of_mem_evalJson hev
  cases ev with
  | fail index failure => cases hnot
  | _ => simp [Event.message?]

/-- Expressions that all have values show no failure. -/
lemma shown_failed_of_succeeds (h : Succeeds i before vs log i') :
    shown "evaluation failed" log = [] := by
  induction h with
  | nil i => rfl
  | cons _ _ ih => rw [shown_append, shown_failed_evalJson, ih, List.append_nil]

/-- A program shows its failure, with the number of values before it and its wording. -/
lemma shown_failed_run (i : Interpreter) (raws : List Json) :
    shown "evaluation failed" (run ⟨raws⟩ i).log =
      (run ⟨raws⟩ i).failure.toList.map fun failure =>
        [("index", String.ofList (Nat.toDigits 10 (run ⟨raws⟩ i).output.length)),
          ("err", failure.message)] := by
  rcases exists_succeeds raws i with
    ⟨vs, log, i', hs⟩ | ⟨before, raw, later, vs, log, i', failure, rfl, hs, hfailure⟩
  · rw [run_of_succeeds hs]
    exact shown_failed_of_succeeds hs
  · rw [run_of_failure hs hfailure, shown_append, shown_append, shown_failed_of_succeeds hs,
      shown_failed_evalJson]
    rfl

/-- Two programs in a row: the second one begins where the first one ends. -/
lemma run_append_of_succeeds (h : Succeeds i before vs log i') (ys : List Json) :
    run ⟨before ++ ys⟩ i =
      { run ⟨ys⟩ i' with
        log := (run ⟨ys⟩ i').log.map (Event.postpone vs.length) }.after vs log := by
  rw [run, runFrom_append h, Nat.add_comm, runFrom_add]
  rfl

/-- A program that fails does the same whatever follows it. -/
lemma run_append_of_failure {xs : List Json} (h : (run ⟨xs⟩ i).failure ≠ none) (ys : List Json) :
    run ⟨xs ++ ys⟩ i = run ⟨xs⟩ i := by
  rcases exists_succeeds xs i with
    ⟨vs, log, i', hs⟩ | ⟨before, raw, later, vs, log, i', failure, rfl, hs, hfailure⟩
  · rw [run_of_succeeds hs] at h
    exact absurd rfl h
  · rw [List.append_assoc, List.cons_append, run_of_failure hs hfailure,
      run_of_failure hs hfailure]

/-- A program evaluates its expressions one after another and stops at the first failure.

It emits the values of the longest part in front whose expressions all have values, each evaluated
in the environment that the one before it left behind.  If that part is not everything, the next
expression fails; its failure is that of the program, the environment is the one it left behind, its
log follows the others, and what stands behind it has no effect.  One event tells of the failure,
with the number of values emitted and the wording, and none does otherwise.

Hence two programs in a row do what the first one does if it fails, and otherwise go on with the
second one in the interpreter that the first one left behind. -/
theorem run_sequentially (i : Interpreter) (xs : List Json) :
    (∃ before vs log i', before <+: xs ∧ Succeeds i before vs log i' ∧
      (∀ longer vs' log' i'', longer <+: xs → Succeeds i longer vs' log' i'' →
        longer.length ≤ before.length) ∧
      ((before = xs ∧ run ⟨xs⟩ i = ⟨vs, none, i', log⟩) ∨
        ∃ raw later failure, xs = before ++ raw :: later ∧
          (i'.evalJson raw).result = .error failure ∧
          ∀ later', run ⟨before ++ raw :: later'⟩ i =
            ⟨vs, some failure, i'.after (i'.evalJson raw),
              log ++ (i'.evalJson raw).log ++ [.fail vs.length failure]⟩)) ∧
    shown "evaluation failed" (run ⟨xs⟩ i).log =
      (run ⟨xs⟩ i).failure.toList.map (fun failure =>
        [("index", String.ofList (Nat.toDigits 10 (run ⟨xs⟩ i).output.length)),
          ("err", failure.message)]) ∧
    ∀ ys,
      ((run ⟨xs⟩ i).failure ≠ none → run ⟨xs ++ ys⟩ i = run ⟨xs⟩ i) ∧
      ((run ⟨xs⟩ i).failure = none →
        let first := run ⟨xs⟩ i
        let second := run ⟨ys⟩ first.interpreter
        run ⟨xs ++ ys⟩ i =
          ⟨first.output ++ second.output, second.failure, second.interpreter,
            first.log ++ second.log.map (Event.postpone first.output.length)⟩) := by
  refine ⟨?_, shown_failed_run i xs, ?_⟩
  · rcases exists_succeeds xs i with
      ⟨vs, log, i', hs⟩ | ⟨before, raw, later, vs, log, i', failure, rfl, hs, hfailure⟩
    · refine ⟨xs, vs, log, i', List.prefix_refl xs, hs, ?_, .inl ⟨rfl, run_of_succeeds hs⟩⟩
      intro longer _ _ _ hinitial _
      exact hinitial.length_le
    · refine ⟨before, vs, log, i', List.prefix_append _ _, hs, ?_, .inr ?_⟩
      · intro longer _ _ _ hinitial hlonger
        exact hs.length_le_of_prefix hfailure hinitial hlonger
      · exact ⟨raw, later, failure, rfl, hfailure, run_of_failure hs hfailure⟩
  · intro ys
    refine ⟨fun h => run_append_of_failure h ys, fun h => ?_⟩
    exact run_append_of_succeeds (succeeds_of_run xs h) ys

/-- A program that binds `x` leaves the binding to the one that is run next.  There `x` has its
value and `y` has none, so that the two in a row do the same when something follows that cannot even
be read. -/
theorem run_sequentially_before_null :
    let i : Interpreter := ⟨some 5, .empty⟩
    let xs : List Json := [.array [.string "let", .string "x", .string "\"a\""]]
    let ys : List Json := [.string "x", .string "y"]
    (run ⟨xs⟩ i).failure = none ∧
      (run ⟨xs⟩ i).interpreter.env.get? "x" = some (.string "a") ∧
      (run ⟨xs ++ ys⟩ i).output = [.string "a", .string "a"] ∧
      (run ⟨xs ++ ys⟩ i).failure = some (.undefinedVariable "y") ∧
      shown "evaluation failed" (run ⟨xs ++ ys⟩ i).log =
        [[("index", "2"), ("err", "Variable \"y\" is not defined")]] ∧
      run ⟨xs ++ ys ++ [.null]⟩ i = run ⟨xs ++ ys⟩ i := by
  intro i xs ys
  have hsucceeds : (run ⟨xs⟩ i).failure = none := by with_unfolding_all rfl
  have hbound : (run ⟨xs⟩ i).interpreter.env.get? "x" = some (.string "a") := by
    with_unfolding_all rfl
  have hfirst : (run ⟨xs⟩ i).output = [.string "a"] := by with_unfolding_all rfl
  have hsecond : (run ⟨ys⟩ (run ⟨xs⟩ i).interpreter).output = [.string "a"] := by
    with_unfolding_all rfl
  have hundefined : (run ⟨ys⟩ (run ⟨xs⟩ i).interpreter).failure =
      some (.undefinedVariable "y") := by
    with_unfolding_all rfl
  have hboth := ((run_sequentially i xs).2.2 ys).2 hsucceeds
  obtain ⟨-, hshown, happend⟩ := run_sequentially i (xs ++ ys)
  have houtput : (run ⟨xs ++ ys⟩ i).output = [.string "a", .string "a"] := by
    rw [hboth, hfirst, hsecond]
    rfl
  have hfailure : (run ⟨xs ++ ys⟩ i).failure = some (.undefinedVariable "y") := by
    rw [hboth, hundefined]
  refine ⟨hsucceeds, hbound, houtput, hfailure, ?_, (happend [.null]).1 (by simp [hfailure])⟩
  rw [hshown, hfailure, houtput]
  decide

end Program

end LetLang
