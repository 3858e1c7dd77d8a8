import LetLang.Proofs.Bindings
import LetLang.Proofs.Isolation
import Mathlib.Data.Finset.Card

/-!
# The last write wins

An environment is filled by the list it is made from, by definitions and by the lets that
evaluations complete, also by those of evaluations that fail in the end.  `Request.writes` lists
what a request writes, and `writesOf` what calls write one after another.  Each call carries out
its writes and does nothing else to the environment (`Request.comesTo_writes`), so an environment
is what all writes together make of it (`Session.serve_env`).

Writes in a row give each name the value that was written last (`Environment.get?_defineAll`), and
as many names have a value as have ever been written (`Environment.size_defineAll_empty`).
-/

namespace LetLang

/-! ## Writes in a row -/

namespace Environment

@[simp] lemma defineAll_append (env : Environment) (first second : List (String × Value)) :
    env.defineAll (first ++ second) = (env.defineAll first).defineAll second :=
  List.foldl_append

/-- A name has the value that was written last, or the one it had before if none was written. -/
theorem get?_defineAll (writes : List (String × Value)) (x : String) : ∀ env : Environment,
    (env.defineAll writes).get? x = (writes.reverse.lookup x).or (env.get? x) := by
  induction writes with
  | nil => exact fun env => rfl
  | cons w writes ih =>
    intro env
    obtain ⟨name, v⟩ := w
    have hcons : env.defineAll ((name, v) :: writes) = (env.define name v).defineAll writes := rfl
    have hfirst : (env.define name v).get? x = ([(name, v)].lookup x).or (env.get? x) := by
      rw [get?_define, List.lookup_cons]
      by_cases hname : name = x
      · simp [hname]
      · have hne : (x == name) = false := by simpa using Ne.symm hname
        simp [hname, hne]
    rw [hcons, ih, hfirst, List.reverse_cons, List.lookup_append, Option.or_assoc]

/-- Going back through writes, a name is found exactly if it was written. -/
lemma lookup_reverse_eq_none_iff {writes : List (String × Value)} {x : String} :
    writes.reverse.lookup x = none ↔ x ∉ writes.map Prod.fst := by
  rw [List.lookup_eq_none_iff]
  constructor
  · rintro h hmem
    obtain ⟨w, hw, rfl⟩ := List.mem_map.mp hmem
    have hne := h w (List.mem_reverse.mpr hw)
    simp at hne
  · intro h w hw
    have hmem : w.1 ∈ writes.map Prod.fst := List.mem_map_of_mem (List.mem_reverse.mp hw)
    have hne : x ≠ w.1 := fun hx => h (hx ▸ hmem)
    simpa using hne

/-- From nothing, a name gets the value that was written last. -/
lemma get?_defineAll_empty (writes : List (String × Value)) (x : String) :
    (empty.defineAll writes).get? x = writes.reverse.lookup x := by
  rw [get?_defineAll, get?_empty, Option.or_none]

/-- An environment made from a list is what its entries write into an empty one. -/
lemma defineAll_ofList (initial writes : List (String × Value)) :
    (ofList initial).defineAll writes = empty.defineAll (initial ++ writes) := by
  rw [defineAll_append]
  rfl

/-- From nothing, exactly the names that are written get a value. -/
lemma contains_defineAll_empty {writes : List (String × Value)} {x : String} :
    (empty.defineAll writes).contains x = true ↔ x ∈ writes.map Prod.fst := by
  rw [contains_iff, get?_defineAll_empty, ← Option.ne_none_iff_isSome, ne_eq,
    lookup_reverse_eq_none_iff, not_not]

/-- From nothing, as many names get a value as are written. -/
theorem size_defineAll_empty (writes : List (String × Value)) :
    (empty.defineAll writes).size = (writes.map Prod.fst).toFinset.card := by
  induction writes using List.reverseRecOn with
  | nil => rfl
  | append_singleton writes w ih =>
    have hlast : empty.defineAll (writes ++ [w]) = (empty.defineAll writes).define w.1 w.2 := by
      rw [defineAll_append]
      rfl
    have hnames : ((writes ++ [w]).map Prod.fst).toFinset =
        insert w.1 (writes.map Prod.fst).toFinset := by
      simp
    rw [hlast, hnames, size_define, ih]
    by_cases hw : w.1 ∈ writes.map Prod.fst
    · have hmem : w.1 ∈ (writes.map Prod.fst).toFinset := List.mem_toFinset.mpr hw
      rw [if_pos (contains_defineAll_empty.mpr hw), Finset.insert_eq_of_mem hmem]
    · have hnotmem : w.1 ∉ (writes.map Prod.fst).toFinset := fun h => hw (List.mem_toFinset.mp h)
      rw [if_neg (fun h => hw (contains_defineAll_empty.mp h)),
        Finset.card_insert_of_notMem hnotmem]

/-- An environment is empty exactly if it has no variables. -/
lemma isEmpty_iff (env : Environment) : env.isEmpty = true ↔ env.size = 0 := by
  rw [isEmpty, size, Std.ExtTreeMap.isEmpty_eq_size_beq_zero, beq_iff_eq]

/-- The value of a variable that has one is found, also if it is `null`. -/
lemma lookup_eq_ok_iff {env : Environment} {x : String} {v : Value} :
    env.lookup x = .ok v ↔ env.get? x = some v := by
  unfold lookup
  cases env.get? x <;> simp

/-- Only a variable without a value is not found, and the failure names it. -/
lemma lookup_eq_error_iff {env : Environment} {x : String} {failure : Failure} :
    env.lookup x = .error failure ↔ env.get? x = none ∧ failure = .undefinedVariable x := by
  unfold lookup
  cases env.get? x <;> simp [eq_comm]

end Environment

/-! ## What requests write -/

/-- What an evaluation writes: the variables of the lets that it completes, in order. -/
def Expr.writes (limit : Option Nat) (env : Environment) (e : Expr) : List (String × Value) :=
  (e.completedLets limit 0 env).map Binding.definition

/-- What a request writes into the environment at its place, in order. -/
def Request.writes (limit : Option Nat) (env : Environment) : Request → List (String × Value)
  | .define name v => [(name, v)]
  | .eval e => e.writes limit env
  | .evalJson raw =>
    match Expr.ofJson raw with
    | .ok e => e.writes limit env
    | .error _ => []
  | _ => []

/-- What calls to one place write, each in the environment that the writes before it have made. -/
def writesOf (limit : Option Nat) (env : Environment) : List Call → List (String × Value)
  | [] => []
  | c :: calls =>
    c.request.writes limit env ++
      writesOf limit (env.defineAll (c.request.writes limit env)) calls

/-- What calls write is written by one part of them after the other. -/
lemma writesOf_append (limit : Option Nat) (first second : List Call) : ∀ env : Environment,
    writesOf limit env (first ++ second) =
      writesOf limit env first ++
        writesOf limit (env.defineAll (writesOf limit env first)) second := by
  induction first with
  | nil => exact fun env => rfl
  | cons c first ih =>
    intro env
    rw [List.cons_append, writesOf, writesOf, ih, Environment.defineAll_append, List.append_assoc]

/-- What calls have written comes first in what they and later calls write. -/
lemma isPrefix_writesOf (limit : Option Nat) (env : Environment) (earlier later : List Call)
    (place : Place) :
    writesOf limit env (earlier.filter fun c => c.place = place) <+:
      writesOf limit env ((earlier ++ later).filter fun c => c.place = place) := by
  rw [List.filter_append, writesOf_append]
  exact List.prefix_append _ _

/-- The environment left behind is the first one with the definitions carried out that the log
notes. -/
lemma evaluateAt_env (limit : Option Nat) (e : Expr) (depth : Nat) (env : Environment) :
    (e.evaluateAt limit depth env).env =
      env.defineAll (definitions (e.evaluateAt limit depth env).log) := by
  have hreplays := evaluateAt_replays limit e depth env
  rw [Outcome.Replays, Environment.replay_eq_defineAll] at hreplays
  exact hreplays

/-- An evaluation carries out the writes of the lets that it completes and does nothing else to the
environment, however it ends. -/
lemma Expr.evaluate_env (limit : Option Nat) (env : Environment) (e : Expr) :
    (e.evaluate limit env).env = env.defineAll (e.writes limit env) := by
  have hnoted := (completes_evaluateAt limit e 0 env).noted
  rw [Expr.evaluate_eq, evaluateAt_env, hnoted, Expr.writes]

/-- An untyped evaluation carries out the writes of the expression that its value stands for. -/
lemma Json.evaluate_env (limit : Option Nat) (env : Environment) (raw : Json) :
    (raw.evaluate limit env).env = env.defineAll ((Request.evalJson raw).writes limit env) := by
  unfold Json.evaluate
  cases hread : Expr.ofJson raw with
  | error unrecognized => simp only [Request.writes, hread, Environment.defineAll, List.foldl_nil]
  | ok e =>
    simp only [Request.writes, hread]
    exact e.evaluate_env limit env

/-- Every ordinary request carries out its writes and does nothing else to the environment. -/
theorem Request.comesTo_writes {request : Request} (hr : request.Ordinary) (limit : Option Nat)
    (env : Environment) : ∃ answer log,
      request.ComesTo limit env answer log (env.defineAll (request.writes limit env)) := by
  cases request with
  | eval e =>
    have heval : (eval e).ComesTo limit env _ _ _ := comesTo_eval e
    rw [e.evaluate_env limit env] at heval
    exact ⟨_, _, heval⟩
  | evalJson raw =>
    have heval : (evalJson raw).ComesTo limit env _ _ _ := comesTo_evalJson raw
    rw [raw.evaluate_env limit env] at heval
    exact ⟨_, _, heval⟩
  | define name v => exact ⟨_, _, comesTo_define name v⟩
  | lookup name => exact ⟨_, _, comesTo_same fun _ _ => rfl⟩
  | get name => exact ⟨_, _, comesTo_same fun _ _ => rfl⟩
  | contains name => exact ⟨_, _, comesTo_same fun _ _ => rfl⟩
  | isEmpty => exact ⟨_, _, comesTo_same fun _ _ => rfl⟩
  | create new => exact hr.elim
  | copy source => exact hr.elim

namespace Session

/-- Calls to one place carry out their writes there, one after another. -/
lemma serveAnew_env (limit : Option Nat) (place : Place) (calls : List Call) :
    ∀ env : Environment, ∃ replies, serveAnew limit place env calls =
      some (replies, env.defineAll (writesOf limit env calls)) := by
  induction calls with
  | nil => exact fun env => ⟨[], rfl⟩
  | cons c calls ih =>
    intro env
    obtain ⟨answer, log, hc⟩ := Request.comesTo_writes c.ordinary limit env
    obtain ⟨replies, hrest⟩ := ih (env.defineAll (c.request.writes limit env))
    refine ⟨⟨place, answer, log⟩ :: replies, ?_⟩
    rw [serveAnew_cons hc, hrest, writesOf, Environment.defineAll_append]
    rfl

/-- The environment at a place is what the writes of the calls to this place make of it. -/
theorem serve_env {s : Session} {calls : List Call} (h : s.Serves calls) {place : Place}
    {env : Environment} (henv : s.env? place = some env) :
    ∃ replies s', s.serve calls = some (replies, s') ∧
      s'.env? place = some (env.defineAll (writesOf s.interpreter.limit env
        (calls.filter fun c => c.place = place))) := by
  obtain ⟨replies, s', hserve, -, -, hfrom⟩ := serve_from_place calls s h
  obtain ⟨env', henv', hanew⟩ := hfrom place env henv
  obtain ⟨replies', hwrites⟩ :=
    serveAnew_env s.interpreter.limit place (calls.filter fun c => c.place = place) env
  rw [hanew] at hwrites
  obtain ⟨-, rfl⟩ := Prod.mk.inj (Option.some.inj hwrites)
  exact ⟨replies, s', hserve, henv'⟩

/-- A definition stores the value that it is answered with.  It adds a variable exactly if the name
is new, and leaves the values of all other names as they were. -/
lemma perform_define {s : Session} {place : Place} {env : Environment}
    (henv : s.env? place = some env) (x : String) (v : Value) :
    ∃ s' env', s.perform place (.define x v) = some (.result (.ok v), [], s') ∧
      s'.env? place = some env' ∧ env'.get? x = some v ∧
      (env'.size = env.size + 1 ↔ env.get? x = none) ∧
      (env.get? x ≠ none → env'.size = env.size) ∧
      ∀ y, y ≠ x → env'.get? y = env.get? y := by
  have hsize : (env.define x v).size = if env.get? x = none then env.size + 1 else env.size := by
    rw [Environment.size_define, Environment.contains_iff]
    cases env.get? x <;> rfl
  refine ⟨s.put place (env.define x v), env.define x v,
    Request.comesTo_define x v s place rfl henv, by simp [env?_put], ?_, ?_, ?_, ?_⟩
  · simp [Environment.get?_define]
  · rw [hsize]
    split <;> simp_all
  · intro hbound
    rw [hsize, if_neg hbound]
  · intro y hy
    rw [Environment.get?_define, if_neg hy.symm]

/-- An environment is a finite map in which the last write wins, whatever has happened to it.  It
may have been made from any list, and any calls may have followed, to this place and to others.
Its writes are those of the list, of definitions and of the lets that evaluations have completed.

A name has the value that was written last, and none if none was written.  It is found exactly if
it has a value, and otherwise the failure names it.  There are as many variables as names have been
written.  A definition stores the value that it is answered with, adds a variable exactly if the
name is new, and leaves all others as they were.  A variable that has a value at some time has one
ever after. -/
theorem serve_keeps_last_writes (s : Session) (place : Place) (initial : List (String × Value))
    (hinitial : s.env? place = some (.ofList initial)) (calls : List Call) (h : s.Serves calls) :
    ∃ replies s' env, s.serve calls = some (replies, s') ∧ s'.env? place = some env ∧
      let own := calls.filter fun c => c.place = place
      let writes := initial ++ writesOf s.interpreter.limit (.ofList initial) own
      let names := (writes.map Prod.fst).toFinset
      (∀ x, env.get? x = writes.reverse.lookup x) ∧
      (∀ x, env.get? x = none ↔ x ∉ names) ∧
      (∀ x v, env.lookup x = .ok v ↔ env.get? x = some v) ∧
      (∀ x failure, env.lookup x = .error failure ↔
        env.get? x = none ∧ failure = .undefinedVariable x) ∧
      (∀ x, env.contains x = true ↔ ∃ v, env.get? x = some v) ∧
      env.size = names.card ∧ (env.isEmpty = true ↔ names.card = 0) ∧
      (∀ x v, ∃ s₁ env₁, s'.perform place (.define x v) = some (.result (.ok v), [], s₁) ∧
        s₁.env? place = some env₁ ∧ env₁.get? x = some v ∧
        (env₁.size = env.size + 1 ↔ env.get? x = none) ∧
        (env.get? x ≠ none → env₁.size = env.size) ∧
        ∀ y, y ≠ x → env₁.get? y = env.get? y) ∧
      ∀ earlier later, calls = earlier ++ later →
        ∃ replies₀ s₀ env₀, s.serve earlier = some (replies₀, s₀) ∧ s₀.env? place = some env₀ ∧
          ∀ x, env₀.contains x = true → env.contains x = true := by
  obtain ⟨replies, s', hserve, henv⟩ := serve_env h hinitial
  -- the list that the environment was made from is the first part of what was written
  rw [Environment.defineAll_ofList] at henv
  refine ⟨replies, s', _, hserve, henv, ?_⟩
  intro own writes names
  have hsize : (Environment.empty.defineAll writes).size = names.card :=
    Environment.size_defineAll_empty writes
  refine ⟨?_, ?_, fun x v => Environment.lookup_eq_ok_iff,
    fun x failure => Environment.lookup_eq_error_iff, ?_, hsize, ?_, perform_define henv, ?_⟩
  · exact Environment.get?_defineAll_empty writes
  · intro x
    rw [Environment.get?_defineAll_empty, Environment.lookup_reverse_eq_none_iff,
      List.mem_toFinset]
  · intro x
    rw [Environment.contains_iff, Option.isSome_iff_exists]
  · rw [Environment.isEmpty_iff]
    exact hsize ▸ Iff.rfl
  · rintro earlier later rfl
    have hearlier : s.Serves earlier := fun c hc => h c (List.mem_append_left later hc)
    obtain ⟨replies₀, s₀, hserve₀, henv₀⟩ := serve_env hearlier hinitial
    rw [Environment.defineAll_ofList] at henv₀
    refine ⟨replies₀, s₀, _, hserve₀, henv₀, fun x hx => ?_⟩
    have hfirst : initial ++ writesOf s.interpreter.limit (.ofList initial)
        (earlier.filter fun c => c.place = place) <+: writes :=
      (List.prefix_append_right_inj initial).mpr (isPrefix_writesOf _ _ earlier later place)
    rw [Environment.contains_defineAll_empty] at hx ⊢
    exact (hfirst.map Prod.fst).subset hx

/-- The list has two values for `x`, and a definition replaces the last of them.  The sum fails at
`z`, after its first operand has bound `y`. -/
theorem serve_keeps_last_writes_after_failure :
    let initial : List (String × Value) := [("x", .bool true), ("x", .string "a")]
    let sum : Expr := .binary .add (.form .letForm [.ident "y", .string "b"]) (.ident "z")
    let s : Session := start ⟨some 9, .ofList initial⟩
    let calls : List Call := [⟨none, .eval sum, trivial⟩, ⟨none, .define "x" .null, trivial⟩]
    (s.env? none = some (.ofList initial) ∧ s.Serves calls) ∧
      ∃ replies s' env, s.serve calls = some (replies, s') ∧ s'.env? none = some env ∧
        env.get? "x" = some .null ∧ env.get? "y" = some (.string "b") ∧ env.get? "z" = none ∧
        env.size = 2 := by
  intro initial sum s calls
  have hinitial : s.env? none = some (.ofList initial) := rfl
  have hserves : s.Serves calls := by
    simp [Serves, calls, s, start, env?]
  have hwrites : writesOf (some 9) (.ofList initial) (calls.filter fun c => c.place = none) =
      [("y", .string "b"), ("x", .null)] := by
    simp [calls, sum, writesOf, Request.writes, Expr.writes, Expr.completedLets, Binding.expr,
      Expr.evaluateAt_let, Expr.evaluateAt_string, letShape, entering, depthFailure?,
      Outcome.andThen, Outcome.after, Binding.definition]
  obtain ⟨replies, s', env, hserve, henv, hget, -, -, -, -, hsize, -⟩ :=
    serve_keeps_last_writes s none initial hinitial calls hserves
  have hlimit : s.interpreter.limit = some 9 := rfl
  rw [hlimit, hwrites] at hget hsize
  refine ⟨⟨hinitial, hserves⟩, replies, s', env, hserve, henv, ?_, ?_, ?_, ?_⟩
  · rw [hget]
    simp [initial]
  · rw [hget]
    simp [initial, List.lookup_cons]
  · rw [hget]
    simp [initial, List.lookup_cons]
  · rw [hsize]
    decide

end Session

end LetLang
