import LetLang.Interpreter

/-!
# Sessions

In a session one interpreter serves its own environment and any number of others that are known by
name.  Each request addresses one of them.
-/

namespace LetLang

/-- An environment of a session: a named one, or that of the interpreter. -/
abbrev Place := Option String

/-- An interpreter and the environments beside its own. -/
structure Session where
  /-- The interpreter. -/
  interpreter : Interpreter
  /-- The environments that have a name. -/
  named : Std.ExtTreeMap String Environment

/-- What can be asked of an environment. -/
inductive Request where
  /-- Evaluate an expression. -/
  | eval (e : Expr)
  /-- Evaluate what a JSON value stands for. -/
  | evalJson (raw : Json)
  /-- Give a variable a value. -/
  | define (name : String) (v : Value)
  /-- Give the value of a variable, which has to have one. -/
  | lookup (name : String)
  /-- Give the value of a variable, if it has one. -/
  | get (name : String)
  /-- Say whether a variable has a value. -/
  | contains (name : String)
  /-- Say whether no variable has a value. -/
  | isEmpty
  /-- Put an environment here. -/
  | create (env : Environment)
  /-- Put a copy of another environment here. -/
  | copy (source : Place)

/-- What a request is answered with. -/
inductive Answer where
  /-- A value, or why there is none. -/
  | result (r : Except Failure Value)
  /-- A value, if there is one. -/
  | value? (v : Option Value)
  /-- Whether something holds. -/
  | truth (b : Bool)
  /-- Nothing but that it is done. -/
  | done

namespace Session

/-- A session that has no named environment. -/
def start (i : Interpreter) : Session := ⟨i, ∅⟩

/-- The environment at a place. -/
def env? (s : Session) : Place → Option Environment
  | none => some s.interpreter.env
  | some name => s.named[name]?

/-- Puts an environment at a place. -/
def put (s : Session) (place : Place) (env : Environment) : Session :=
  match place with
  | none => { s with interpreter := { s.interpreter with env := env } }
  | some name => { s with named := s.named.insert name env }

theorem env?_put (s : Session) (place other : Place) (env : Environment) :
    (s.put place env).env? other = if place = other then some env else s.env? other := by
  cases place <;> cases other <;> simp [put, env?, Std.ExtTreeMap.getElem?_insert]

@[simp] theorem limit_put (s : Session) (place : Place) (env : Environment) :
    (s.put place env).interpreter.limit = s.interpreter.limit := by
  cases place <;> rfl

/-- Putting the environment of a place there again changes nothing. -/
theorem put_env {s : Session} {place : Place} {env : Environment}
    (h : s.env? place = some env) : s.put place env = s := by
  cases place with
  | none =>
    obtain rfl := Option.some.inj h
    rfl
  | some name =>
    have hsame : s.named.insert name env = s.named := by
      refine Std.ExtTreeMap.ext_getElem? ?_
      intro other
      rw [Std.ExtTreeMap.getElem?_insert]
      split
      · next heq =>
        obtain rfl : name = other := by simpa using heq
        exact h.symm
      · rfl
    rw [put, hsame]

/-- The answer to a request that an evaluation settles. -/
def settle (s : Session) (place : Place) (o : Outcome) : Answer × List Event × Session :=
  (.result o.result, o.log, s.put place o.env)

/-- Answers a request that addresses the environment `env` at a place. -/
def respond (s : Session) (place : Place) (env : Environment) :
    Request → Option (Answer × List Event × Session)
  | .eval e => some (s.settle place (e.evaluate s.interpreter.limit env))
  | .evalJson raw => some (s.settle place (raw.evaluate s.interpreter.limit env))
  | .define name v => some (.result (.ok v), [], s.put place (env.define name v))
  | .lookup name => some (.result (env.lookup name), [], s)
  | .get name => some (.value? (env.get? name), [], s)
  | .contains name => some (.truth (env.contains name), [], s)
  | .isEmpty => some (.truth env.isEmpty, [], s)
  | .create new => some (.done, [], s.put place new)
  | .copy source => (s.env? source).map fun old => (.done, [], s.put place old)

/-- Performs a request at a place: the answer, what was noted, and the session afterwards.  Only
`create` and `copy` may address a name that has no environment yet. -/
def perform (s : Session) (place : Place) (request : Request) :
    Option (Answer × List Event × Session) :=
  match s.env? place, request with
  | some env, request => s.respond place env request
  | none, .create env => s.respond place .empty (.create env)
  | none, .copy source => s.respond place .empty (.copy source)
  | none, _ => none

end Session

end LetLang
