import LetLang.Proofs.Derivation
import LetLang.Session

/-!
# Environments in isolation

One interpreter serves many environments, and the requests to them may come in any order.  What a
request comes to depends on nothing but the limit and the environment at its place, and nothing but
that environment changes: `Request.ComesTo` says so, and every ordinary request has it
(`exists_comesTo`).  So no request leaves a trace in another place, whether it succeeds or fails,
and an interpreter has no memory beside its environments.

`Session.serve` answers requests one after another.  Seen from one place it does the same as
`Session.serveAnew`, where every request meets a session that has just been started and knows
nothing but the environment which the request before it left behind (`serve_from_place`).
-/

namespace LetLang

/-! ## Requests to environments that are there -/

/-- The request asks something of the environment at its place.  The others put an environment
there. -/
def Request.Ordinary : Request → Prop
  | .create _ => False
  | .copy _ => False
  | _ => True

/-- An ordinary request and the place it addresses. -/
structure Call where
  /-- The place. -/
  place : Place
  /-- What is asked there. -/
  request : Request
  /-- It is asked of the environment that is there. -/
  ordinary : request.Ordinary

/-- What is given back for a call. -/
structure Reply where
  /-- The place that the call addressed. -/
  place : Place
  /-- The answer. -/
  answer : Answer
  /-- What was noted, in order. -/
  log : List Event

namespace Session

/-- Answers calls one after another. -/
def serve (s : Session) : List Call → Option (List Reply × Session)
  | [] => some ([], s)
  | c :: calls => do
    let (answer, log, s₁) ← s.perform c.place c.request
    let (replies, s₂) ← s₁.serve calls
    return (⟨c.place, answer, log⟩ :: replies, s₂)

/-- There is an environment at each place that the calls address. -/
def Serves (s : Session) (calls : List Call) : Prop :=
  ∀ c ∈ calls, ∃ env, s.env? c.place = some env

/-- A session that has just been started and knows nothing but the environment at one place. -/
def anew (limit : Option Nat) (place : Place) (env : Environment) : Session :=
  (start ⟨limit, .empty⟩).put place env

/-- Answers calls to one place, each in a session of its own; only the environment is handed on from
one to the next. -/
def serveAnew (limit : Option Nat) (place : Place) (env : Environment) :
    List Call → Option (List Reply × Environment)
  | [] => some ([], env)
  | c :: calls => do
    let (answer, log, s) ← (anew limit place env).perform place c.request
    let env₁ ← s.env? place
    let (replies, env₂) ← serveAnew limit place env₁ calls
    return (⟨place, answer, log⟩ :: replies, env₂)

end Session

/-! ## One request -/

/-- Wherever the request meets the environment `env` under this limit, it is answered with `answer`,
notes `log` and leaves `env'` behind, and nothing else in the session changes. -/
def Request.ComesTo (request : Request) (limit : Option Nat) (env : Environment) (answer : Answer)
    (log : List Event) (env' : Environment) : Prop :=
  ∀ (s : Session) (place : Place), s.interpreter.limit = limit → s.env? place = some env →
    s.perform place request = some (answer, log, s.put place env')

namespace Request

variable {limit : Option Nat} {env : Environment}

/-- An evaluation comes to its outcome. -/
lemma comesTo_eval (e : Expr) :
    (eval e).ComesTo limit env (.result (e.evaluate limit env).result) (e.evaluate limit env).log
      (e.evaluate limit env).env := by
  intro s place hlimit henv
  simp only [Session.perform, henv, Session.respond, Session.settle, hlimit]

/-- An untyped evaluation comes to its outcome. -/
lemma comesTo_evalJson (raw : Json) :
    (evalJson raw).ComesTo limit env (.result (raw.evaluate limit env).result)
      (raw.evaluate limit env).log (raw.evaluate limit env).env := by
  intro s place hlimit henv
  simp only [Session.perform, henv, Session.respond, Session.settle, hlimit]

/-- A definition is answered with the value that is stored. -/
lemma comesTo_define (name : String) (v : Value) :
    (define name v).ComesTo limit env (.result (.ok v)) [] (env.define name v) := by
  intro s place _ henv
  simp only [Session.perform, henv, Session.respond]

/-- A request that only looks at the environment leaves it as it was. -/
lemma comesTo_same {request : Request} {answer : Answer}
    (h : ∀ (s : Session) (place : Place), s.respond place env request = some (answer, [], s)) :
    request.ComesTo limit env answer [] env := by
  intro s place _ henv
  rw [Session.put_env henv]
  simp only [Session.perform, henv]
  exact h s place

/-- Every ordinary request comes to something. -/
theorem exists_comesTo {request : Request} (hr : request.Ordinary) (limit : Option Nat)
    (env : Environment) : ∃ answer log env', request.ComesTo limit env answer log env' := by
  cases request with
  | eval e => exact ⟨_, _, _, comesTo_eval e⟩
  | evalJson raw => exact ⟨_, _, _, comesTo_evalJson raw⟩
  | define name v => exact ⟨_, _, _, comesTo_define name v⟩
  | lookup name => exact ⟨_, _, _, comesTo_same fun _ _ => rfl⟩
  | get name => exact ⟨_, _, _, comesTo_same fun _ _ => rfl⟩
  | contains name => exact ⟨_, _, _, comesTo_same fun _ _ => rfl⟩
  | isEmpty => exact ⟨_, _, _, comesTo_same fun _ _ => rfl⟩
  | create new => exact hr.elim
  | copy source => exact hr.elim

end Request

namespace Session

/-! ## One call after another -/

/-- No request takes an environment away, so calls that can be served still can be. -/
lemma Serves.put {s : Session} {calls : List Call} (h : s.Serves calls) (place : Place)
    (env : Environment) : (s.put place env).Serves calls := by
  intro c hc
  rw [env?_put]
  split
  · exact ⟨env, rfl⟩
  · exact h c hc

/-- The first call is answered, and the others are served in the session that it left behind. -/
lemma serve_cons {s : Session} {c : Call} {env env' : Environment} {answer : Answer}
    {log : List Event} (henv : s.env? c.place = some env)
    (hc : c.request.ComesTo s.interpreter.limit env answer log env') (calls : List Call) :
    s.serve (c :: calls) = ((s.put c.place env').serve calls).map fun served =>
      (⟨c.place, answer, log⟩ :: served.1, served.2) := by
  rw [serve, hc s c.place rfl henv]
  simp only [Option.bind_eq_bind, Option.bind_some]
  cases (s.put c.place env').serve calls <;> rfl

/-- The first call is answered, and the environment it left behind is handed on. -/
lemma serveAnew_cons {limit : Option Nat} {place : Place} {c : Call} {env env' : Environment}
    {answer : Answer} {log : List Event} (hc : c.request.ComesTo limit env answer log env')
    (calls : List Call) :
    serveAnew limit place env (c :: calls) = (serveAnew limit place env' calls).map fun served =>
      (⟨place, answer, log⟩ :: served.1, served.2) := by
  have hanew : (anew limit place env).perform place c.request =
      some (answer, log, (anew limit place env).put place env') := by
    refine hc _ place ?_ ?_
    · simp [anew, start]
    · simp [anew, env?_put]
  have hcarried : ((anew limit place env).put place env').env? place = some env' := by
    simp [env?_put]
  rw [serveAnew, hanew]
  simp only [Option.bind_eq_bind, Option.bind_some, hcarried]
  cases serveAnew limit place env' calls <;> rfl

/-- All calls are answered.  Seen from a place, it is as if the calls to other places did not exist
and each call to this place met a session that had just been started. -/
theorem serve_from_place (calls : List Call) : ∀ s : Session, s.Serves calls →
    ∃ replies s', s.serve calls = some (replies, s') ∧
      s'.interpreter.limit = s.interpreter.limit ∧
      replies.map Reply.place = calls.map Call.place ∧
      ∀ place env, s.env? place = some env → ∃ env', s'.env? place = some env' ∧
        serveAnew s.interpreter.limit place env (calls.filter fun c => c.place = place) =
          some (replies.filter fun reply => reply.place = place, env') := by
  induction calls with
  | nil =>
    intro s _
    exact ⟨[], s, rfl, rfl, rfl, fun place env henv => ⟨env, henv, rfl⟩⟩
  | cons c calls ih =>
    intro s h
    obtain ⟨old, hold⟩ := h c List.mem_cons_self
    obtain ⟨answer, log, new, hc⟩ :=
      Request.exists_comesTo c.ordinary s.interpreter.limit old
    have hrest : s.Serves calls := fun d hd => h d (List.mem_cons_of_mem c hd)
    obtain ⟨replies, s', hserve, hlimit, hplaces, hfrom⟩ :=
      ih (s.put c.place new) (hrest.put c.place new)
    rw [limit_put] at hlimit hfrom
    refine ⟨⟨c.place, answer, log⟩ :: replies, s', ?_, hlimit, ?_, ?_⟩
    · rw [serve_cons hold hc, hserve]
      rfl
    · rw [List.map_cons, List.map_cons, hplaces]
    · intro place env henv
      by_cases hplace : c.place = place
      · -- the call is one of this place, and the others go on from what it left there
        subst hplace
        obtain rfl : old = env := Option.some.inj (hold.symm.trans henv)
        obtain ⟨env', henv', hanew⟩ := hfrom c.place new (by simp [env?_put])
        refine ⟨env', henv', ?_⟩
        simp [serveAnew_cons hc, hanew]
      · obtain ⟨env', henv', hanew⟩ := hfrom place env (by simp [env?_put, hplace, henv])
        refine ⟨env', henv', ?_⟩
        simpa [hplace] using hanew

/-- Calls to one place are answered as if each met a session that had just been started. -/
lemma serve_of_one_place {s : Session} {place : Place} {env : Environment} {calls : List Call}
    (henv : s.env? place = some env) (hplace : ∀ c ∈ calls, c.place = place) :
    ∃ replies s' env', s.serve calls = some (replies, s') ∧ s'.env? place = some env' ∧
      serveAnew s.interpreter.limit place env calls = some (replies, env') := by
  have hserves : s.Serves calls := fun c hc => ⟨env, hplace c hc ▸ henv⟩
  obtain ⟨replies, s', hserve, -, hplaces, hfrom⟩ := serve_from_place calls s hserves
  obtain ⟨env', henv', hanew⟩ := hfrom place env henv
  -- neither calls nor replies are filtered away
  have hcalls : calls.filter (fun c => c.place = place) = calls :=
    List.filter_eq_self.mpr fun c hc => decide_eq_true (hplace c hc)
  have hreplies : replies.filter (fun reply => reply.place = place) = replies := by
    rw [List.filter_eq_self]
    intro reply hreply
    have hmem : reply.place ∈ calls.map Call.place := hplaces ▸ List.mem_map_of_mem hreply
    obtain ⟨c, hc, hcplace⟩ := List.mem_map.mp hmem
    exact decide_eq_true (hcplace ▸ hplace c hc)
  rw [hcalls, hreplies] at hanew
  exact ⟨replies, s', env', hserve, henv', hanew⟩

/-- Environments are isolated from one another, and an interpreter keeps nothing beside them.  All
calls are answered, in whatever order they address the environments and however each of them ends,
and the limit stays as it is.  For each place, what its calls are answered with, what they note and
the environment at the end are the same as when only the calls to this place are made, and the same
as when every call meets a session that has just been started with the same limit, to which only
the environment is handed on.  An evaluation does the same in the environment of the interpreter as
in an equal one that has a name. -/
theorem serve_isolates_environments (s : Session) (calls : List Call) (h : s.Serves calls) :
    (∃ replies s', s.serve calls = some (replies, s') ∧
      s'.interpreter.limit = s.interpreter.limit ∧
      ∀ place env, s.env? place = some env →
        let own := calls.filter fun c => c.place = place
        let ownReplies := replies.filter fun reply => reply.place = place
        ∃ env', s'.env? place = some env' ∧
          (∃ alone, s.serve own = some (ownReplies, alone) ∧ alone.env? place = some env') ∧
          serveAnew s.interpreter.limit place env own = some (ownReplies, env')) ∧
    ∀ name, s.env? (some name) = some s.interpreter.env →
      (∀ e, let o := s.interpreter.eval e
        s.perform none (.eval e) = some (.result o.result, o.log, s.put none o.env) ∧
        s.perform (some name) (.eval e) =
          some (.result o.result, o.log, s.put (some name) o.env)) ∧
      ∀ raw, let o := s.interpreter.evalJson raw
        s.perform none (.evalJson raw) = some (.result o.result, o.log, s.put none o.env) ∧
        s.perform (some name) (.evalJson raw) =
          some (.result o.result, o.log, s.put (some name) o.env) := by
  constructor
  · obtain ⟨replies, s', hserve, hlimit, -, hfrom⟩ := serve_from_place calls s h
    refine ⟨replies, s', hserve, hlimit, ?_⟩
    intro place env henv own ownReplies
    obtain ⟨env', henv', hanew⟩ := hfrom place env henv
    refine ⟨env', henv', ?_, hanew⟩
    -- the calls to this place alone come to the same fresh sessions
    have hown : ∀ c ∈ own, c.place = place := fun c hc =>
      of_decide_eq_true (List.mem_filter.mp hc).2
    obtain ⟨replies₁, alone, env₁, hserve₁, henv₁, hanew₁⟩ := serve_of_one_place henv hown
    rw [hanew] at hanew₁
    obtain ⟨hreplies, rfl⟩ := Prod.mk.inj (Option.some.inj hanew₁)
    exact ⟨alone, by rw [hserve₁, ← hreplies], henv₁⟩
  · intro name hname
    constructor
    · intro e o
      exact ⟨Request.comesTo_eval e s none rfl rfl, Request.comesTo_eval e s _ rfl hname⟩
    · intro raw o
      exact ⟨Request.comesTo_evalJson raw s none rfl rfl,
        Request.comesTo_evalJson raw s _ rfl hname⟩

/-- With the limit 1, a `let` in the environment of the interpreter fails at its value.  The
requests to another environment before and after it, which binds the same variable, make no
difference to the calls in the first one. -/
theorem serve_isolates_environments_after_overflow :
    let bindX : Expr := .form .letForm [.ident "x", .string "a"]
    let s : Session := (start ⟨some 1, .empty⟩).put (some "other") .empty
    let first : Call := ⟨none, .eval bindX, trivial⟩
    let last : Call := ⟨none, .evalJson (.string "x"), trivial⟩
    let calls : List Call := [⟨some "other", .define "x" .null, trivial⟩, first,
      ⟨some "other", .eval (.ident "x"), trivial⟩, last]
    s.Serves calls ∧ ∃ replies s', s.serve calls = some (replies, s') ∧
      ∃ env', s'.env? none = some env' ∧
        (∃ alone, s.serve [first, last] =
          some (replies.filter fun reply => reply.place = none, alone) ∧
            alone.env? none = some env') ∧
        serveAnew (some 1) none .empty [first, last] =
          some (replies.filter fun reply => reply.place = none, env') := by
  intro bindX s first last calls
  have hserves : s.Serves calls := by
    simp [Serves, calls, first, last, s, start, env?, put]
  obtain ⟨⟨replies, s', hserve, -, hfrom⟩, -⟩ := serve_isolates_environments s calls hserves
  exact ⟨hserves, replies, s', hserve, hfrom none .empty rfl⟩

end Session

end LetLang
