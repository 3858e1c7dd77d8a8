import LetLang.Proofs.Isolation
import LetLang.Proofs.Sequencing

/-!
# Constants are inherited

No literal stands for `true`, `false` or `null`, and no operator makes one of them.  They are
constants that an environment holds from the start, under whatever names.  An evaluation can hand
them on, also from variable to variable through lets, and it can give the names `true` and `null` to
other values, but it cannot make a constant that was not there.

`Environment.Supplies` says where a constant may come from, and `Inherited` that some part of a
history keeps to this: all values that it gives out and all that it binds on its way.  Every rule of
evaluation keeps to it (`Evaluates.inherited`), hence so do programs (`Program.inherited_runFrom`)
and whatever is done in a session (`Session.actAll_inherited`).
-/

namespace LetLang

/-! ## Where constants may come from -/

/-- The value is `true`, `false` or `null`. -/
def Value.IsConstant : Value → Prop
  | .number _ => False
  | .string _ => False
  | .bool _ => True
  | .null => True

namespace Environment

/-- The value is no constant, or it is the value of a variable in `start`. -/
def Supplies (start : Environment) (v : Value) : Prop :=
  v.IsConstant → ∃ x, start.get? x = some v

/-- All constants among the values of the variables come from `start`. -/
def Inherits (env start : Environment) : Prop :=
  ∀ x v, env.get? x = some v → start.Supplies v

/-- A number is no constant. -/
@[simp] lemma supplies_number (start : Environment) (x : Float) : start.Supplies (.number x) :=
  False.elim

/-- A string is no constant. -/
@[simp] lemma supplies_string (start : Environment) (s : String) : start.Supplies (.string s) :=
  False.elim

/-- An environment has its constants from itself. -/
lemma inherits_self (start : Environment) : start.Inherits start :=
  fun x _ hx _ => ⟨x, hx⟩

/-- Without variables there are no constants. -/
lemma not_isConstant_of_supplies_empty {v : Value} (h : empty.Supplies v) : ¬v.IsConstant := by
  intro hconstant
  obtain ⟨x, hx⟩ := h hconstant
  simp at hx

/-- A variable may get any value that is supplied. -/
lemma Inherits.define {env start : Environment} (h : env.Inherits start) {v : Value}
    (hv : start.Supplies v) (name : String) : (env.define name v).Inherits start := by
  intro x w hx
  rw [get?_define] at hx
  split at hx
  · obtain rfl : v = w := Option.some.inj hx
    exact hv
  · exact h x w hx

/-- An environment still has its constants from the start after a log in which only supplied values
are bound. -/
lemma Inherits.replay {start : Environment} {log : List Event} : ∀ {env : Environment},
    env.Inherits start → (∀ name v, .bind name v ∈ log → start.Supplies v) →
      (env.replay log).Inherits start := by
  induction log with
  | nil => exact fun h _ => h
  | cons ev log ih =>
    intro env h hlog
    have hrest : ∀ name v, .bind name v ∈ log → start.Supplies v :=
      fun name v hmem => hlog name v (List.mem_cons_of_mem ev hmem)
    refine ih ?_ hrest
    match ev with
    | .bind name v => exact h.define (hlog name v List.mem_cons_self) name
    | .enter _ _ => exact h
    | .concatenate _ => exact h
    | .fail _ _ => exact h

end Environment

/-! ## Parts of a history -/

/-- `Inherited start values env env' log` is about a part of a history that leads from `env` to
`env'`, gives out `values` and notes `log`: no constant in it comes from elsewhere than `start`. -/
structure Inherited (start : Environment) (values : List Value) (env env' : Environment)
    (log : List Event) : Prop where
  /-- All values given out are supplied. -/
  given : ∀ v ∈ values, start.Supplies v
  /-- All values bound on the way are supplied. -/
  noted : ∀ name v, .bind name v ∈ log → start.Supplies v
  /-- Nothing is bound but what is noted. -/
  replayed : env' = env.replay log

namespace Inherited

variable {start env env' env'' : Environment} {values values' : List Value} {log log' : List Event}

/-- Values are given out, and nothing else happens. -/
lemma give (h : ∀ v ∈ values, start.Supplies v) (env : Environment) :
    Inherited start values env env [] :=
  ⟨h, fun _ _ hmem => absurd hmem List.not_mem_nil, rfl⟩

/-- Nothing happens. -/
lemma nil (start env : Environment) : Inherited start [] env env [] :=
  give (fun _ hmem => absurd hmem List.not_mem_nil) env

/-- One part of a history follows another. -/
lemma append (h : Inherited start values env env' log)
    (h' : Inherited start values' env' env'' log') :
    Inherited start (values ++ values') env env'' (log ++ log') where
  given v hv := (List.mem_append.mp hv).elim (h.given v) (h'.given v)
  noted name v hv := (List.mem_append.mp hv).elim (h.noted name v) (h'.noted name v)
  replayed := by rw [h'.replayed, h.replayed, Environment.replay_append]

/-- Some of the values need not be looked at. -/
lemma mono (h : Inherited start values env env' log) (hsub : values' ⊆ values) :
    Inherited start values' env env' log :=
  ⟨fun v hv => h.given v (hsub hv), h.noted, h.replayed⟩

/-- The note of a beginning binds nothing. -/
lemma enter (h : Inherited start values env env' log) (kind : Expr.Kind) (depth : Nat) :
    Inherited start values env env' (.enter kind depth :: log) :=
  ⟨h.given, by simpa using h.noted, h.replayed⟩

/-- The environments on the way have their constants from the start. -/
lemma inherits_replay (h : Inherited start values env env' log) (henv : env.Inherits start)
    {part : List Event} (hpart : part <+: log) : (env.replay part).Inherits start :=
  henv.replay fun name v hmem => h.noted name v (hpart.subset hmem)

/-- The environment left behind has its constants from the start. -/
lemma inherits (h : Inherited start values env env' log) (henv : env.Inherits start) :
    env'.Inherits start := by
  rw [h.replayed]
  exact h.inherits_replay henv (List.prefix_refl log)

end Inherited

/-! ## Evaluations -/

/-- No operator makes a constant. -/
lemma Combines.not_isConstant {op : Operator} {a b v : Value} {res : Except Failure Value}
    {noted : List Event} (h : Combines op a b res noted) (hres : res = .ok v) :
    ¬v.IsConstant := by
  cases h
  all_goals cases hres
  all_goals exact id

/-- What operators note binds nothing. -/
lemma Combines.bind_notMem {op : Operator} {a b v : Value} {res : Except Failure Value}
    {noted : List Event} (h : Combines op a b res noted) (name : String) :
    .bind name v ∉ noted := by
  cases h <;> simp

/-- The values that a result gives out: one or none. -/
def resultValues (res : Except Failure Value) : List Value := res.toOption.toList

@[simp] lemma mem_resultValues {res : Except Failure Value} {v : Value} :
    v ∈ resultValues res ↔ res = .ok v := by
  cases res <;> simp [resultValues, Except.toOption, eq_comm]

/-- Each rule keeps to the constants that were there: if the environment has its constants from
`start`, so have the value, all that is bound on the way and the environment left behind. -/
theorem Evaluates.inherited {start : Environment} {limit : Option Nat} {depth : Nat} {e : Expr}
    {env env' : Environment} {res : Except Failure Value} {log : List Event}
    (h : Evaluates limit depth e env res env' log) :
    env.Inherits start → Inherited start (resultValues res) env env' log := by
  -- an expression that visits no operand gives out its value and does nothing else
  have hleaf : ∀ {res : Except Failure Value} {kind : Expr.Kind} {depth : Nat} {env : Environment},
      (∀ v, res = .ok v → start.Supplies v) →
        Inherited start (resultValues res) env env [.enter kind depth] :=
    fun hres => (Inherited.give (fun v hv => hres v (mem_resultValues.mp hv)) _).enter _ _
  induction h with
  | tooDeep _ _ => exact fun _ => hleaf (by simp)
  | number _ => exact fun _ => hleaf (by simp)
  | string _ => exact fun _ => hleaf (by simp)
  | bound _ hv => exact fun henv => hleaf fun v hres => henv _ v (Except.ok.inj hres ▸ hv)
  | unbound _ _ => exact fun _ => hleaf (by simp)
  | binaryLeft _ _ ihl => exact fun henv => (ihl henv).enter _ _
  | binaryRight _ _ _ ihl ihr =>
    intro henv
    have hl := ihl henv
    have hboth := hl.append (ihr (hl.inherits henv))
    exact (hboth.mono (List.subset_append_right _ _)).enter _ _
  | @binary _ _ _ _ _ _ res _ _ env₂ _ _ noted _ _ _ hop ihl ihr =>
    intro henv
    have hl := ihl henv
    have happlied : Inherited start (resultValues res) env₂ env₂ noted := by
      refine ⟨?_, fun name v hv => absurd hv (hop.bind_notMem name), ?_⟩
      · intro v hv hconstant
        exact absurd hconstant (hop.not_isConstant (mem_resultValues.mp hv))
      · rw [← hop.apply_eq.2, Environment.replay_notes]
    have hall := (hl.append (ihr (hl.inherits henv))).append happlied
    exact (hall.mono (List.subset_append_right _ _)).enter _ _
  | letValue _ _ ih => exact fun henv => (ih henv).enter _ _
  | @letBind _ name _ _ v _ env₁ _ _ _ ih =>
    intro henv
    have hv := (ih henv).given v (by simp)
    have hbind : Inherited start [] env₁ (env₁.define name v) [.bind name v] := by
      refine ⟨fun _ hw => absurd hw List.not_mem_nil, fun other w hw => ?_, rfl⟩
      obtain ⟨-, rfl⟩ := Event.bind.inj (List.mem_singleton.mp hw)
      exact hv
    have hboth := (ih henv).append hbind
    exact (hboth.mono (List.subset_append_left _ _)).enter _ _
  | letBare _ | letTarget _ _ | letEmpty _ | setForm _ | beginForm _ =>
    exact fun _ => hleaf (by simp)

/-- An evaluation keeps to the constants that were there. -/
lemma inherited_evaluate {start env : Environment} (henv : env.Inherits start)
    (limit : Option Nat) (e : Expr) :
    Inherited start (resultValues (e.evaluate limit env).result) env (e.evaluate limit env).env
      (e.evaluate limit env).log :=
  (evaluates_evaluateAt limit e 0 env).inherited henv

/-- So does the evaluation of a JSON value, whether or not it can be read. -/
lemma inherited_evaluateJson {start env : Environment} (henv : env.Inherits start)
    (limit : Option Nat) (raw : Json) :
    Inherited start (resultValues (raw.evaluate limit env).result) env
      (raw.evaluate limit env).env (raw.evaluate limit env).log := by
  unfold Json.evaluate
  split
  · exact Inherited.nil start env
  · next e _ => exact inherited_evaluate henv limit e

/-- Of the rules for operators only one ends with a value, and that is no constant. -/
lemma Evaluates.not_isConstant {limit : Option Nat} {depth : Nat} {op : Operator} {l r : Expr}
    {env env' : Environment} {v : Value} {log : List Event}
    (h : Evaluates limit depth (.binary op l r) env (.ok v) env' log) : ¬v.IsConstant := by
  rcases h with _ | _ | _ | _ | _ | _ | _ | ⟨_, _, _, hop⟩
  exact hop.not_isConstant rfl

/-- An operator at any depth of an expression gives no constant. -/
lemma Expr.evaluateAt_binary_not_isConstant {limit : Option Nat} {depth : Nat} {op : Operator}
    {l r : Expr} {env : Environment} {v : Value}
    (h : ((Expr.binary op l r).evaluateAt limit depth env).result = .ok v) : ¬v.IsConstant := by
  have hderived := evaluates_evaluateAt limit (.binary op l r) depth env
  rw [h] at hderived
  exact hderived.not_isConstant

/-! ## Programs -/

/-- A program keeps to the constants that were there, wherever it stops. -/
theorem Program.inherited_runFrom {start : Environment} (raws : List Json) :
    ∀ (index : Nat) (i : Interpreter), i.env.Inherits start →
      Inherited start (runFrom index i raws).output i.env (runFrom index i raws).interpreter.env
        (runFrom index i raws).log := by
  induction raws with
  | nil => exact fun index i _ => Inherited.nil start i.env
  | cons raw raws ih =>
    intro index i henv
    have hfirst := inherited_evaluateJson henv i.limit raw
    cases hr : (i.evalJson raw).result with
    | error failure =>
      have hfail : Inherited start [] (i.evalJson raw).env (i.evalJson raw).env
          [.fail index failure] :=
        ⟨fun _ hv => absurd hv List.not_mem_nil, by simp, rfl⟩
      rw [runFrom_cons_of_error hr]
      exact (hfirst.append hfail).mono (List.nil_subset _)
    | ok v =>
      have hvalue : resultValues (raw.evaluate i.limit i.env).result = [v] := by
        have hresult : (raw.evaluate i.limit i.env).result = .ok v := hr
        rw [hresult]
        rfl
      rw [hvalue] at hfirst
      rw [runFrom_cons_of_ok hr]
      exact hfirst.append (ih (index + 1) (i.after (i.evalJson raw)) (hfirst.inherits henv))

/-! ## Sessions -/

/-- Something to be evaluated in a session. -/
inductive Activity where
  /-- An expression, in the environment at a place. -/
  | eval (place : Place) (e : Expr)
  /-- What a JSON value stands for, in the environment at a place. -/
  | evalJson (place : Place) (raw : Json)
  /-- A program, in the environment of the interpreter. -/
  | run (p : Program)

/-- The place of the environment that is used. -/
def Activity.place : Activity → Place
  | .eval place _ => place
  | .evalJson place _ => place
  | .run _ => none

/-- What is known of something that was evaluated. -/
structure Record where
  /-- The place of the environment that was used. -/
  place : Place
  /-- The values that were returned or emitted. -/
  values : List Value
  /-- What was noted, in order. -/
  log : List Event

/-- The value that an answer gives out, if it does. -/
def Answer.values : Answer → List Value
  | .result res => resultValues res
  | .value? v => v.toList
  | .truth _ => []
  | .done => []

namespace Session

/-- Evaluates something by a request, or by running a program. -/
def act (s : Session) : Activity → Option (Record × Session)
  | .eval place e => (s.perform place (.eval e)).map fun (answer, log, s') =>
    (⟨place, answer.values, log⟩, s')
  | .evalJson place raw => (s.perform place (.evalJson raw)).map fun (answer, log, s') =>
    (⟨place, answer.values, log⟩, s')
  | .run p =>
    let o := p.run s.interpreter
    some (⟨none, o.output, o.log⟩, { s with interpreter := o.interpreter })

/-- Evaluates one thing after another. -/
def actAll (s : Session) : List Activity → Option (List Record × Session)
  | [] => some ([], s)
  | a :: activities => do
    let (record, s₁) ← s.act a
    let (records, s₂) ← s₁.actAll activities
    return (record :: records, s₂)

/-- There is an environment at each place that is used. -/
def Admits (s : Session) (activities : List Activity) : Prop :=
  ∀ a ∈ activities, ∃ env, s.env? a.place = some env

/-- One activity changes the environment at its place and no other one, and keeps to the constants
that were there. -/
lemma act_inherited {s : Session} {a : Activity} {env : Environment}
    (henv : s.env? a.place = some env) :
    ∃ record s' env', s.act a = some (record, s') ∧ record.place = a.place ∧
      (∀ place, s'.env? place = if a.place = place then some env' else s.env? place) ∧
      ∀ start, env.Inherits start → Inherited start record.values env env' record.log := by
  match a, henv with
  | .eval place e, henv =>
    have hact : s.act (.eval place e) = some (⟨place, _, _⟩, _) :=
      congrArg (Option.map _) (Request.comesTo_eval e s place rfl henv)
    exact ⟨_, _, _, hact, rfl, fun other => env?_put s place other _,
      fun start hstart => inherited_evaluate hstart s.interpreter.limit e⟩
  | .evalJson place raw, henv =>
    have hact : s.act (.evalJson place raw) = some (⟨place, _, _⟩, _) :=
      congrArg (Option.map _) (Request.comesTo_evalJson raw s place rfl henv)
    exact ⟨_, _, _, hact, rfl, fun other => env?_put s place other _,
      fun start hstart => inherited_evaluateJson hstart s.interpreter.limit raw⟩
  | .run p, henv =>
    obtain rfl : s.interpreter.env = env := Option.some.inj henv
    refine ⟨_, _, (p.run s.interpreter).interpreter.env, rfl, rfl, ?_,
      fun start hstart => Program.inherited_runFrom p.expressions 0 s.interpreter hstart⟩
    rintro (_ | name) <;> rfl

/-- Whatever is done in a session, the history of each environment keeps to the constants that were
there. -/
theorem actAll_inherited (activities : List Activity) : ∀ s : Session, s.Admits activities →
    ∃ records s', s.actAll activities = some (records, s') ∧
      ∀ place env start, s.env? place = some env → env.Inherits start →
        let own := records.filter fun record => record.place = place
        ∃ env', s'.env? place = some env' ∧
          Inherited start (own.flatMap Record.values) env env' (own.flatMap Record.log) := by
  induction activities with
  | nil => exact fun s _ => ⟨[], s, rfl, fun _ env start henv _ => ⟨env, henv, .nil start env⟩⟩
  | cons a activities ih =>
    intro s h
    obtain ⟨old, hold⟩ := h a List.mem_cons_self
    obtain ⟨record, s₁, new, hact, hplace, henvs, hrecord⟩ := act_inherited hold
    have hrest : s₁.Admits activities := by
      intro b hb
      rw [henvs]
      split
      · exact ⟨new, rfl⟩
      · exact h b (List.mem_cons_of_mem a hb)
    obtain ⟨records, s', hacts, hfrom⟩ := ih s₁ hrest
    refine ⟨record :: records, s', ?_, ?_⟩
    · simp only [actAll, hact, hacts, Option.bind_eq_bind, Option.bind_some]
      rfl
    · intro place env start henv hstart own
      by_cases hown : a.place = place
      · -- this place goes on from what the first activity left there
        subst hown
        obtain rfl : old = env := Option.some.inj (hold.symm.trans henv)
        have hfirst := hrecord start hstart
        obtain ⟨env', henv', hothers⟩ :=
          hfrom a.place new start (by rw [henvs, if_pos rfl]) (hfirst.inherits hstart)
        refine ⟨env', henv', ?_⟩
        simpa [own, hplace] using hfirst.append hothers
      · obtain ⟨env', henv', hothers⟩ :=
          hfrom place env start (by rw [henvs, if_neg hown, henv]) hstart
        refine ⟨env', henv', ?_⟩
        simpa [own, hplace, hown] using hothers

/-- Constants are never made.  Whatever is evaluated in a session, expressions, JSON values and
programs, in whatever order and however each of them ends, consider an environment and its part in
the history.  Every value `true`, `false` or `null` that is returned or emitted was the value of
some variable in this environment at the start.  The same holds of every value that is bound at any
time: the environments on the way are what initial parts of the log make of the first one, and the
last of them is the environment at the end.

In particular no operator, at whatever depth, gives a constant, and an environment that was empty at
the start never gives or holds one. -/
theorem actAll_inherits_constants (s : Session) (activities : List Activity)
    (h : s.Admits activities) :
    (∃ records s', s.actAll activities = some (records, s') ∧
      ∀ place start, s.env? place = some start →
        let own := records.filter fun record => record.place = place
        let log := own.flatMap Record.log
        (∀ record ∈ own, ∀ v ∈ record.values, v.IsConstant → ∃ y, start.get? y = some v) ∧
        (∀ part, part <+: log → ∀ x v, (start.replay part).get? x = some v →
          v.IsConstant → ∃ y, start.get? y = some v) ∧
        s'.env? place = some (start.replay log) ∧
        (start = .empty →
          (∀ record ∈ own, ∀ v ∈ record.values, ¬v.IsConstant) ∧
          ∀ part, part <+: log → ∀ x v, (start.replay part).get? x = some v →
            ¬v.IsConstant)) ∧
    ∀ (limit : Option Nat) (depth : Nat) (op : Operator) (l r : Expr) (env : Environment)
      (v : Value), ((Expr.binary op l r).evaluateAt limit depth env).result = .ok v →
        ¬v.IsConstant := by
  refine ⟨?_, fun _ _ _ _ _ _ _ => Expr.evaluateAt_binary_not_isConstant⟩
  obtain ⟨records, s', hacts, hfrom⟩ := actAll_inherited activities s h
  refine ⟨records, s', hacts, ?_⟩
  intro place start hstart own log
  obtain ⟨env', henv', hown⟩ := hfrom place start start hstart start.inherits_self
  have hgiven : ∀ record ∈ own, ∀ v ∈ record.values, start.Supplies v :=
    fun record hrecord v hv => hown.given v (List.mem_flatMap.mpr ⟨record, hrecord, hv⟩)
  have hbound : ∀ part, part <+: log → (start.replay part).Inherits start :=
    fun part hpart => hown.inherits_replay start.inherits_self hpart
  refine ⟨hgiven, hbound, hown.replayed ▸ henv', ?_⟩
  rintro rfl
  constructor
  · intro record hrecord v hv
    exact Environment.not_isConstant_of_supplies_empty (hgiven record hrecord v hv)
  · intro part hpart x v hx
    exact Environment.not_isConstant_of_supplies_empty (hbound part hpart x v hx)

/-- The environment holds `true` and `null`, and the name `true` is given to `null`.  From there
`null` is handed on to `y` and by a program to `z`, before the program fails.  What nobody can make
is `false`: it is neither given out nor bound to any variable in the end. -/
theorem actAll_inherits_constants_without_false :
    let start : Environment := .ofList [("true", .bool true), ("null", .null)]
    let s : Session := (Session.start ⟨some 3, start⟩).put (some "other") .empty
    let activities : List Activity :=
      [.eval none (.form .letForm [.ident "true", .ident "null"]),
        .evalJson (some "other") (.string "true"),
        .evalJson none (.array [.string "let", .string "y", .string "true"]),
        .run ⟨[.array [.string "+", .array [.string "let", .string "z", .string "y"],
          .string "\"a\""]]⟩]
    s.Admits activities ∧ ∃ records s' env', s.actAll activities = some (records, s') ∧
      s'.env? none = some env' ∧ (∀ x, env'.get? x ≠ some (.bool false)) ∧
      ∀ record ∈ records, record.place = none → .bool false ∉ record.values := by
  intro start s activities
  have hadmits : s.Admits activities := by
    simp [Admits, activities, Activity.place, s, Session.start, env?, put]
  have hnone : ∀ y, start.get? y ≠ some (.bool false) := by
    intro y
    simp only [start, Environment.ofList, List.foldl_cons, List.foldl_nil, Environment.get?_define,
      Environment.get?_empty]
    split
    · simp
    · split <;> simp
  obtain ⟨⟨records, s', hacts, hfrom⟩, -⟩ := actAll_inherits_constants s activities hadmits
  obtain ⟨hgiven, hbound, henv', -⟩ := hfrom none start rfl
  refine ⟨hadmits, records, s', _, hacts, henv', ?_, ?_⟩
  · intro x hx
    obtain ⟨y, hy⟩ := hbound _ (List.prefix_refl _) x _ hx trivial
    exact hnone y hy
  · intro record hrecord hplace hmem
    have hown : record ∈ records.filter fun record => record.place = none :=
      List.mem_filter.mpr ⟨hrecord, decide_eq_true hplace⟩
    obtain ⟨y, hy⟩ := hgiven record hown _ hmem trivial
    exact hnone y hy

end Session

end LetLang
