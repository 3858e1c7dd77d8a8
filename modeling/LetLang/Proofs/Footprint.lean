import LetLang.Proofs.LastWrite

/-!
# The footprint of an evaluation

What an evaluation may do with variables can be read off the expression.  `Expr.accesses` lists it
in the order of evaluation: a variable is read where it stands, and written once the value of its
`let` is known.  `Expr.lets` are the names that are written, and an expression `Needs` the names
that are read before they are written.

An evaluation reads nothing of the first environment but what it needs.  Two evaluations whose
environments agree there are followed side by side: they have the same result and the same log
(`sameRun_of_agree`).  The log tells which definitions they carry out, so both change the same names
in the same way.  While they go on, they come to agree on more names, since a right operand may read
what only the left one has written.
-/

namespace LetLang

/-! ## Accesses -/

/-- What is done with a variable. -/
inductive Access where
  | read (name : String)
  | write (name : String)

namespace Expr

/-- What an evaluation that does not end early does with variables, in order. -/
def accesses : Expr → List Access
  | .ident name => [.read name]
  | .binary _ l r => l.accesses ++ r.accesses
  | .form .letForm (.ident name :: value :: _) => value.accesses ++ [.write name]
  | _ => []

/-- The names that the lets of an expression write. -/
def lets (e : Expr) : List String := e.evaluatedLets.map Binding.name

/-- The expression reads the name before it has written it. -/
def Needs (e : Expr) (x : String) : Prop :=
  ∃ before later, e.accesses = before ++ .read x :: later ∧ .write x ∉ before

/-- The expression visits no operand and has nothing to do with variables: it always has the same
result. -/
structure Constant (e : Expr) : Prop where
  accesses : e.accesses = []
  lets : e.lets = []
  outcome : ∃ result, ∀ limit depth env,
    e.evaluateAt limit depth env = entering limit e.kind depth env ⟨result, env, []⟩

/-- A `let` that is refused has nothing to do with variables. -/
lemma constant_of_refuse {operands : List Expr} {failure : Failure}
    (hs : letShape operands = .refuse failure) : (form .letForm operands).Constant := by
  have haccesses : (form .letForm operands).accesses = [] := by
    obtain ⟨name, rfl, -⟩ | ⟨target, others, rfl, htarget, -⟩ | ⟨rfl, -⟩ := letShape_eq_refuse hs
    · rfl
    · cases target with
      | ident name => exact absurd rfl (htarget name)
      | _ => rfl
    · rfl
  have hlets : (form .letForm operands).lets = [] := by
    rw [Expr.lets, (bindsNothing_of_refuse hs).1, List.map_nil]
  exact ⟨haccesses, hlets, .error failure, evaluateAt_of_refuse hs⟩

/-- A keyword other than `let` has nothing to do with variables. -/
lemma constant_of_keyword {k : Keyword} (hk : k ≠ .letForm) (operands : List Expr) :
    (form k operands).Constant := by
  have haccesses : (form k operands).accesses = [] := by
    cases k with
    | letForm => exact absurd rfl hk
    | setForm => rfl
    | beginForm => rfl
  have hlets : (form k operands).lets = [] := by
    rw [Expr.lets, (bindsNothing_of_keyword hk operands).1, List.map_nil]
  exact ⟨haccesses, hlets, .error (refuseKeyword k),
    fun _ _ _ => evaluateAt_keyword _ _ _ hk operands⟩

/-- A statement holds of all expressions if it holds of those that have nothing to do with variables
and of variables, and passes from the operands of an operator and from the value of a `let` to the
whole. -/
@[elab_as_elim]
theorem induction_on_accesses {motive : Expr → Prop}
    (constant : ∀ e : Expr, e.Constant → motive e) (ident : ∀ name, motive (.ident name))
    (binary : ∀ op l r, motive l → motive r → motive (.binary op l r))
    (bind : ∀ b : Binding, motive b.value → motive b.expr) (e : Expr) : motive e := by
  induction e using Expr.induction_on_visits with
  | number x => exact constant _ ⟨rfl, rfl, .ok (.number x), fun _ _ _ => evaluateAt_number _ _ _ x⟩
  | string s => exact constant _ ⟨rfl, rfl, .ok (.string s), fun _ _ _ => evaluateAt_string _ _ _ s⟩
  | ident name => exact ident name
  | binary op l r ihl ihr => exact binary op l r ihl ihr
  | bind operands name e hs ih =>
    obtain ⟨ignored, rfl⟩ := letShape_eq_bind_iff.mp hs
    exact bind ⟨name, e, ignored⟩ ih
  | refuse operands failure hs => exact constant _ (constant_of_refuse hs)
  | keyword k operands hk => exact constant _ (constant_of_keyword hk operands)

@[simp] lemma lets_binary (op : Operator) (l r : Expr) :
    (binary op l r).lets = l.lets ++ r.lets := by
  rw [lets, evaluatedLets, List.map_append]
  rfl

@[simp] lemma lets_bind (b : Binding) : b.expr.lets = b.value.lets ++ [b.name] := by
  rw [lets, Binding.expr, evaluatedLets, List.map_append]
  rfl

/-- The names that are written are those of the lets. -/
lemma write_mem_accesses_iff {x : String} (e : Expr) : .write x ∈ e.accesses ↔ x ∈ e.lets := by
  induction e using Expr.induction_on_accesses with
  | constant e he => simp [he.accesses, he.lets]
  | ident name => simp [accesses, lets, evaluatedLets]
  | binary op l r ihl ihr => rw [accesses, lets_binary, List.mem_append, List.mem_append, ihl, ihr]
  | bind b ih =>
    have haccesses : b.expr.accesses = b.value.accesses ++ [.write b.name] := rfl
    rw [haccesses, lets_bind, List.mem_append, List.mem_append, ih]
    simp

/-! ## Needs -/

/-- A variable needs itself. -/
lemma needs_ident (name : String) : (ident name).Needs name :=
  ⟨[], [], rfl, List.not_mem_nil⟩

/-- An operator needs what its left operand needs. -/
lemma Needs.left {l : Expr} {x : String} (h : l.Needs x) (op : Operator) (r : Expr) :
    (binary op l r).Needs x := by
  obtain ⟨before, later, haccesses, hwrite⟩ := h
  refine ⟨before, later ++ r.accesses, ?_, hwrite⟩
  rw [accesses, haccesses, List.append_assoc, List.cons_append]

/-- An operator needs what its right operand needs and its left operand has not written. -/
lemma Needs.right {l r : Expr} {x : String} (h : r.Needs x) (hl : x ∉ l.lets) (op : Operator) :
    (binary op l r).Needs x := by
  obtain ⟨before, later, haccesses, hwrite⟩ := h
  refine ⟨l.accesses ++ before, later, ?_, ?_⟩
  · rw [accesses, haccesses, List.append_assoc]
  · rw [List.mem_append, write_mem_accesses_iff]
    exact fun h => h.elim hl hwrite

/-- A `let` needs what its value needs, also the name that it writes itself. -/
lemma Needs.bind {b : Binding} {x : String} (h : b.value.Needs x) : b.expr.Needs x := by
  obtain ⟨before, later, haccesses, hwrite⟩ := h
  refine ⟨before, later ++ [.write b.name], ?_, hwrite⟩
  have hbind : b.expr.accesses = b.value.accesses ++ [.write b.name] := rfl
  rw [hbind, haccesses, List.append_assoc, List.cons_append]

end Expr

/-! ## What an evaluation writes -/

section Written

variable (limit : Option Nat) (e : Expr) (depth : Nat) (env : Environment)

/-- The names that the log says are defined are those of the completed lets. -/
lemma names_definitions :
    (definitions (e.evaluateAt limit depth env).log).map Prod.fst =
      ((e.completedLets limit depth env).map Prod.fst).map Binding.name := by
  rw [(completes_evaluateAt limit e depth env).noted, List.map_map, List.map_map]
  rfl

/-- The names that are defined are the first ones of the lets. -/
lemma isPrefix_names_definitions :
    (definitions (e.evaluateAt limit depth env).log).map Prod.fst <+: e.lets := by
  rw [names_definitions, Expr.lets]
  exact (completes_evaluateAt limit e depth env).first.map Binding.name

/-- The names that an evaluation with a value has defined are those of all lets. -/
lemma names_definitions_of_ok {v : Value} (hv : (e.evaluateAt limit depth env).result = .ok v) :
    (definitions (e.evaluateAt limit depth env).log).map Prod.fst = e.lets := by
  rw [names_definitions, Expr.lets, (completes_evaluateAt limit e depth env).whole v hv]

end Written

/-! ## Two evaluations side by side -/

/-- Two outcomes have the same result and the same log. -/
structure Outcome.SameRun (o o' : Outcome) : Prop where
  result : o.result = o'.result
  log : o.log = o'.log

namespace Outcome.SameRun

/-- The same notes may be put in front of both. -/
lemma after {o o' : Outcome} (h : o.SameRun o') (log : List Event) :
    (o.after log).SameRun (o'.after log) :=
  ⟨h.result, congrArg (log ++ ·) h.log⟩

/-- Outcomes that are the same go on in the same way. -/
lemma andThen {o o' : Outcome} (h : o.SameRun o') {next : Value → Environment → Outcome}
    (hnext : ∀ v, o.result = .ok v → (next v o.env).SameRun (next v o'.env)) :
    (o.andThen next).SameRun (o'.andThen next) := by
  unfold Outcome.andThen
  rw [← h.result]
  cases hr : o.result with
  | error failure => exact ⟨rfl, h.log⟩
  | ok v =>
    have hv := (hnext v hr).after o.log
    rw [← h.log]
    exact hv

/-- Evaluations begin in the same way. -/
lemma entering {body body' : Outcome} (h : body.SameRun body') (limit : Option Nat)
    (kind : Expr.Kind) (depth : Nat) (env env' : Environment) :
    (entering limit kind depth env body).SameRun (entering limit kind depth env' body') := by
  unfold LetLang.entering
  split
  · exact ⟨rfl, rfl⟩
  · exact h.after _

end Outcome.SameRun

/-- Evaluations that have noted the same leave environments behind that agree on a name if they
agreed before or have defined it. -/
lemma get?_evaluateAt_eq {limit : Option Nat} {e : Expr} {depth : Nat} {A B : Environment}
    {x : String} (hlog : (e.evaluateAt limit depth A).log = (e.evaluateAt limit depth B).log)
    (hx : A.get? x = B.get? x ∨ x ∈ (definitions (e.evaluateAt limit depth A).log).map Prod.fst) :
    (e.evaluateAt limit depth A).env.get? x = (e.evaluateAt limit depth B).env.get? x := by
  rw [evaluateAt_env, evaluateAt_env, ← hlog, Environment.get?_defineAll,
    Environment.get?_defineAll]
  rcases hx with hagree | hmem
  · rw [hagree]
  · have hne : (definitions (e.evaluateAt limit depth A).log).reverse.lookup x ≠ none :=
      fun h => Environment.lookup_reverse_eq_none_iff.mp h hmem
    obtain ⟨v, hv⟩ := Option.ne_none_iff_exists'.mp hne
    rw [hv, Option.some_or, Option.some_or]

/-- An expression is evaluated in the same way in environments that agree on what it needs. -/
theorem sameRun_of_agree (limit : Option Nat) (e : Expr) : ∀ (depth : Nat) (A B : Environment),
    (∀ x, e.Needs x → A.get? x = B.get? x) →
      (e.evaluateAt limit depth A).SameRun (e.evaluateAt limit depth B) := by
  induction e using Expr.induction_on_accesses with
  | constant e he =>
    intro depth A B _
    obtain ⟨result, houtcome⟩ := he.outcome
    rw [houtcome, houtcome]
    refine .entering ?_ limit e.kind depth A B
    exact ⟨rfl, rfl⟩
  | ident name =>
    intro depth A B hagree
    have hlookup : A.lookup name = B.lookup name := by
      rw [Environment.lookup, Environment.lookup, hagree name (Expr.needs_ident name)]
    rw [Expr.evaluateAt_ident, Expr.evaluateAt_ident, hlookup]
    refine .entering ?_ limit .ident depth A B
    exact ⟨rfl, rfl⟩
  | binary op l r ihl ihr =>
    intro depth A B hagree
    have hl : (l.evaluateAt limit (depth + 1) A).SameRun (l.evaluateAt limit (depth + 1) B) :=
      ihl (depth + 1) A B fun x hx => hagree x (hx.left op r)
    rw [Expr.evaluateAt_binary, Expr.evaluateAt_binary]
    refine .entering (hl.andThen fun a ha => .andThen (ihr (depth + 1) _ _ ?_) ?_) _ _ _ _ _
    · -- what the right operand needs has been written by the left one, or agreed before
      intro x hx
      refine get?_evaluateAt_eq hl.log ?_
      by_cases hwritten : x ∈ l.lets
      · rw [names_definitions_of_ok limit l (depth + 1) A ha]
        exact .inr hwritten
      · exact .inl (hagree x (hx.right hwritten op))
    · exact fun b _ => ⟨rfl, rfl⟩
  | bind b ih =>
    intro depth A B hagree
    have hvalue := ih (depth + 1) A B fun x hx => hagree x hx.bind
    rw [Binding.expr, Expr.evaluateAt_of_bind rfl, Expr.evaluateAt_of_bind rfl]
    exact .entering (hvalue.andThen fun v _ => ⟨rfl, rfl⟩) _ _ _ _ _

/-- An evaluation reads and writes only its footprint, whatever the limit.  In two environments that
agree on what the expression needs it has the same result and the same log, and each name has the
value that it had before in both or gets one and the same value in both.  Names other than those of
the lets are never changed.  If there is a value, the names bound afterwards are those bound before
and those of the lets. -/
theorem evaluate_footprint (limit : Option Nat) (e : Expr) :
    (∀ A B : Environment, (∀ x, e.Needs x → A.get? x = B.get? x) →
      let a := e.evaluate limit A
      let b := e.evaluate limit B
      a.result = b.result ∧ a.log = b.log ∧
      ∀ x, (a.env.get? x = A.get? x ∧ b.env.get? x = B.get? x) ∨
        ∃ v, a.env.get? x = some v ∧ b.env.get? x = some v) ∧
    ∀ env : Environment,
      let o := e.evaluate limit env
      (∀ x, x ∉ e.lets → o.env.get? x = env.get? x) ∧
      ∀ v, o.result = .ok v →
        ∀ x, o.env.contains x = true ↔ env.contains x = true ∨ x ∈ e.lets := by
  have hget : ∀ env x, (e.evaluate limit env).env.get? x =
      ((definitions (e.evaluate limit env).log).reverse.lookup x).or (env.get? x) := by
    intro env x
    rw [Expr.evaluate_eq, evaluateAt_env, Environment.get?_defineAll]
  refine ⟨?_, ?_⟩
  · intro A B hagree a b
    have hrun : a.SameRun b := sameRun_of_agree limit e 0 A B hagree
    refine ⟨hrun.result, hrun.log, fun x => ?_⟩
    rw [hget, hget, ← hrun.log]
    cases (definitions a.log).reverse.lookup x with
    | none => exact .inl ⟨Option.none_or, Option.none_or⟩
    | some v => exact .inr ⟨v, Option.some_or, Option.some_or⟩
  · intro env o
    refine ⟨?_, ?_⟩
    · intro x hx
      have hnot : x ∉ (definitions o.log).map Prod.fst :=
        fun hmem => hx ((isPrefix_names_definitions limit e 0 env).subset hmem)
      rw [hget, Environment.lookup_reverse_eq_none_iff.mpr hnot, Option.none_or]
    · intro v hv x
      have hnames : (definitions o.log).map Prod.fst = e.lets :=
        names_definitions_of_ok limit e 0 env hv
      rw [Environment.contains_iff, Environment.contains_iff, hget, Option.isSome_or,
        Bool.or_eq_true, ← hnames, ← Option.ne_none_iff_isSome, ne_eq,
        Environment.lookup_reverse_eq_none_iff, not_not, or_comm]

/-- The difference of `let x y` and `x` needs `y` only, since `x` is read behind the `let`.  The
environments may differ on `x`, and agree on it afterwards. -/
theorem evaluate_footprint_of_rebound :
    let difference : Expr := .binary .sub (.form .letForm [.ident "x", .ident "y"]) (.ident "x")
    let A : Environment := .ofList [("x", .null), ("y", .string "a")]
    let B : Environment := .ofList [("y", .string "a"), ("z", .bool true)]
    (∀ x, difference.Needs x → A.get? x = B.get? x) ∧
      (difference.evaluate none A).result = (difference.evaluate none B).result ∧
      (difference.evaluate none A).log = (difference.evaluate none B).log := by
  intro difference A B
  have hneeds : ∀ x, difference.Needs x → A.get? x = B.get? x := by
    rintro x ⟨before, later, haccesses, hwrite⟩
    have hlist : [.read "y", .write "x", .read "x"] = before ++ Access.read x :: later := haccesses
    rcases before with _ | ⟨first, _ | ⟨second, _ | ⟨third, others⟩⟩⟩
    · obtain ⟨rfl, -⟩ : "y" = x ∧ _ := by simpa using hlist
      simp [A, B, Environment.ofList, Environment.get?_define]
    · simp at hlist
    · obtain ⟨-, rfl, rfl, -⟩ : _ ∧ .write "x" = second ∧ "x" = x ∧ _ := by simpa using hlist
      exact absurd (by simp) hwrite
    · simp at hlist
  obtain ⟨hresult, hlog, -⟩ := (evaluate_footprint none difference).1 A B hneeds
  exact ⟨hneeds, hresult, hlog⟩

end LetLang
