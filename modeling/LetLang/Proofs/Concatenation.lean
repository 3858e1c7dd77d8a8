import LetLang.Proofs.Derivation

/-!
# Operators on strings

Every operator concatenates strings.  An expression that is made of operators alone, with strings at
its leaves, therefore has the concatenation of these strings as its value, from left to right.
Neither the operators nor the way in which they are nested can be seen in it.  They can be seen in
the log: each operator other than addition is noted with a warning, after its operands have been
evaluated, and so the warnings tell these operators in post-order.

`Expr.Concatenates` relates such an expression to the strings at its leaves, and
`Concatenates.exists_evaluates` derives its outcome by rules, one rule for each node.
-/

namespace LetLang

/-- `e.Concatenates env leaves` says that `e` is made of operators, with string literals and
variables bound to strings at its leaves, and that these strings are `leaves`, from left to right. -/
inductive Expr.Concatenates (env : Environment) : Expr → List String → Prop
  | string (s : String) : Concatenates env (.string s) [s]
  | ident {x s : String} (hx : env.get? x = some (.string s)) : Concatenates env (.ident x) [s]
  | binary (op : Operator) {l r : Expr} {lefts rights : List String}
      (hl : Concatenates env l lefts) (hr : Concatenates env r rights) :
      Concatenates env (.binary op l r) (lefts ++ rights)

/-- The operators of nested operations in post-order: each stands behind those of its operands. -/
def Expr.operators : Expr → List Operator
  | .binary op l r => l.operators ++ r.operators ++ [op]
  | _ => []

/-- The warnings of a log, by the details they show. -/
def warnings (log : List Event) : List (List (String × String)) :=
  (log.filter fun ev => ev.level = .warn).map Event.details

@[simp] lemma warnings_append (first second : List Event) :
    warnings (first ++ second) = warnings first ++ warnings second := by
  rw [warnings, List.filter_append, List.map_append]
  rfl

@[simp] lemma warnings_enter (kind : Expr.Kind) (depth : Nat) (log : List Event) :
    warnings (.enter kind depth :: log) = warnings log := rfl

/-- An operator makes one string of two, and warns about it if it is not addition. -/
lemma Operator.exists_combines_strings (op : Operator) (s t : String) :
    ∃ noted, Combines op (.string s) (.string t) (.ok (.string (s ++ t))) noted ∧
      warnings noted = ([op].filter fun op => op ≠ .add).map fun op => [("op", op.symbol)] := by
  by_cases hop : op = .add
  · exact ⟨[], .addition s t hop, by simp [hop, warnings]⟩
  · exact ⟨[.concatenate op], .concatenation s t hop,
      by simp [hop, warnings, Event.level, Event.details]⟩

/-- An expression that concatenates strings has what they make together as its value, changes no
variable, and warns about each operator other than addition. -/
theorem Expr.Concatenates.exists_evaluates {env : Environment} {e : Expr} {leaves : List String}
    (h : e.Concatenates env leaves) : ∀ depth, ∃ log,
      Evaluates none depth e env (.ok (.string (String.join leaves))) env log ∧
      warnings log =
        (e.operators.filter fun op => op ≠ .add).map fun op => [("op", op.symbol)] := by
  induction h with
  | string s =>
    intro depth
    rw [String.join_cons, String.join_nil, String.append_empty]
    exact ⟨_, .string (within_none depth), rfl⟩
  | ident hx =>
    intro depth
    rw [String.join_cons, String.join_nil, String.append_empty]
    exact ⟨_, .bound (within_none depth) hx, rfl⟩
  | binary op _ _ ihl ihr =>
    intro depth
    obtain ⟨log₁, hl, hwarnings₁⟩ := ihl (depth + 1)
    obtain ⟨log₂, hr, hwarnings₂⟩ := ihr (depth + 1)
    obtain ⟨noted, hop, hwarnings⟩ := op.exists_combines_strings _ _
    rw [String.join_append]
    refine ⟨_, .binary (within_none depth) hl hr hop, ?_⟩
    -- the operator comes behind those of its operands, as its warning does
    rw [List.cons_append, List.cons_append, warnings_enter, warnings_append, warnings_append,
      hwarnings₁, hwarnings₂, hwarnings, operators, List.filter_append, List.filter_append,
      List.map_append, List.map_append]

/-- Operators over strings concatenate.  An expression made of operators, with string literals and
variables bound to strings at its leaves, has the concatenation of these strings from left to right
as its value when there is no limit.  It leaves the environment as it was, and its warnings are one
for each operator other than addition, with its symbol, in post-order.  Any other such expression
with the same strings in the same order has the same value, whatever its operators and their nesting
are. -/
theorem evaluate_concatenates_leaves (env : Environment) (e : Expr) (leaves : List String)
    (h : e.Concatenates env leaves) :
    let o := e.evaluate none env
    o.result = .ok (.string (String.join leaves)) ∧ o.env = env ∧
    warnings o.log =
      (e.operators.filter fun op => op ≠ .add).map (fun op => [("op", op.symbol)]) ∧
    ∀ (env' : Environment) (e' : Expr), e'.Concatenates env' leaves →
      (e'.evaluate none env').result = o.result := by
  intro o
  obtain ⟨log, hevaluates, hwarnings⟩ := h.exists_evaluates 0
  have ho : o = ⟨.ok (.string (String.join leaves)), env, log⟩ := hevaluates.evaluateAt_eq
  rw [ho]
  refine ⟨rfl, rfl, hwarnings, fun env' e' h' => ?_⟩
  obtain ⟨log', hevaluates', -⟩ := h'.exists_evaluates 0
  rw [Expr.evaluate_eq, hevaluates'.evaluateAt_eq]

/-- The product of `"a" - x` and `"b" + ("c" / x)`, where `x` is bound to a string: the addition is
not warned about, and the product comes last. -/
theorem evaluate_concatenates_leaves_of_product :
    let product : Expr := .binary .mul (.binary .sub (.string "a") (.ident "x"))
      (.binary .add (.string "b") (.binary .div (.string "c") (.ident "x")))
    let env : Environment := .ofList [("x", .string "é")]
    product.Concatenates env ["a", "é", "b", "c", "é"] ∧
      (product.evaluate none env).result = .ok (.string "aébcé") ∧
      warnings (product.evaluate none env).log = [[("op", "-")], [("op", "/")], [("op", "*")]] := by
  intro product env
  have hx : env.get? "x" = some (.string "é") := by
    simp [env, Environment.ofList, Environment.get?_define]
  have hconcatenates : product.Concatenates env ["a", "é", "b", "c", "é"] :=
    .binary .mul (.binary .sub (.string "a") (.ident hx))
      (.binary .add (.string "b") (.binary .div (.string "c") (.ident hx)))
  obtain ⟨hresult, -, hwarnings, -⟩ := evaluate_concatenates_leaves env product _ hconcatenates
  exact ⟨hconcatenates, hresult, hwarnings⟩

end LetLang
