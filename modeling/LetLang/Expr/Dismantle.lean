import LetLang.Expr.Basic

/-!
# Taking an expression apart

`Expr.dismantle` takes an expression apart node by node.  It keeps the parts that are still whole
on a list, so its work does not nest however deep the expression is.
-/

namespace LetLang.Expr

mutual

/-- The number of nodes of an expression. -/
def nodes : Expr → Nat
  | .binary _ l r => nodes l + nodes r + 1
  | .form _ operands => nodesAll operands + 1
  | .number _ => 1
  | .string _ => 1
  | .ident _ => 1

/-- The number of nodes of several expressions. -/
def nodesAll : List Expr → Nat
  | [] => 0
  | e :: es => nodes e + nodesAll es

end

/-- The operands of an expression. -/
def children : Expr → List Expr
  | .binary _ l r => [l, r]
  | .form _ operands => operands
  | _ => []

/-- The expression without its operands: an operator keeps a zero in the place of each one. -/
def bare : Expr → Expr
  | .binary op _ _ => .binary op (.number 0) (.number 0)
  | .form k _ => .form k []
  | e => e

theorem nodesAll_append (es fs : List Expr) :
    nodesAll (es ++ fs) = nodesAll es + nodesAll fs := by
  induction es with
  | nil => simp [nodesAll]
  | cons e es ih => simp only [List.cons_append, nodesAll, ih, Nat.add_assoc]

theorem nodesAll_reverse (es : List Expr) : nodesAll es.reverse = nodesAll es := by
  induction es with
  | nil => rfl
  | cons e es ih =>
    simp only [List.reverse_cons, nodesAll_append, nodesAll, ih]
    omega

/-- An expression is one node and its operands. -/
theorem nodes_eq (e : Expr) : e.nodes = nodesAll e.children + 1 := by
  cases e <;> simp [nodes, nodesAll, children]

/-- Takes the parts on the list apart, always the first one, whose operands join the list in front
of the others.  The result is the bare nodes, in the order in which they come off the list. -/
def dismantleAll (parts : List Expr) : List Expr :=
  match parts with
  | [] => []
  | e :: rest => e.bare :: dismantleAll (e.children.reverse ++ rest)
termination_by nodesAll parts
decreasing_by
  rw [nodesAll_append, nodesAll_reverse, nodesAll, nodes_eq]
  omega

/-- The bare nodes below the root of an expression, in the order in which it is taken apart. -/
def dismantle (e : Expr) : List Expr := dismantleAll e.children.reverse

end LetLang.Expr
