import LetLang.Proofs.Grammar
import LetLang.Session

/-!
# Malformed values

A JSON value is read as a whole before any of it is evaluated.  If one of its nodes is offending,
nothing is evaluated: the answer names the first offending node in preorder, and all environments
stay as they are.  This holds also where the evaluation would not have come to that node, because an
earlier operand fails, because the node lies too deep, or because the keyword above it cannot be
evaluated.

Only reachable nodes count.  What stands inside an array that is not well-headed, or inside an
object, is never looked at, since the array or the object is offending itself.

`blames_ofJson` says what the reader reports, by recursion on the operands.  `mem_preorder_iff` says
that the preorder lists the reachable nodes.
-/

namespace LetLang

namespace Json

/-! ## Reachable and offending nodes -/

/-- The array has three elements and starts with an operator, or it has two or more elements and
starts with a keyword. -/
def WellHeaded : List Json → Prop
  | .string head :: operands =>
    (operands.length = 2 ∧ head ∈ ["+", "-", "*", "/"]) ∨
      (1 ≤ operands.length ∧ head ∈ ["let", "set", "begin"])
  | _ => False

instance : DecidablePred WellHeaded
  | [] => .isFalse id
  | .string _ :: _ => inferInstanceAs (Decidable (_ ∨ _))
  | .null :: _ => .isFalse id
  | .bool _ :: _ => .isFalse id
  | .number _ :: _ => .isFalse id
  | .array _ :: _ => .isFalse id
  | .object _ :: _ => .isFalse id

/-- A node is reachable if it is the whole value, or an operand of a reachable well-headed array. -/
inductive Reachable (raw : Json) : Json → Prop
  /-- The whole value. -/
  | self : Reachable raw raw
  /-- An element after the head. -/
  | operand {head node : Json} {operands : List Json}
      (h : Reachable raw (.array (head :: operands))) (hwell : WellHeaded (head :: operands))
      (hnode : node ∈ operands) : Reachable raw node

/-- The text starts and ends with a quote, which may be the same one. -/
def QuoteDelimited (s : String) : Prop :=
  s.toList.head? = some '"' ∧ s.toList.getLast? = some '"'

/-- A node that is no number, no literal, no variable and no well-headed array. -/
def Offending : Json → Prop
  | .null => True
  | .bool _ => True
  | .number _ => False
  | .string s => ¬QuoteDelimited s ∧ ¬ProperName s
  | .array items => ¬WellHeaded items
  | .object _ => True

mutual

/-- The reachable nodes, each before its operands, and these from left to right. -/
def preorder : Json → List Json
  | .array (head :: operands) =>
    .array (head :: operands) ::
      if WellHeaded (head :: operands) then preorderAll operands else []
  | raw => [raw]

/-- The reachable nodes of several values, one value after another. -/
def preorderAll : List Json → List Json
  | [] => []
  | raw :: raws => preorder raw ++ preorderAll raws

end

/-- The node is offending, and none before it is. -/
def FirstOffending (nodes : List Json) (node : Json) : Prop :=
  Offending node ∧ ∃ before after, nodes = before ++ node :: after ∧ ∀ i ∈ before, ¬Offending i

/-! ## The preorder -/

/-- Several values have the nodes of each. -/
lemma mem_preorderAll_iff {raws : List Json} {node : Json} :
    node ∈ preorderAll raws ↔ ∃ raw ∈ raws, node ∈ preorder raw := by
  induction raws with
  | nil => simp [preorderAll]
  | cons raw raws ih => simp [preorderAll, ih]

/-- The preorder starts with the whole value. -/
lemma self_mem_preorder (raw : Json) : raw ∈ preorder raw := by
  unfold preorder
  split <;> simp

/-- Every other node belongs to an operand of a well-headed array. -/
lemma mem_preorder_cases {raw node : Json} (h : node ∈ preorder raw) :
    node = raw ∨ ∃ head operands, raw = .array (head :: operands) ∧
      WellHeaded (head :: operands) ∧ ∃ i ∈ operands, node ∈ preorder i := by
  unfold preorder at h
  split at h
  · next head operands =>
    rcases List.mem_cons.mp h with rfl | hmem
    · exact .inl rfl
    · split at hmem
      · next hwell => exact .inr ⟨head, operands, rfl, hwell, mem_preorderAll_iff.mp hmem⟩
      · simp at hmem
  · exact .inl (List.mem_singleton.mp h)

/-- The nodes of an operand are nodes of the array. -/
lemma mem_preorder_of_operand {head i node : Json} {operands : List Json}
    (hwell : WellHeaded (head :: operands)) (hi : i ∈ operands) (hnode : node ∈ preorder i) :
    node ∈ preorder (.array (head :: operands)) := by
  rw [preorder, if_pos hwell]
  exact List.mem_cons_of_mem _ (mem_preorderAll_iff.mpr ⟨i, hi, hnode⟩)

/-- The nodes of a node are nodes of the whole value. -/
theorem mem_preorder_trans {raw i node : Json} (hi : i ∈ preorder raw)
    (hnode : node ∈ preorder i) : node ∈ preorder raw := by
  rcases mem_preorder_cases hi with rfl | ⟨head, operands, rfl, hwell, operand, hoperand, hmem⟩
  · exact hnode
  · have hsize := List.sizeOf_lt_of_mem hoperand
    exact mem_preorder_of_operand hwell hoperand (mem_preorder_trans hmem hnode)
termination_by sizeOf raw

/-- What an operand reaches, the array reaches as well. -/
lemma Reachable.of_operand {head i node : Json} {operands : List Json}
    (hwell : WellHeaded (head :: operands)) (hi : i ∈ operands) (h : Reachable i node) :
    Reachable (.array (head :: operands)) node := by
  induction h with
  | self => exact .operand .self hwell hi
  | operand _ hwell' hnode ih => exact .operand ih hwell' hnode

/-- The nodes in the preorder are reachable. -/
theorem reachable_of_mem_preorder {raw node : Json} (h : node ∈ preorder raw) :
    Reachable raw node := by
  rcases mem_preorder_cases h with rfl | ⟨head, operands, rfl, hwell, i, hi, hmem⟩
  · exact .self
  · have hsize := List.sizeOf_lt_of_mem hi
    exact .of_operand hwell hi (reachable_of_mem_preorder hmem)
termination_by sizeOf raw

/-- The preorder lists exactly the reachable nodes. -/
lemma mem_preorder_iff {raw node : Json} : node ∈ preorder raw ↔ Reachable raw node := by
  constructor
  · exact reachable_of_mem_preorder
  · intro h
    induction h with
    | self => exact self_mem_preorder raw
    | operand _ hwell hnode ih =>
      exact mem_preorder_trans ih (mem_preorder_of_operand hwell hnode (self_mem_preorder _))

/-! ## Offending nodes have no shape -/

/-- The operators as heads. -/
lemma mem_symbols_iff {head : String} :
    head ∈ ["+", "-", "*", "/"] ↔ ∃ op : Operator, head = op.symbol := by
  constructor
  · intro h
    simp only [List.mem_cons, List.not_mem_nil, or_false] at h
    rcases h with rfl | rfl | rfl | rfl
    · exact ⟨.add, rfl⟩
    · exact ⟨.sub, rfl⟩
    · exact ⟨.mul, rfl⟩
    · exact ⟨.div, rfl⟩
  · rintro ⟨op, rfl⟩
    cases op <;> decide

/-- The keywords as heads. -/
lemma mem_words_iff {head : String} :
    head ∈ ["let", "set", "begin"] ↔ ∃ k : Keyword, head = k.word := by
  constructor
  · intro h
    simp only [List.mem_cons, List.not_mem_nil, or_false] at h
    rcases h with rfl | rfl | rfl
    · exact ⟨.letForm, rfl⟩
    · exact ⟨.setForm, rfl⟩
    · exact ⟨.beginForm, rfl⟩
  · rintro ⟨k, rfl⟩
    cases k <;> decide

/-- An operator before two operands is well-headed. -/
lemma wellHeaded_binary (op : Operator) (left right : Json) :
    WellHeaded [.string op.symbol, left, right] :=
  .inl ⟨rfl, mem_symbols_iff.mpr ⟨op, rfl⟩⟩

/-- A keyword before an operand is well-headed. -/
lemma wellHeaded_form (k : Keyword) (first : Json) (others : List Json) :
    WellHeaded (.string k.word :: first :: others) :=
  .inr ⟨by simp, mem_words_iff.mpr ⟨k, rfl⟩⟩

/-- The well-headed arrays are those that have a shape. -/
lemma wellHeaded_iff {items : List Json} :
    WellHeaded items ↔ Expr.shape (.array items) ≠ .unknown := by
  constructor
  · intro h
    unfold WellHeaded at h
    split at h
    · next head operands =>
      rcases h with ⟨hlength, hhead⟩ | ⟨hlength, hhead⟩
      · obtain ⟨op, rfl⟩ := mem_symbols_iff.mp hhead
        obtain ⟨left, right, rfl⟩ := List.length_eq_two.mp hlength
        rw [Expr.shape_eq_binary_iff.mpr rfl]
        simp
      · obtain ⟨k, rfl⟩ := mem_words_iff.mp hhead
        obtain ⟨first, others, rfl⟩ := List.exists_cons_of_length_pos hlength
        rw [Expr.shape_eq_form_iff.mpr rfl]
        simp
    · exact h.elim
  · intro h
    cases hs : Expr.shape (.array items) with
    | unknown => exact absurd hs h
    | leaf e => simp [Expr.shape_eq_leaf_iff] at hs
    | binary op left right =>
      cases Expr.shape_eq_binary_iff.mp hs
      exact wellHeaded_binary op left right
    | form k first others =>
      cases Expr.shape_eq_form_iff.mp hs
      exact wellHeaded_form k first others

/-- The texts between quotes are the literals. -/
lemma quoteDelimited_iff {s : String} : QuoteDelimited s ↔ ∃ e, Expr.ofQuoted? s = some e := by
  unfold QuoteDelimited Expr.ofQuoted?
  rcases s.toList with _ | ⟨c, _ | ⟨d, rest⟩⟩
  · simp
  · by_cases hc : c = '"' <;> simp [hc]
  · by_cases hc : c = '"'
    · by_cases hlast : (d :: rest).getLast? = some '"' <;> simp [hc, hlast]
    · simp [hc]

/-- The texts that are neither literals nor variables have no shape. -/
lemma textShape_eq_unknown_iff {s : String} :
    Expr.textShape s = .unknown ↔ ¬QuoteDelimited s ∧ ¬ProperName s := by
  have hname : (∃ e, Expr.ofName? s = some e) ↔ ProperName s := by
    simp [Expr.ofName?_eq_some_iff]
  rw [quoteDelimited_iff, ← hname]
  unfold Expr.textShape
  cases Expr.ofQuoted? s with
  | some e => simp
  | none => cases Expr.ofName? s <;> simp

/-- A node is offending exactly if it has no shape. -/
lemma offending_iff {raw : Json} : Offending raw ↔ Expr.shape raw = .unknown := by
  cases raw with
  | null => simp [Offending, Expr.shape]
  | bool b => simp [Offending, Expr.shape]
  | number n => simp [Offending, Expr.shape]
  | object fields => simp [Offending, Expr.shape]
  | string s => exact textShape_eq_unknown_iff.symm
  | array items =>
    rw [Offending, wellHeaded_iff]
    simp

/-! ## What the reader reports -/

/-- `Blames nodes r` says that the result `r` of reading is right about the nodes: it is an error
just if one of them is offending, and then names the first. -/
def Blames {α : Type} (nodes : List Json) : Except Expr.Unrecognized α → Prop
  | .ok _ => ∀ node ∈ nodes, ¬Offending node
  | .error u => FirstOffending nodes u.part

/-- The first offending node stays the first if nodes follow. -/
lemma FirstOffending.append {nodes : List Json} {node : Json} (h : FirstOffending nodes node)
    (more : List Json) : FirstOffending (nodes ++ more) node := by
  obtain ⟨hnode, before, after, rfl, hbefore⟩ := h
  exact ⟨hnode, before, after ++ more, by simp, hbefore⟩

/-- Nodes that are in order may be put in front. -/
lemma Blames.append_left {α : Type} {good nodes : List Json} {r : Except Expr.Unrecognized α}
    (hgood : ∀ node ∈ good, ¬Offending node) (h : Blames nodes r) : Blames (good ++ nodes) r := by
  cases r with
  | ok a =>
    intro node hnode
    rcases List.mem_append.mp hnode with hmem | hmem
    · exact hgood node hmem
    · exact h node hmem
  | error u =>
    obtain ⟨hnode, before, after, rfl, hbefore⟩ := h
    refine ⟨hnode, good ++ before, after, by simp, ?_⟩
    intro node hmem
    rcases List.mem_append.mp hmem with hmem | hmem
    · exact hgood node hmem
    · exact hbefore node hmem

/-- The blame stays the same if something is made of what was read. -/
lemma Blames.map {α β : Type} {nodes : List Json} {r : Except Expr.Unrecognized α}
    (h : Blames nodes r) (f : α → β) : Blames nodes (r.map f) := by
  cases r with
  | ok a => exact h
  | error u => exact h

/-- Reading goes on to further nodes only if it has found nothing to blame. -/
lemma Blames.bind {α β : Type} {nodes more : List Json} {r : Except Expr.Unrecognized α}
    {f : α → Except Expr.Unrecognized β} (h : Blames nodes r) (hf : ∀ a, Blames more (f a)) :
    Blames (nodes ++ more) (r.bind f) := by
  cases r with
  | ok a => exact (hf a).append_left h
  | error u => exact FirstOffending.append h more

/-- A well-headed array is blamed for its operands only. -/
lemma Blames.array {α : Type} {head : Json} {operands : List Json}
    {r : Except Expr.Unrecognized α} (hwell : WellHeaded (head :: operands))
    (h : Blames (preorderAll operands) r) : Blames (preorder (.array (head :: operands))) r := by
  have hself : ∀ node ∈ [Json.array (head :: operands)], ¬Offending node := by
    intro node hnode
    obtain rfl := List.mem_singleton.mp hnode
    exact not_not_intro hwell
  rw [preorder, if_pos hwell]
  exact h.append_left hself

/-- If the blame is right for each of several values, it is right for all of them together. -/
lemma blames_ofJsonAll {raws : List Json}
    (hraws : ∀ raw ∈ raws, Blames (preorder raw) (Expr.ofJson raw)) :
    Blames (preorderAll raws) (Expr.ofJsonAll raws) := by
  induction raws with
  | nil => simp [preorderAll, Expr.ofJsonAll, Blames]
  | cons raw raws ih =>
    have hraw := hraws raw (by simp)
    have hrest := ih fun i hi => hraws i (by simp [hi])
    rw [preorderAll, Expr.ofJsonAll_cons]
    exact hraw.bind fun e => hrest.map (e :: ·)

/-- A value with no operands is its only node. -/
lemma preorder_eq_singleton {raw : Json} (h : ∀ items, raw = .array items → ¬WellHeaded items) :
    preorder raw = [raw] := by
  unfold preorder
  split
  · next head operands => rw [if_neg (h _ rfl)]
  · rfl

/-- The reader reports the first offending node of the preorder, and nothing else. -/
theorem blames_ofJson (raw : Json) : Blames (preorder raw) (Expr.ofJson raw) := by
  induction raw using Expr.induction_on_shape with
  | leaf raw e hs =>
    have hsingle : preorder raw = [raw] := by
      refine preorder_eq_singleton ?_
      rintro items rfl
      simp [Expr.shape_eq_leaf_iff] at hs
    rw [hsingle, Expr.ofJson_leaf hs]
    intro node hnode
    rw [List.mem_singleton.mp hnode, offending_iff, hs]
    simp
  | unknown raw hs =>
    have hsingle : preorder raw = [raw] := by
      refine preorder_eq_singleton ?_
      rintro items rfl
      rw [wellHeaded_iff]
      exact not_not_intro hs
    rw [hsingle, Expr.ofJson_unknown hs]
    exact ⟨offending_iff.mpr hs, [], [], rfl, by simp⟩
  | binary op left right ihl ihr =>
    refine .array (wellHeaded_binary op left right) ?_
    rw [Expr.ofJson_binary]
    simpa [preorderAll] using ihl.bind fun l => ihr.map (Expr.binary op l)
  | form k first others ih ihs =>
    refine .array (wellHeaded_form k first others) ?_
    have hall : Blames (preorderAll (first :: others)) (Expr.ofJsonAll (first :: others)) := by
      refine blames_ofJsonAll ?_
      intro i hi
      rcases List.mem_cons.mp hi with rfl | hmem
      · exact ih
      · exact ihs i hmem
    rw [Expr.ofJson_form]
    exact hall.map (Expr.form k)

/-- Where a node is offending the reader reports the first one. -/
lemma exists_first_of_offending {raw node : Json} (hnode : Reachable raw node)
    (hoffending : Offending node) :
    ∃ first, FirstOffending (preorder raw) first ∧ Expr.ofJson raw = .error ⟨first⟩ := by
  have hblames := blames_ofJson raw
  cases hr : Expr.ofJson raw with
  | error u =>
    rw [hr] at hblames
    exact ⟨u.part, hblames, rfl⟩
  | ok e =>
    rw [hr] at hblames
    exact absurd hoffending (hblames node (mem_preorder_iff.mpr hnode))

/-- Where no node is offending the value stands for an expression. -/
lemma exists_denotes_of_not_offending {raw : Json}
    (h : ∀ node, Reachable raw node → ¬Offending node) : ∃ e, raw.Denotes e := by
  have hblames := blames_ofJson raw
  cases hr : Expr.ofJson raw with
  | error u =>
    rw [hr] at hblames
    obtain ⟨hoffending, before, after, heq, -⟩ := hblames
    have hmem : u.part ∈ preorder raw := by simp [heq]
    exact absurd hoffending (h u.part (mem_preorder_iff.mp hmem))
  | ok e => exact ⟨e, ofJson_eq_ok_iff.mp hr⟩

/-! ## Evaluation -/

/-- A value that cannot be read changes nothing and notes nothing. -/
lemma evaluate_of_unrecognized {raw part : Json} (h : Expr.ofJson raw = .error ⟨part⟩)
    (limit : Option Nat) (env : Environment) :
    raw.evaluate limit env =
      ⟨.error (.unimplemented ("unrecognized expression: " ++ part.fragment)), env, []⟩ := by
  rw [evaluate, h]
  rfl

/-- A value is evaluated as the expression it stands for. -/
lemma evaluate_of_denotes {raw : Json} {e : Expr} (h : raw.Denotes e) (limit : Option Nat)
    (env : Environment) : raw.evaluate limit env = e.evaluate limit env := by
  rw [evaluate, h.ofJson_eq]

end Json

/-- An untyped request is answered by the evaluation of its value at the place. -/
lemma Session.perform_evalJson {s : Session} {place : Place} {env : Environment}
    (h : s.env? place = some env) (raw : Json) :
    s.perform place (.evalJson raw) =
      some (s.settle place (raw.evaluate s.interpreter.limit env)) := by
  simp [perform, h, respond]

/-- A request to evaluate an expression is answered by its evaluation at the place. -/
lemma Session.perform_eval {s : Session} {place : Place} {env : Environment}
    (h : s.env? place = some env) (e : Expr) :
    s.perform place (.eval e) = some (s.settle place (e.evaluate s.interpreter.limit env)) := by
  simp [perform, h, respond]

/-- Untyped evaluation is all or nothing.  If a reachable node is offending, the answer names the
first such node in preorder, nothing is noted, and neither the environment addressed nor any other
one changes, whatever the limit.  If no reachable node is offending, the value stands for an
expression and is evaluated as that expression. -/
theorem evaluate_all_or_nothing (raw : Json) :
    (∀ node, node ∈ raw.preorder ↔ raw.Reachable node) ∧
    ((∃ node, raw.Reachable node ∧ node.Offending) →
      ∃ first, Json.FirstOffending raw.preorder first ∧
        let failure := Failure.unimplemented ("unrecognized expression: " ++ first.fragment)
        (∀ limit env, raw.evaluate limit env = ⟨.error failure, env, []⟩) ∧
        (∀ i : Interpreter, i.evalJson raw = ⟨.error failure, i.env, []⟩ ∧
          i.after (i.evalJson raw) = i) ∧
        ∀ (s : Session) (place : Place) (env : Environment), s.env? place = some env →
          s.perform place (.evalJson raw) = some (.result (.error failure), [], s)) ∧
    ((∀ node, raw.Reachable node → ¬node.Offending) →
      ∃ e, raw.Denotes e ∧
        (∀ limit env, raw.evaluate limit env = e.evaluate limit env) ∧
        (∀ i : Interpreter, i.evalJson raw = i.eval e) ∧
        ∀ (s : Session) (place : Place) (env : Environment), s.env? place = some env →
          s.perform place (.evalJson raw) = s.perform place (.eval e)) := by
  refine ⟨fun node => Json.mem_preorder_iff, ?_, ?_⟩
  · rintro ⟨node, hnode, hoffending⟩
    obtain ⟨first, hfirst, hread⟩ := Json.exists_first_of_offending hnode hoffending
    have heval := Json.evaluate_of_unrecognized hread
    refine ⟨first, hfirst, heval, ?_, ?_⟩
    · intro i
      have hi := heval i.limit i.env
      refine ⟨hi, ?_⟩
      rw [Interpreter.evalJson, hi]
      rfl
    · intro s place env henv
      rw [Session.perform_evalJson henv, heval, Session.settle, Session.put_env henv]
  · intro h
    obtain ⟨e, he⟩ := Json.exists_denotes_of_not_offending h
    have heval := Json.evaluate_of_denotes he
    refine ⟨e, he, heval, fun i => heval i.limit i.env, ?_⟩
    intro s place env henv
    rw [Session.perform_evalJson henv, Session.perform_eval henv, heval]

/-- An offending node is reported although the operand before it has no value, although it lies
below the limit, and although `begin` cannot be evaluated. -/
theorem evaluate_all_or_nothing_below_begin :
    let inner : Json := .array [.string "*", .string "y"]
    let raw : Json := .array [.string "+", .string "x", .array [.string "begin", inner, .null]]
    (raw.Reachable inner ∧ inner.Offending) ∧
      ∃ first, Json.FirstOffending raw.preorder first ∧
        raw.evaluate (some 1) .empty = ⟨.error
          (.unimplemented ("unrecognized expression: " ++ first.fragment)), .empty, []⟩ := by
  intro inner raw
  have hsum : Json.WellHeaded
      [.string "+", .string "x", .array [.string "begin", inner, .null]] := by
    decide
  have hbegin : Json.WellHeaded [.string "begin", inner, .null] := by decide
  have hreachable : raw.Reachable inner :=
    .operand (.operand .self hsum (by simp)) hbegin (by simp)
  have hoffending : inner.Offending := by
    change ¬Json.WellHeaded [.string "*", .string "y"]
    decide
  refine ⟨⟨hreachable, hoffending⟩, ?_⟩
  obtain ⟨first, hfirst, heval, -⟩ :=
    (evaluate_all_or_nothing raw).2.1 ⟨inner, hreachable, hoffending⟩
  exact ⟨first, hfirst, heval (some 1) .empty⟩

end LetLang
