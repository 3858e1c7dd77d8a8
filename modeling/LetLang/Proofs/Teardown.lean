import LetLang.Expr.Dismantle
import Mathlib

/-!
# Taking an expression apart meets every node once

The nodes of an expression are told apart by their addresses: the address of a node lists the
operands that lead to it from the root.  A `Teardown` is a state of the loop that takes an
expression apart, in which every part on the list carries its address, together with the addresses
that have been pushed and popped so far and the bare nodes that have been discarded.

Each iteration takes one node off the forest that the list holds, so the loop ends after as many
iterations as there are nodes below the root (`Teardown.pending_run_eq_nil_iff`).  What an iteration
keeps is collected in `Teardown.Inv`; at the end of the loop it says that the pushed addresses and
the popped ones are those of all nodes below the root, each of them once.
-/

namespace LetLang

/-! ## Addresses -/

namespace Expr

/-- The node at an address. -/
def at? (e : Expr) : List ℕ → Option Expr
  | [] => some e
  | i :: address => e.children[i]?.bind fun c => c.at? address

/-- One more operand at the end of an address leads to an operand of the node. -/
lemma at?_concat (e : Expr) (address : List ℕ) (i : ℕ) :
    e.at? (address ++ [i]) = (e.at? address).bind fun c => c.children[i]? := by
  induction address generalizing e with
  | nil => simp [at?]
  | cons j address ih =>
    rw [List.cons_append, at?, at?, Option.bind_assoc]
    simp only [ih]

/-- The operands of a node with their addresses, in the order in which they are pushed. -/
def located (e : Expr) (address : List ℕ) : List (List ℕ × Expr) :=
  e.children.zipIdx.map fun c => (address ++ [c.2], c.1)

@[simp] lemma map_snd_located (address : List ℕ) (e : Expr) :
    (e.located address).map Prod.snd = e.children := by
  simp [located, Function.comp_def]

lemma mem_located {address p : List ℕ} {e c : Expr} :
    (p, c) ∈ e.located address ↔ ∃ i, p = address ++ [i] ∧ e.children[i]? = some c := by
  simp only [located, List.mem_map, Prod.exists, Prod.mk.injEq, List.mk_mem_zipIdx_iff_getElem?]
  constructor
  · rintro ⟨a, i, hi, rfl, rfl⟩
    exact ⟨i, rfl, hi⟩
  · rintro ⟨i, rfl, hi⟩
    exact ⟨c, i, hi, rfl, rfl⟩

/-- The operands of a node have different addresses. -/
lemma nodup_located (address : List ℕ) (e : Expr) : ((e.located address).map Prod.fst).Nodup := by
  have hmap : (e.located address).map Prod.fst =
      (e.children.zipIdx.map Prod.snd).map fun i => address ++ [i] := by
    rw [located, List.map_map, List.map_map]
    rfl
  rw [hmap]
  refine List.Nodup.map ?_ (List.nodup_zipIdx_map_snd _)
  intro i j h
  simpa using h

end Expr

/-! ## The loop -/

/-- A state of the loop that takes an expression apart. -/
structure Teardown where
  /-- The parts on the list, the one to be popped next in front. -/
  pending : List (List ℕ × Expr)
  /-- The addresses of all parts that have been pushed, the first one in front. -/
  pushed : List (List ℕ)
  /-- The addresses of all parts that have been popped, the first one in front. -/
  popped : List (List ℕ)
  /-- The popped nodes as they are discarded, without their operands. -/
  discarded : List Expr

namespace Teardown

/-- Before the loop the operands of the root are pushed. -/
def start (e : Expr) : Teardown :=
  ⟨(e.located []).reverse, (e.located []).map Prod.fst, [], []⟩

/-- One iteration: a part is popped, its operands are pushed, and what is left of it is
discarded. -/
def step (t : Teardown) : Teardown :=
  match t.pending with
  | [] => t
  | (address, e) :: rest =>
    ⟨(e.located address).reverse ++ rest, t.pushed ++ (e.located address).map Prod.fst,
      t.popped ++ [address], t.discarded ++ [e.bare]⟩

/-- The state after `n` iterations, or after fewer if the list is empty before. -/
def run (e : Expr) (n : ℕ) : Teardown := step^[n] (start e)

lemma run_succ (e : Expr) (n : ℕ) : run e (n + 1) = step (run e n) :=
  Function.iterate_succ_apply' step n (start e)

/-! ## Termination -/

/-- The number of nodes that are still on the list or below a part on it. -/
def remaining (t : Teardown) : ℕ := Expr.nodesAll (t.pending.map Prod.snd)

/-- Every expression has a node. -/
lemma nodes_pos (e : Expr) : 0 < e.nodes := by
  rw [Expr.nodes_eq]
  omega

lemma remaining_eq_zero_iff (t : Teardown) : t.remaining = 0 ↔ t.pending = [] := by
  unfold remaining
  cases t.pending with
  | nil => simp [Expr.nodesAll]
  | cons part rest =>
    have := nodes_pos part.2
    simp only [List.map_cons, Expr.nodesAll, reduceCtorEq, iff_false]
    omega

/-- An iteration takes one node off the forest. -/
lemma remaining_step (t : Teardown) : t.step.remaining = t.remaining - 1 := by
  unfold step remaining
  cases hpending : t.pending with
  | nil => simp [hpending, Expr.nodesAll]
  | cons part rest =>
    simp only [List.map_append, List.map_reverse, Expr.map_snd_located, List.map_cons,
      Expr.nodesAll, Expr.nodesAll_append, Expr.nodesAll_reverse, Expr.nodes_eq part.2]
    omega

lemma remaining_run (e : Expr) (n : ℕ) : (run e n).remaining = e.nodes - 1 - n := by
  induction n with
  | zero =>
    simp only [run, Function.iterate_zero_apply, start, remaining, List.map_reverse,
      Expr.map_snd_located, Expr.nodesAll_reverse, Expr.nodes_eq e]
    omega
  | succ n ih =>
    rw [run_succ, remaining_step, ih]
    omega

/-- The loop ends after as many iterations as there are nodes below the root. -/
lemma pending_run_eq_nil_iff (e : Expr) (n : ℕ) : (run e n).pending = [] ↔ e.nodes - 1 ≤ n := by
  rw [← remaining_eq_zero_iff, remaining_run]
  omega

/-- What is popped is taken off the forest. -/
lemma length_popped_step (t : Teardown) :
    t.step.popped.length + t.step.remaining = t.popped.length + t.remaining := by
  rw [remaining_step]
  unfold step
  split
  · next hnil =>
    rw [(remaining_eq_zero_iff t).mpr hnil]
  · next address e rest hcons =>
    have hpos : t.remaining ≠ 0 := by
      rw [ne_eq, remaining_eq_zero_iff, hcons]
      simp
    simp only [List.length_append, List.length_singleton]
    omega

/-- Together the nodes that are popped and those that remain are all nodes below the root. -/
lemma length_popped_run (e : Expr) (n : ℕ) :
    (run e n).popped.length + (run e n).remaining = e.nodes - 1 := by
  induction n with
  | zero =>
    rw [remaining_run]
    simp [run, start]
  | succ n ih => rw [run_succ, length_popped_step, ih]

/-! ## What an iteration keeps -/

/-- What holds of every state of the loop that takes `root` apart. -/
structure Inv (root : Expr) (t : Teardown) : Prop where
  /-- The parts on the list are the nodes at their addresses. -/
  at?_pending : ∀ p c, (p, c) ∈ t.pending → root.at? p = some c
  /-- What has been pushed has been popped or is on the list. -/
  pushed_perm : t.pushed.Perm (t.popped ++ t.pending.map Prod.fst)
  /-- Nothing has been pushed twice. -/
  nodup : t.pushed.Nodup
  /-- The root is not pushed. -/
  root_notMem : [] ∉ t.pushed
  /-- A node has been pushed exactly if the node above it is the root or has been popped. -/
  mem_pushed_iff : ∀ p i,
    p ++ [i] ∈ t.pushed ↔ (p = [] ∨ p ∈ t.popped) ∧ (root.at? (p ++ [i])).isSome = true
  /-- The discarded nodes are those that have been popped. -/
  discarded_eq : t.discarded.map some = t.popped.map fun p => (root.at? p).map Expr.bare
  /-- The loop goes on as the program takes the parts on the list apart. -/
  resume : t.discarded ++ Expr.dismantleAll (t.pending.map Prod.snd) = root.dismantle

/-- The operands of a node have its address with one more operand. -/
lemma exists_of_mem_located {c : Expr} {p q : List ℕ} (h : q ∈ (c.located p).map Prod.fst) :
    ∃ i, q = p ++ [i] := by
  obtain ⟨⟨q, a⟩, ha, rfl⟩ := List.mem_map.mp h
  obtain ⟨i, hi, -⟩ := Expr.mem_located.mp ha
  exact ⟨i, hi⟩

/-- The addresses of the operands of a node are those that lead through the node. -/
lemma concat_mem_located_iff {root c : Expr} {p q : List ℕ} {i : ℕ} (hp : root.at? p = some c) :
    q ++ [i] ∈ (c.located p).map Prod.fst ↔ q = p ∧ (root.at? (q ++ [i])).isSome = true := by
  constructor
  · intro h
    obtain ⟨⟨-, a⟩, ha, rfl⟩ := List.mem_map.mp h
    obtain ⟨j, hj, hchild⟩ := Expr.mem_located.mp ha
    obtain ⟨rfl, hij⟩ := List.append_inj' hj rfl
    obtain rfl := List.singleton_inj.mp hij
    exact ⟨rfl, by rw [Expr.at?_concat, hp, Option.bind_some, hchild]; rfl⟩
  · rintro ⟨rfl, hsome⟩
    rw [Expr.at?_concat, hp, Option.bind_some] at hsome
    obtain ⟨a, ha⟩ := Option.isSome_iff_exists.mp hsome
    exact List.mem_map.mpr ⟨(q ++ [i], a), Expr.mem_located.mpr ⟨i, rfl, ha⟩, rfl⟩

/-- The invariant holds before the loop. -/
lemma inv_start (e : Expr) : Inv e (start e) where
  at?_pending := by
    intro p c hc
    obtain ⟨i, rfl, hi⟩ := Expr.mem_located.mp (List.mem_reverse.mp hc)
    rw [Expr.at?_concat]
    exact hi
  pushed_perm := by
    simp only [start, List.nil_append, List.map_reverse]
    exact (List.reverse_perm _).symm
  nodup := Expr.nodup_located [] e
  root_notMem := by
    intro h
    obtain ⟨i, hi⟩ := exists_of_mem_located h
    simp at hi
  mem_pushed_iff := by
    intro p i
    have hroot : e.at? [] = some e := rfl
    rw [start, concat_mem_located_iff hroot]
    simp
  discarded_eq := rfl
  resume := by simp [start, Expr.dismantle]

/-- Each iteration keeps the invariant. -/
lemma Inv.step {root : Expr} {t : Teardown} (h : Inv root t) : Inv root t.step := by
  obtain ⟨pending, pushed, popped, discarded⟩ := t
  obtain _ | ⟨⟨address, e⟩, rest⟩ := pending
  · exact h
  obtain ⟨hat, hperm, hnodup, hroot, hmem, hdiscarded, hresume⟩ := h
  have he : root.at? address = some e := hat address e List.mem_cons_self
  -- the popped part has been pushed once, and is not the root
  have hpushed : address ∈ pushed := hperm.mem_iff.mpr (by simp)
  have hne : address ≠ [] := fun heq => hroot (heq ▸ hpushed)
  have hfresh : address ∉ popped := by
    have hsplit := hperm.nodup_iff.mp hnodup
    simp only [List.map_cons, List.nodup_append] at hsplit
    exact fun hpopped => hsplit.2.2 _ hpopped _ List.mem_cons_self rfl
  -- so none of its operands has been pushed before
  have hdisjoint : ∀ q ∈ (e.located address).map Prod.fst, q ∉ pushed := by
    intro q hq hq'
    obtain ⟨i, rfl⟩ := exists_of_mem_located hq
    exact ((hmem address i).mp hq').1.elim hne hfresh
  refine ⟨?_, ?_, ?_, ?_, ?_, ?_, ?_⟩
  · intro p c hc
    rcases List.mem_append.mp hc with hc | hc
    · obtain ⟨i, rfl, hi⟩ := Expr.mem_located.mp (List.mem_reverse.mp hc)
      rw [Expr.at?_concat, he]
      exact hi
    · exact hat p c (List.mem_cons_of_mem _ hc)
  · have hoperands : (rest.map Prod.fst ++ (e.located address).map Prod.fst).Perm
        (((e.located address).map Prod.fst).reverse ++ rest.map Prod.fst) :=
      List.perm_append_comm.trans ((List.reverse_perm _).symm.append_right _)
    simp only [Teardown.step, List.map_append, List.map_reverse, List.append_assoc,
      List.singleton_append]
    refine (hperm.append_right _).trans ?_
    rw [List.append_assoc, List.map_cons, List.cons_append]
    exact (hoperands.cons address).append_left popped
  · exact List.nodup_append.mpr ⟨hnodup, Expr.nodup_located address e,
      fun p hp q hq heq => hdisjoint q hq (heq ▸ hp)⟩
  · intro hnil
    rcases List.mem_append.mp hnil with hnil | hnil
    · exact hroot hnil
    · obtain ⟨i, hi⟩ := exists_of_mem_located hnil
      simp at hi
  · intro p i
    simp only [Teardown.step, List.mem_append, List.mem_singleton, hmem, concat_mem_located_iff he]
    tauto
  · simp only [Teardown.step, List.map_append, hdiscarded, List.map_cons, List.map_nil, he,
      Option.map_some]
  · rw [← hresume]
    simp [Teardown.step, Expr.dismantleAll]

/-- Every state of the loop has the invariant. -/
lemma inv_run (e : Expr) (n : ℕ) : Inv e (run e n) := by
  induction n with
  | zero => exact inv_start e
  | succ n ih =>
    rw [run_succ]
    exact ih.step

/-! ## The end of the loop -/

/-- When the list is empty, the pushed nodes are all nodes below the root. -/
lemma Inv.mem_pushed_iff_of_nil {root : Expr} {t : Teardown} (h : Inv root t)
    (hend : t.pending = []) (p : List ℕ) :
    p ∈ t.pushed ↔ p ≠ [] ∧ (root.at? p).isSome = true := by
  have hpopped : ∀ q, q ∈ t.popped ↔ q ∈ t.pushed := by
    intro q
    rw [h.pushed_perm.mem_iff, hend, List.map_nil, List.append_nil]
  -- the nodes above a node are pushed before it, so the induction is on the length of addresses
  induction p using List.reverseRecOn with
  | nil => simp [h.root_notMem]
  | append_singleton p i ih =>
    rw [h.mem_pushed_iff, hpopped]
    constructor
    · rintro ⟨-, hsome⟩
      exact ⟨by simp, hsome⟩
    · rintro ⟨-, hsome⟩
      refine ⟨?_, hsome⟩
      by_cases hp : p = []
      · exact .inl hp
      · refine .inr (ih.mpr ⟨hp, ?_⟩)
        rw [Expr.at?_concat] at hsome
        exact Option.isSome_of_isSome_bind hsome

/-- At the end of the loop every node below `root` has been pushed and popped once, and has been
discarded without its operands. -/
structure Complete (root : Expr) (t : Teardown) : Prop where
  pushed_nodup : t.pushed.Nodup
  mem_pushed : ∀ p, p ∈ t.pushed ↔ p ≠ [] ∧ (root.at? p).isSome = true
  popped_nodup : t.popped.Nodup
  mem_popped : ∀ p, p ∈ t.popped ↔ p ≠ [] ∧ (root.at? p).isSome = true
  length_popped : t.popped.length = root.nodes - 1
  discarded_map : t.discarded.map some = t.popped.map fun p => (root.at? p).map Expr.bare
  discarded_eq : t.discarded = root.dismantle

/-- After as many iterations as there are nodes below the root the work is complete. -/
lemma complete_run (e : Expr) : Complete e (run e (e.nodes - 1)) := by
  have hinv := inv_run e (e.nodes - 1)
  have hend : (run e (e.nodes - 1)).pending = [] := (pending_run_eq_nil_iff e _).mpr le_rfl
  have hperm : (run e (e.nodes - 1)).pushed.Perm (run e (e.nodes - 1)).popped := by
    simpa [hend] using hinv.pushed_perm
  have hpushed := hinv.mem_pushed_iff_of_nil hend
  refine ⟨hinv.nodup, hpushed, hperm.nodup_iff.mp hinv.nodup, ?_, ?_, hinv.discarded_eq, ?_⟩
  · intro p
    rw [← hperm.mem_iff, hpushed]
  · have hlength := length_popped_run e (e.nodes - 1)
    rwa [(remaining_eq_zero_iff _).mpr hend, Nat.add_zero] at hlength
  · have hresume := hinv.resume
    rwa [hend, List.map_nil, Expr.dismantleAll, List.append_nil] at hresume

end Teardown

/-! ## Nested calls -/

namespace Expr

/-- Discarding an expression nests at most `levels` calls: it is taken apart, each node that comes
off the list is discarded in a call of its own, and so is what is left in the place of the
operands of the root. -/
inductive DiscardedWithin : ℕ → Expr → Prop
  | intro {levels : ℕ} {e : Expr} (parts : ∀ d ∈ e.dismantle, DiscardedWithin levels d)
      (left : ∀ c ∈ e.bare.children, DiscardedWithin levels c) : DiscardedWithin (levels + 1) e

/-- Only zeros are left in the place of operands. -/
lemma eq_zero_of_mem_children_bare {e c : Expr} (h : c ∈ e.bare.children) : c = .number 0 := by
  cases e <;> simp_all [bare, children]

/-- Everything that comes off the list is bare. -/
lemma exists_of_mem_dismantleAll {d : Expr} {parts : List Expr} (h : d ∈ dismantleAll parts) :
    ∃ e, d = bare e := by
  fun_induction dismantleAll parts with
  | case1 => simp at h
  | case2 e rest ih =>
    rcases List.mem_cons.mp h with rfl | h
    · exact ⟨e, rfl⟩
    · exact ih h

/-- What is taken apart from zeros are zeros. -/
lemma eq_zero_of_mem_dismantleAll {d : Expr} {parts : List Expr}
    (hparts : ∀ c ∈ parts, c = .number 0) (h : d ∈ dismantleAll parts) : d = .number 0 := by
  fun_induction dismantleAll parts with
  | case1 => simp at h
  | case2 e rest ih =>
    obtain rfl := hparts e List.mem_cons_self
    rcases List.mem_cons.mp h with rfl | h
    · rfl
    · exact ih (fun c hc => hparts c (List.mem_cons_of_mem _ hc)) h

/-- Discarding a number nests no calls. -/
lemma discardedWithin_number (levels : ℕ) (x : Float) :
    DiscardedWithin (levels + 1) (.number x) := by
  refine .intro ?_ ?_
  · simp [dismantle, children, dismantleAll]
  · simp [bare, children]

/-- Discarding a bare node nests one call for each zero that is left in it. -/
lemma discardedWithin_bare (e : Expr) : DiscardedWithin 2 e.bare := by
  refine .intro ?_ ?_
  · intro d hd
    have hzeros : ∀ c ∈ e.bare.children.reverse, c = .number 0 :=
      fun c hc => eq_zero_of_mem_children_bare (List.mem_reverse.mp hc)
    rw [eq_zero_of_mem_dismantleAll hzeros hd]
    exact discardedWithin_number 0 0
  · intro c hc
    rw [eq_zero_of_mem_children_bare hc]
    exact discardedWithin_number 0 0

/-- Discarding any expression nests three calls at most. -/
lemma discardedWithin_three (e : Expr) : DiscardedWithin 3 e := by
  refine .intro ?_ ?_
  · intro d hd
    obtain ⟨e', rfl⟩ := exists_of_mem_dismantleAll hd
    exact discardedWithin_bare e'
  · intro c hc
    rw [eq_zero_of_mem_children_bare hc]
    exact discardedWithin_number 1 0

/-- Taking an expression apart is complete and flat.  The loop ends after exactly as many iterations
as there are nodes below the root, and is at every point the loop of the program; by then every node
below the root, and nothing else, has been pushed and popped exactly once; each one is discarded
with nothing but zeros in the place of operands; and discarding the expression never nests more than
three calls, however deep it is. -/
theorem dismantle_complete_and_flat (e : Expr) :
    (∀ n, (Teardown.run e n).pending = [] ↔ e.nodes - 1 ≤ n) ∧
    (∀ n, (Teardown.run e n).discarded ++
      dismantleAll ((Teardown.run e n).pending.map Prod.snd) = e.dismantle) ∧
    Teardown.Complete e (Teardown.run e (e.nodes - 1)) ∧
    (∀ d ∈ e.dismantle, ∀ c ∈ d.children, c = .number 0) ∧
    DiscardedWithin 3 e := by
  refine ⟨Teardown.pending_run_eq_nil_iff e, fun n => (Teardown.inv_run e n).resume,
    Teardown.complete_run e, ?_, discardedWithin_three e⟩
  intro d hd c hc
  obtain ⟨e', rfl⟩ := exists_of_mem_dismantleAll hd
  exact eq_zero_of_mem_children_bare hc

end Expr

end LetLang
