import LetLang.Json.Fragment
import LetLang.Proofs.DecimalText

/-!
# Fragments are cut at eight levels and nowhere else

`Json.template n v` is the compact text of `v` with the containers left open that are not empty and
lie inside `n` others.  Filled in with their compact texts it is the compact text of `v`, and filled
in with ellipses it is what `Json.elided n` writes; both are one induction on `n`
(`splice_template`).

An ellipsis is never the beginning of a compact text, for the compact text of a value does not start
with a point (`ellipsis_append_ne`).  Hence nothing is cut if the two texts are the same
(`cuts_eq_nil_of_splice_eq`).
-/

namespace LetLang.Json

/-! ## Values inside containers -/

/-- The values that lie directly in a container. -/
def children : Json → List Json
  | .array items => items
  | .object fields => fields.map Prod.snd
  | _ => []

/-- The value is a container that is not empty. -/
def isFilled (v : Json) : Bool := !v.children.isEmpty

/-- The values that lie inside `n` containers of a value, from left to right. -/
def inside : Nat → Json → List Json
  | 0, v => [v]
  | n + 1, v => v.children.flatMap (inside n)

lemma isFilled_eq_false_iff {v : Json} : v.isFilled = false ↔ v.children = [] := by
  simp [isFilled]

/-- What lies inside more containers lies inside something that lies inside fewer. -/
lemma inside_add (m n : Nat) (v : Json) : inside (m + n) v = (inside m v).flatMap (inside n) := by
  induction m generalizing v with
  | zero => simp [inside]
  | succ m ih =>
    rw [Nat.succ_add, inside, inside, List.flatMap_assoc]
    exact List.flatMap_congr fun w _ => ih w

/-- If the containers inside `m` others are empty, nothing lies inside more. -/
lemma forall_inside_iff {m : Nat} {v : Json} :
    (∀ n ≥ m, ∀ w ∈ inside n v, w.children = []) ↔ ∀ w ∈ inside m v, w.children = [] := by
  constructor
  · intro h
    exact h m (Nat.le_refl m)
  · intro h n hn w hw
    obtain ⟨k, rfl⟩ := Nat.exists_eq_add_of_le hn
    rw [inside_add] at hw
    obtain ⟨u, hu, hw⟩ := List.mem_flatMap.mp hw
    rcases k with _ | k
    · rw [List.mem_singleton.mp hw]
      exact h u hu
    · rw [inside, h u hu] at hw
      simp at hw

/-! ## Templates -/

/-- A piece of a text: characters that are kept, or a container that is cut out. -/
inductive Piece where
  | kept (s : String)
  | cut (v : Json)

/-- What stands for a container that is cut out. -/
def ellipsis : Json → String
  | .array _ => "[...]"
  | .object _ => "\x7b...\x7d"
  | v => v.compact

namespace Piece

/-- The text of a piece. -/
def text (fill : Json → String) : Piece → String
  | .kept s => s
  | .cut v => fill v

/-- The container that is cut out. -/
def cut? : Piece → Option Json
  | .kept _ => none
  | .cut v => some v

end Piece

/-- The text of pieces, with `fill` for what is cut out. -/
def splice (fill : Json → String) (pieces : List Piece) : String :=
  String.join (pieces.map (Piece.text fill))

/-- The containers that are cut out of a text. -/
def cuts (pieces : List Piece) : List Json := pieces.filterMap Piece.cut?

/-- The pieces of a container, from those of its items. -/
def enclosed (opening closing : String) (items : List (List Piece)) : List Piece :=
  .kept opening :: ([.kept ","].intercalate items ++ [.kept closing])

/-- The compact text of a value, with the containers cut out that lie inside `n` others, unless they
are empty. -/
def template : Nat → Json → List Piece
  | 0, v => if v.isFilled then [.cut v] else [.kept v.compact]
  | n + 1, .array items => enclosed "[" "]" (items.map (template n))
  | n + 1, .object fields =>
    enclosed "\x7b" "\x7d"
      (fields.map fun field => .kept (quote field.1 ++ ":") :: template n field.2)
  | _ + 1, v => [.kept v.compact]

section Pieces

variable (fill : Json → String)

@[simp] lemma splice_nil : splice fill [] = "" := by simp [splice]

@[simp] lemma splice_cons (p : Piece) (ps : List Piece) :
    splice fill (p :: ps) = p.text fill ++ splice fill ps := by
  simp [splice]

@[simp] lemma splice_append (ps qs : List Piece) :
    splice fill (ps ++ qs) = splice fill ps ++ splice fill qs := by
  induction ps with
  | nil => simp
  | cons p ps ih => simp [ih, String.append_assoc]

/-- Commas stand between the items. -/
lemma splice_intercalate : ∀ items : List (List Piece),
    splice fill ([.kept ","].intercalate items) = commaSeparated (items.map (splice fill))
  | [] => by simp [commaSeparated]
  | [ps] => by simp [commaSeparated]
  | ps :: qs :: rest => by
    rw [List.intercalate_cons_cons, splice_append, splice_append, splice_intercalate (qs :: rest)]
    simp [commaSeparated, Piece.text]

lemma splice_enclosed (opening closing : String) (items : List (List Piece)) :
    splice fill (enclosed opening closing items) =
      opening ++ commaSeparated (items.map (splice fill)) ++ closing := by
  simp [enclosed, splice_intercalate, Piece.text, String.append_assoc]

@[simp] lemma cuts_nil : cuts [] = [] := rfl

@[simp] lemma cuts_kept_cons (s : String) (ps : List Piece) : cuts (.kept s :: ps) = cuts ps := rfl

@[simp] lemma cuts_cut_cons (v : Json) (ps : List Piece) : cuts (.cut v :: ps) = v :: cuts ps := rfl

@[simp] lemma cuts_append (ps qs : List Piece) : cuts (ps ++ qs) = cuts ps ++ cuts qs :=
  List.filterMap_append

lemma cuts_intercalate : ∀ items : List (List Piece),
    cuts ([.kept ","].intercalate items) = items.flatMap cuts
  | [] => rfl
  | [ps] => by simp
  | ps :: qs :: rest => by
    rw [List.intercalate_cons_cons, cuts_append, cuts_append, cuts_intercalate (qs :: rest)]
    simp

lemma cuts_enclosed (opening closing : String) (items : List (List Piece)) :
    cuts (enclosed opening closing items) = items.flatMap cuts := by
  simp [enclosed, cuts_intercalate]

end Pieces

/-- Exactly the containers are cut out that lie inside `n` others and are not empty. -/
lemma cuts_template (n : Nat) (v : Json) : cuts (template n v) = (inside n v).filter isFilled := by
  induction n generalizing v with
  | zero =>
    rw [template, inside]
    cases h : v.isFilled <;> simp [h]
  | succ n ih =>
    rcases v with _ | _ | _ | _ | items | fields
    case array =>
      rw [template, cuts_enclosed, inside, children, List.filter_flatMap, List.flatMap_map]
      exact List.flatMap_congr fun item _ => ih item
    case object =>
      rw [template, cuts_enclosed, inside, children, List.filter_flatMap, List.flatMap_map,
        List.flatMap_map]
      exact List.flatMap_congr fun field _ => ih field.2
    all_goals rfl

/-- A printer that writes `fill` for containers inside `n` others writes what the template gives if
it is filled in so. -/
lemma splice_template (fill : Json → String) (print : Nat → Json → String)
    (hzero : ∀ v, print 0 v = if v.isFilled then fill v else v.compact)
    (harray : ∀ n items, print (n + 1) (.array items) =
      "[" ++ commaSeparated (items.map (print n)) ++ "]")
    (hobject : ∀ n fields, print (n + 1) (.object fields) = "\x7b" ++
      commaSeparated (fields.map fun field => quote field.1 ++ ":" ++ print n field.2) ++ "\x7d")
    (hscalar : ∀ n v, (∀ items, v ≠ .array items) → (∀ fields, v ≠ .object fields) →
      print (n + 1) v = v.compact) (n : Nat) (v : Json) :
    splice fill (template n v) = print n v := by
  induction n generalizing v with
  | zero =>
    rw [template, hzero]
    split <;> simp [Piece.text]
  | succ n ih =>
    rcases v with _ | _ | _ | _ | items | fields
    case array =>
      rw [template, splice_enclosed, harray, List.map_map]
      simp [Function.comp_def, ih]
    case object =>
      rw [template, splice_enclosed, hobject, List.map_map]
      simp [Function.comp_def, Piece.text, ih]
    all_goals
      rw [hscalar _ _ (by simp) (by simp)]
      simp [template, Piece.text]

/-! ## The two texts -/

lemma compactItems_eq_map (items : List Json) : compactItems items = items.map compact := by
  induction items with
  | nil => rfl
  | cons item items ih => rw [compactItems, ih, List.map_cons]

lemma compactFields_eq_map (fields : List (String × Json)) :
    compactFields fields = fields.map fun field => quote field.1 ++ ":" ++ field.2.compact := by
  induction fields with
  | nil => rfl
  | cons field fields ih => rw [compactFields, ih, List.map_cons]

lemma elidedItems_eq_map (n : Nat) (items : List Json) :
    elidedItems n items = items.map (elided n) := by
  induction items with
  | nil => rw [elidedItems, List.map_nil]
  | cons item items ih => rw [elidedItems, ih, List.map_cons]

lemma elidedFields_eq_map (n : Nat) (fields : List (String × Json)) :
    elidedFields n fields = fields.map fun field => quote field.1 ++ ":" ++ elided n field.2 := by
  induction fields with
  | nil => rw [elidedFields, List.map_nil]
  | cons field fields ih => rw [elidedFields, ih, List.map_cons]

/-- Above the last level an array is written like in the compact text. -/
lemma elided_array (n : Nat) : ∀ items : List Json,
    elided (n + 1) (.array items) = "[" ++ commaSeparated (items.map (elided n)) ++ "]"
  | [] => by simp [elided, commaSeparated]
  | item :: items => by rw [elided, elidedItems_eq_map]

/-- Above the last level an object is written like in the compact text. -/
lemma elided_object (n : Nat) : ∀ fields : List (String × Json),
    elided (n + 1) (.object fields) = "\x7b" ++
      commaSeparated (fields.map fun field => quote field.1 ++ ":" ++ elided n field.2) ++ "\x7d"
  | [] => by simp [elided, commaSeparated]
  | field :: fields => by rw [elided, elidedFields_eq_map]

/-- Filled in with compact texts, the template is the compact text. -/
lemma splice_compact_template (n : Nat) (v : Json) : splice compact (template n v) = v.compact := by
  refine splice_template compact (fun _ => compact) (fun v => (ite_self _).symm) ?_ ?_ ?_ n v
  · intro _ items
    rw [compact, compactItems_eq_map]
  · intro _ fields
    rw [compact, compactFields_eq_map]
  · exact fun _ _ _ _ => rfl

/-- Filled in with ellipses, the template is the elided text. -/
lemma splice_ellipsis_template (n : Nat) (v : Json) :
    splice ellipsis (template n v) = elided n v := by
  refine splice_template ellipsis elided ?_ ?_ ?_ ?_ n v
  · rintro (_ | _ | _ | _ | (_ | _) | (_ | _)) <;>
      simp [elided, isFilled, children, ellipsis, compact, compactItems, compactFields,
        commaSeparated]
  · exact elided_array
  · exact elided_object
  · rintro n (_ | _ | _ | _ | items | fields) harray hobject
    case array => exact absurd rfl (harray items)
    case object => exact absurd rfl (hobject fields)
    all_goals rw [elided]

/-! ## Ellipses are not compact texts -/

/-- A list of texts starts with the first one. -/
lemma exists_commaSeparated_cons (s : String) (rest : List String) :
    ∃ others, commaSeparated (s :: rest) = s ++ others := by
  rcases rest with _ | ⟨t, rest⟩
  · exact ⟨"", by simp [commaSeparated]⟩
  · exact ⟨"," ++ commaSeparated (t :: rest), by simp [commaSeparated, String.append_assoc]⟩

/-- The digits of a natural number start with a digit. -/
lemma exists_cons_toDigits (n : Nat) :
    ∃ c rest, Nat.toDigits 10 n = c :: rest ∧ c.isDigit = true := by
  obtain ⟨c, rest, h⟩ := List.exists_cons_of_ne_nil (Nat.toDigits_ne_nil (n := n) (b := 10))
  exact ⟨c, rest, h, Nat.isDigit_of_mem_toDigits (by decide) (by decide) (h ▸ List.mem_cons_self)⟩

/-- The digits of a double start with a digit, in either layout. -/
lemma exists_cons_decimalText (d : Decimal) :
    ∃ c rest, decimalText d = c :: rest ∧ c.isDigit = true := by
  obtain ⟨c, rest, hpositional, hc⟩ := d.exists_cons_positional
  obtain ⟨c', rest', hdigits, hc'⟩ := exists_cons_toDigits d.coefficient
  unfold decimalText
  split
  · split
    · exact ⟨c, rest ++ ['.', '0'], by simp [hpositional], hc⟩
    · exact ⟨c, rest, hpositional, hc⟩
  · exact ⟨c', _, by simp only [Decimal.scientific, Decimal.digits, hdigits]; rfl, hc'⟩

/-- A number does not start with a point. -/
lemma exists_cons_numberText (n : Number) : ∃ c rest, n.text.toList = c :: rest ∧ c ≠ '.' := by
  have hsigned : ∀ {s : List Char} (negative : Bool), (∃ c rest, s = c :: rest ∧ c.isDigit = true) →
      ∃ c rest, (if negative then '-' :: s else s) = c :: rest ∧ c ≠ '.' := by
    rintro s (_ | _) ⟨c, rest, hs, hc⟩
    · refine ⟨c, rest, hs, ?_⟩
      rintro rfl
      cases hc
    · exact ⟨'-', s, rfl, by decide⟩
  rcases n with ⟨n, h⟩ | ⟨x, h⟩
  · simpa [Number.text] using hsigned (decide (n < 0)) (exists_cons_toDigits n.natAbs)
  · rw [Number.text]
    split
    · rw [String.toList_ofList]
      refine hsigned _ ?_
      unfold doubleText
      split
      · exact ⟨'0', ['.', '0'], rfl, by decide⟩
      · exact exists_cons_decimalText _
    · exact ⟨'n', "ull".toList, rfl, by decide⟩

/-- The compact text of a value does not start with a point. -/
lemma exists_cons_compact (v : Json) : ∃ c rest, v.compact.toList = c :: rest ∧ c ≠ '.' := by
  rcases v with _ | b | n | s | items | fields
  · exact ⟨'n', "ull".toList, rfl, by decide⟩
  · rcases b with _ | _
    · exact ⟨'f', "alse".toList, rfl, by decide⟩
    · exact ⟨'t', "rue".toList, rfl, by decide⟩
  · exact exists_cons_numberText n
  · exact ⟨'"', _, by rw [compact, quote, String.toList_ofList], by decide⟩
  · exact ⟨'[', _, by simp only [compact, String.toList_append]; rfl, by decide⟩
  · exact ⟨'\x7b', _, by simp only [compact, String.toList_append]; rfl, by decide⟩

/-- An ellipsis can be told from the container for which it stands, whatever follows. -/
lemma ellipsis_append_ne {v : Json} (h : v.isFilled = true) (s t : String) :
    ellipsis v ++ s ≠ v.compact ++ t := by
  intro heq
  replace heq := congrArg String.toList heq
  rcases v with _ | _ | _ | _ | (_ | ⟨item, items⟩) | (_ | ⟨⟨name, value⟩, fields⟩) <;>
    try cases h
  · obtain ⟨c, rest, hc, hne⟩ := exists_cons_compact item
    obtain ⟨others, hothers⟩ := exists_commaSeparated_cons item.compact (compactItems items)
    rw [ellipsis, compact, compactItems, hothers] at heq
    simp only [String.toList_append, hc] at heq
    simp only [String.reduceToList, List.cons_append, List.nil_append, List.cons.injEq] at heq
    exact hne heq.2.1.symm
  · obtain ⟨others, hothers⟩ := exists_commaSeparated_cons
      (quote name ++ ":" ++ value.compact) (compactFields fields)
    rw [ellipsis, compact, compactFields, hothers] at heq
    simp [quote] at heq

/-- If an ellipsis makes no difference to a text, none was written. -/
lemma cuts_eq_nil_of_splice_eq {pieces : List Piece}
    (hfilled : ∀ v ∈ cuts pieces, v.isFilled = true)
    (h : splice ellipsis pieces = splice compact pieces) : cuts pieces = [] := by
  induction pieces with
  | nil => rfl
  | cons p pieces ih =>
    rw [splice_cons, splice_cons] at h
    rcases p with s | v
    · -- what is kept is the same in both texts
      have hrest : s.toList ++ (splice ellipsis pieces).toList =
          s.toList ++ (splice compact pieces).toList := by
        rw [← String.toList_append, ← String.toList_append]
        exact congrArg String.toList h
      exact ih hfilled (String.toList_inj.mp (List.append_cancel_left hrest))
    · exact absurd h (ellipsis_append_ne (hfilled v List.mem_cons_self) _ _)

/-- Where nothing is cut out, there is nothing to fill in. -/
lemma splice_congr {pieces : List Piece} (h : cuts pieces = []) (fill fill' : Json → String) :
    splice fill pieces = splice fill' pieces := by
  induction pieces with
  | nil => rfl
  | cons p pieces ih =>
    rcases p with s | v
    · rw [splice_cons, splice_cons, ih h]
      rfl
    · cases h

/-- The elided text is the compact one exactly if all containers inside `n` others are empty. -/
theorem elided_eq_compact_iff {n : Nat} {v : Json} :
    elided n v = v.compact ↔ ∀ w ∈ inside n v, w.children = [] := by
  have hcuts : cuts (template n v) = [] ↔ ∀ w ∈ inside n v, w.children = [] := by
    simp [cuts_template, isFilled_eq_false_iff]
  have htexts : elided n v = v.compact ↔
      splice ellipsis (template n v) = splice compact (template n v) := by
    rw [splice_ellipsis_template, splice_compact_template]
  rw [htexts, ← hcuts]
  constructor
  · refine cuts_eq_nil_of_splice_eq ?_
    rw [cuts_template]
    exact fun w hw => (List.mem_filter.mp hw).2
  · exact fun h => splice_congr h _ _

/-! ## What is cut out does not matter -/

/-- The value with the contents of its containers struck out that are not empty and lie inside `n`
others. -/
def redacted : Nat → Json → Json
  | 0, .array (_ :: _) => .array [.null]
  | 0, .object (_ :: _) => .object [("", .null)]
  | n + 1, .array items => .array (items.map (redacted n))
  | n + 1, .object fields => .object (fields.map fun field => (field.1, redacted n field.2))
  | _, v => v

/-- The elided text does not show what is struck out. -/
lemma elided_redacted (n : Nat) (v : Json) : elided n (redacted n v) = elided n v := by
  induction n generalizing v with
  | zero => rcases v with _ | _ | _ | _ | (_ | _) | (_ | _) <;> simp [redacted, elided]
  | succ n ih =>
    rcases v with _ | _ | _ | _ | items | fields
    case array => simp [redacted, elided_array, Function.comp_def, ih]
    case object => simp [redacted, elided_object, Function.comp_def, ih]
    all_goals rfl

/-- Fragments are the compact text cut at eight levels and nowhere else.  The fragment is the
compact text exactly if every container inside eight or more others is empty.  In general it is a
template filled in with ellipses which, filled in with compact texts, is the compact text; exactly
the containers are cut out of it that lie inside eight others and are not empty.  What they contain
makes no difference. -/
theorem fragment_cut_at_eight (raw : Json) :
    (raw.fragment = raw.compact ↔ ∀ n ≥ 8, ∀ v ∈ raw.inside n, v.children = []) ∧
    (splice ellipsis (raw.template 8) = raw.fragment ∧
      splice compact (raw.template 8) = raw.compact ∧
      cuts (raw.template 8) = (raw.inside 8).filter isFilled) ∧
    ∀ other : Json, raw.redacted 8 = other.redacted 8 → raw.fragment = other.fragment := by
  refine ⟨elided_eq_compact_iff.trans forall_inside_iff.symm,
    ⟨splice_ellipsis_template 8 raw, splice_compact_template 8 raw, cuts_template 8 raw⟩, ?_⟩
  intro other h
  calc raw.fragment = elided 8 (raw.redacted 8) := (elided_redacted 8 raw).symm
    _ = elided 8 (other.redacted 8) := by rw [h]
    _ = other.fragment := elided_redacted 8 other

/-- Inside eight containers an empty array is shown as it is, but one that is not empty is not, and
it does not matter what it holds. -/
theorem fragment_cut_at_eight_nested : ∃ nest : Json → Json,
    nest = (fun v => (fun u => .array [.object [("a", u), ("b", .array [])], .null])^[4] v) ∧
    (nest (.array [])).fragment = (nest (.array [])).compact ∧
    (nest (.array [.null])).fragment ≠ (nest (.array [.null])).compact ∧
    (nest (.array [.null])).fragment = (nest (.array [.bool true, .object []])).fragment := by
  obtain ⟨nest, hnest⟩ : ∃ nest : Json → Json,
      nest = fun v => (fun u => .array [.object [("a", u), ("b", .array [])], .null])^[4] v :=
    ⟨_, rfl⟩
  have hinside : ∀ v, (nest v).inside 8 = [v, .array []] := by
    intro v
    simp [hnest, inside, children]
  refine ⟨nest, hnest, ?_, ?_, ?_⟩
  · refine (fragment_cut_at_eight _).1.mpr (forall_inside_iff.mpr ?_)
    simp [hinside, children]
  · intro h
    have hempty := (fragment_cut_at_eight _).1.mp h 8 (Nat.le_refl 8)
    simp [hinside, children] at hempty
  · refine (fragment_cut_at_eight _).2.2 _ ?_
    simp [hnest, redacted]

end LetLang.Json
