import LetLang.Proofs.Malformed
import LetLang.Proofs.Sequencing

/-!
# Program documents

A document is a program exactly if it is an object with the one field `program` that holds an array;
every other document is the one expression of its program, with all its fields.

To find this out one can take the field `program` out of an object and, if it turns out that the
object is an expression after all, put it back (`Program.unwrapped`).  Nothing is lost that way if
the fields of the object are sorted by name, each name once.  `Json.Ordered` says that all objects
of a value are such; it is an invariant of the reader (`Expecting.Ordered.step`), so that it holds
of every value that is read from a text (`Json.ordered_of_parse`).
-/

namespace LetLang

namespace Json

/-! ## Sorted fields -/

/-- The fields are sorted by name, each name once. -/
def Sorted (fields : List (String × Json)) : Prop :=
  fields.Pairwise fun field field' => field.1 < field'.1

/-- A field of an object is the one that was set last or an earlier one. -/
lemma mem_insertField {name : String} {v : Json} {fields : List (String × Json)}
    {field : String × Json} (h : field ∈ insertField name v fields) :
    field = (name, v) ∨ field ∈ fields := by
  induction fields with
  | nil => exact .inl (List.mem_singleton.mp h)
  | cons first rest ih =>
    obtain ⟨other, old⟩ := first
    rw [insertField] at h
    split at h
    · rcases List.mem_cons.mp h with h | h
      · exact .inl h
      · exact .inr (List.mem_cons_of_mem _ h)
    · split at h
      · exact List.mem_cons.mp h
      · rcases List.mem_cons.mp h with h | h
        · exact .inr (h ▸ List.mem_cons_self)
        · exact (ih h).imp_right (List.mem_cons_of_mem _)

/-- Setting a field keeps the fields sorted. -/
lemma Sorted.insertField {fields : List (String × Json)} (h : Sorted fields) (name : String)
    (v : Json) : Sorted (insertField name v fields) := by
  induction fields with
  | nil => exact List.pairwise_singleton _ _
  | cons first rest ih =>
    obtain ⟨other, old⟩ := first
    obtain ⟨hfirst, hrest⟩ := List.pairwise_cons.mp h
    rw [Json.insertField]
    split
    · next heq =>
      subst heq
      exact List.pairwise_cons.mpr ⟨hfirst, hrest⟩
    · next hne =>
      split
      · next hlt =>
        refine List.pairwise_cons.mpr ⟨?_, h⟩
        intro field hfield
        rcases List.mem_cons.mp hfield with rfl | hfield
        · exact hlt
        · exact hlt.trans (hfirst field hfield)
      · next hnot =>
        refine List.pairwise_cons.mpr ⟨?_, ih hrest⟩
        intro field hfield
        rcases mem_insertField hfield with rfl | hfield
        · exact lt_of_le_of_ne (not_lt.mp hnot) (Ne.symm hne)
        · exact hfirst field hfield

/-- A field comes first if all names are greater. -/
lemma insertField_of_lt {name : String} {fields : List (String × Json)}
    (h : ∀ field ∈ fields, name < field.1) (v : Json) :
    insertField name v fields = (name, v) :: fields := by
  rcases fields with _ | ⟨⟨other, old⟩, rest⟩
  · rfl
  · have hlt : name < other := h _ List.mem_cons_self
    rw [insertField, if_neg hlt.ne, if_pos hlt]

/-- A field that was taken out of sorted fields can be put back. -/
lemma Sorted.insertField_eraseP {fields : List (String × Json)} (h : Sorted fields) {name : String}
    {v : Json} (hv : fields.lookup name = some v) :
    Json.insertField name v (fields.eraseP fun field => field.1 == name) = fields := by
  induction fields with
  | nil => cases hv
  | cons first rest ih =>
    obtain ⟨other, old⟩ := first
    obtain ⟨hfirst, hrest⟩ := List.pairwise_cons.mp h
    rcases eq_or_ne name other with rfl | hne
    · obtain rfl : old = v := by simpa using hv
      rw [List.eraseP_cons_of_pos (by simp)]
      exact insertField_of_lt hfirst old
    · have hlookup : rest.lookup name = some v := by
        rwa [List.lookup_cons, beq_eq_false_iff_ne.mpr hne] at hv
      -- the field stands behind this one, which therefore keeps its place
      have hlt : other < name := by
        obtain ⟨before, after, rfl, -⟩ := List.lookup_eq_some_iff.mp hlookup
        exact hfirst (name, v) (by simp)
      rw [List.eraseP_cons_of_neg (by simpa using hne.symm), Json.insertField, if_neg hne,
        if_neg hlt.not_gt, ih hrest hlookup]

/-! ## Ordered values -/

/-- All objects of the value have sorted fields. -/
inductive Ordered : Json → Prop
  | null : Ordered .null
  | bool (b : Bool) : Ordered (.bool b)
  | number (n : Number) : Ordered (.number n)
  | string (s : String) : Ordered (.string s)
  | array {items : List Json} (h : ∀ item ∈ items, Ordered item) : Ordered (.array items)
  | object {fields : List (String × Json)} (hsorted : Sorted fields)
      (h : ∀ field ∈ fields, Ordered field.2) : Ordered (.object fields)

lemma Ordered.insertField {fields : List (String × Json)} (h : Ordered (.object fields)) {v : Json}
    (hv : v.Ordered) (name : String) : Ordered (.object (insertField name v fields)) := by
  obtain ⟨_⟩ | ⟨_⟩ | ⟨_⟩ | ⟨_⟩ | ⟨_⟩ | ⟨hsorted, hvalues⟩ := h
  refine .object (hsorted.insertField name v) ?_
  intro field hfield
  rcases mem_insertField hfield with rfl | hfield
  · exact hv
  · exact hvalues field hfield

/-! ## The reader keeps fields sorted -/

/-- The value of a scalar token is ordered. -/
def Token.Ordered : Token → Prop
  | .scalar v => v.Ordered
  | _ => True

/-- Brackets, commas and the like carry no value. -/
lemma Token.ordered_of_punctuation? {c : Char} {t : Token} (h : punctuation? c = some t) :
    t.Ordered := by
  unfold punctuation? at h
  repeat' split at h
  all_goals
    cases h
    try trivial

/-- The words stand for scalars. -/
lemma Token.ordered_of_word? {c : Char} {v : Json} {word : List Char}
    (h : word? c = some (v, word)) : v.Ordered := by
  unfold word? at h
  repeat' split at h
  all_goals cases h
  · exact .null
  · exact .bool true
  · exact .bool false

/-- A number is a scalar. -/
lemma Token.ordered_of_numberToken {s rest : List Char} {t : Token}
    (h : numberToken s = .ok (t, rest)) : t.Ordered := by
  unfold numberToken at h
  split at h
  · cases h
  · split at h <;> cases h
    exact .number _

/-- What is read as a token is ordered. -/
lemma Token.ordered_of_next {c : Char} {rest rest' : List Char} {t : Token}
    (h : next c rest = .ok (t, rest')) : t.Ordered := by
  unfold next at h
  split at h
  · next hpunctuation =>
    cases h
    exact ordered_of_punctuation? hpunctuation
  · split at h
    · unfold textToken at h
      split at h <;> cases h
      trivial
    · split at h
      · next hword =>
        unfold wordToken at h
        split at h <;> cases h
        exact ordered_of_word? hword
      · split at h
        · exact ordered_of_numberToken h
        · cases h

/-- The tokens of a text are ordered. -/
lemma Token.ordered_of_mem_scan (s : List Char) : ∀ t ∈ scan s, t.Ordered := by
  fun_induction scan s with
  | case1 => simp
  | case2 c rest hblank ih => exact ih
  | case3 c rest hblank e he => simp [Token.Ordered]
  | case4 c rest hblank t rest' hnext hlength ih =>
    exact List.forall_mem_cons.mpr ⟨ordered_of_next hnext, ih⟩

/-- The earlier parts of a container are ordered. -/
def Enclosing.Ordered : Enclosing → Prop
  | .list items => ∀ item ∈ items, item.Ordered
  | .field fields _ => (Json.object fields).Ordered

namespace Expecting

/-- Everything that was read so far is ordered. -/
def Ordered : Expecting → Prop
  | .value around => ∀ c ∈ around, c.Ordered
  | .item _ items around => (∀ item ∈ items, item.Ordered) ∧ ∀ c ∈ around, c.Ordered
  | .key _ fields around => (Json.object fields).Ordered ∧ ∀ c ∈ around, c.Ordered
  | .colon fields _ around => (Json.object fields).Ordered ∧ ∀ c ∈ around, c.Ordered
  | .after v around => v.Ordered ∧ ∀ c ∈ around, c.Ordered

/-- An empty object is ordered. -/
lemma ordered_empty : (Json.object []).Ordered := .object .nil (List.forall_mem_nil _)

/-- A container that was opened is the one that was asked for. -/
lemma eq_of_opened {around : List Enclosing} {inside state : Expecting}
    (h : opened around inside = .ok state) : inside = state := by
  unfold opened at h
  split at h <;> cases h
  rfl

/-- The first token of a value keeps everything ordered. -/
lemma ordered_of_start {around : List Enclosing} {state : Expecting} {t : Token}
    (h : ∀ c ∈ around, c.Ordered) (ht : t.Ordered) (hstart : start around t = .ok state) :
    state.Ordered := by
  unfold start at hstart
  split at hstart
  · obtain rfl := eq_of_opened hstart
    exact ⟨List.forall_mem_nil _, h⟩
  · obtain rfl := eq_of_opened hstart
    exact ⟨ordered_empty, h⟩
  · cases hstart
    exact ⟨.string _, h⟩
  · cases hstart
    exact ⟨ht, h⟩
  all_goals cases hstart

/-- An array is ordered if its items are, in whatever order they were collected. -/
lemma ordered_array_reverse {items : List Json} (h : ∀ item ∈ items, item.Ordered) :
    (Json.array items.reverse).Ordered :=
  .array fun item hitem => h item (List.mem_reverse.mp hitem)

/-- What follows a value keeps everything ordered. -/
lemma ordered_of_stepAfter {v : Json} {around : List Enclosing} {state : Expecting} {t : Token}
    (hv : v.Ordered) (h : ∀ c ∈ around, c.Ordered) (hstep : stepAfter v around t = .ok state) :
    state.Ordered := by
  unfold stepAfter at hstep
  split at hstep <;> cases hstep <;> obtain ⟨hinner, houter⟩ := List.forall_mem_cons.mp h
  · exact ⟨List.forall_mem_cons.mpr ⟨hv, hinner⟩, houter⟩
  · exact ⟨ordered_array_reverse (List.forall_mem_cons.mpr ⟨hv, hinner⟩), houter⟩
  · exact ⟨Json.Ordered.insertField hinner hv _, houter⟩
  · exact ⟨Json.Ordered.insertField hinner hv _, houter⟩

/-- One token keeps everything ordered. -/
lemma Ordered.step {state state' : Expecting} {t : Token} (h : state.Ordered) (ht : t.Ordered)
    (hstep : state.step t = .ok state') : state'.Ordered := by
  rcases state with around | ⟨afterComma, items, around⟩ | ⟨afterComma, fields, around⟩ |
    ⟨fields, name, around⟩ | ⟨v, around⟩
  · exact ordered_of_start h ht hstep
  · obtain ⟨hitems, haround⟩ := h
    rw [Expecting.step] at hstep
    unfold stepItem at hstep
    split at hstep
    · split at hstep <;> cases hstep
      exact ⟨ordered_array_reverse hitems, haround⟩
    · have hlist : ∀ c ∈ Enclosing.list items :: around, c.Ordered :=
        List.forall_mem_cons.mpr ⟨hitems, haround⟩
      exact ordered_of_start hlist ht hstep
  · rw [Expecting.step] at hstep
    unfold stepKey at hstep
    split at hstep
    · split at hstep <;> cases hstep
      exact h
    · cases hstep
      exact h
    all_goals cases hstep
  · rcases t with _ | _ | _ | _ | _ | _ | _ | _ | _ <;> cases hstep
    exact List.forall_mem_cons.mpr h
  · exact ordered_of_stepAfter h.1 h.2 hstep

/-- What is read from ordered tokens is ordered. -/
lemma Ordered.run {tokens : List Token} {state : Expecting} {v : Json} (h : state.Ordered)
    (htokens : ∀ t ∈ tokens, t.Ordered) (hrun : state.run tokens = .ok v) : v.Ordered := by
  induction tokens generalizing state with
  | nil =>
    rcases state with _ | _ | _ | _ | ⟨w, _ | ⟨_ | _, _⟩⟩ <;> cases hrun
    exact h.1
  | cons t tokens ih =>
    obtain ⟨ht, htokens⟩ := List.forall_mem_cons.mp htokens
    rw [Expecting.run] at hrun
    split at hrun
    · cases hrun
    · next state' hstep => exact ih (h.step ht hstep) htokens hrun

end Expecting

/-- Every value that is read from a text is ordered. -/
theorem ordered_of_parse {text : String} {v : Json} (h : parse text = .ok v) : v.Ordered := by
  refine Expecting.Ordered.run ?_ (Token.ordered_of_mem_scan text.toList) h
  simp [Expecting.Ordered]

end Json

namespace Program

/-! ## Documents -/

/-- The document is an object with the one field `program`, which lists the expressions. -/
def Wraps (document : Json) (expressions : List Json) : Prop :=
  ∃ fields, document = .object fields ∧ fields.map Prod.fst = ["program"] ∧
    fields.lookup "program" = some (.array expressions)

/-- The only document that lists the expressions is the object with the one field. -/
lemma wraps_iff {document : Json} {expressions : List Json} :
    Wraps document expressions ↔ document = .object [("program", .array expressions)] := by
  constructor
  · rintro ⟨fields, rfl, hnames, hlookup⟩
    obtain ⟨⟨name, v⟩, rfl, rfl⟩ := List.map_eq_singleton_iff.mp hnames
    obtain rfl : v = .array expressions := by simpa using hlookup
    rfl
  · rintro rfl
    exact ⟨_, rfl, rfl, by simp⟩

/-- A document that lists expressions is the program with these expressions. -/
lemma ofDocument_of_wraps {document : Json} {expressions : List Json}
    (h : Wraps document expressions) : ofDocument document = ⟨expressions⟩ := by
  rw [wraps_iff.mp h, ofDocument, if_pos rfl]

/-- Every other document is an expression. -/
lemma ofDocument_of_not_wraps {document : Json} (h : ∀ expressions, ¬Wraps document expressions) :
    ofDocument document = ⟨[document]⟩ := by
  unfold ofDocument
  split
  · next name expressions =>
    refine if_neg ?_
    rintro rfl
    exact h expressions (wraps_iff.mpr rfl)
  · rfl

/-- The program of a document, found by taking the field `program` out of an object and putting it
back if the object turns out to be an expression. -/
def unwrapped : Json → Program
  | .object fields =>
    let others := fields.eraseP fun field => field.1 == "program"
    match fields.lookup "program", others with
    | some (.array expressions), [] => ⟨expressions⟩
    | some v, _ => ⟨[.object (Json.insertField "program" v others)]⟩
    | none, _ => ⟨[.object others]⟩
  | document => ⟨[document]⟩

/-- Taking the field out and putting it back loses nothing. -/
lemma unwrapped_eq_ofDocument {document : Json} (h : document.Ordered) :
    unwrapped document = ofDocument document := by
  rcases h with _ | _ | _ | _ | _ | @⟨fields, hsorted, -⟩
  case object =>
    rw [unwrapped]
    split
    · next expressions hlookup hothers =>
      have hback := hsorted.insertField_eraseP hlookup
      rw [hothers] at hback
      exact (ofDocument_of_wraps (wraps_iff.mpr (congrArg Json.object hback.symm))).symm
    · next hlookup hother =>
      rw [hsorted.insertField_eraseP hlookup, ofDocument_of_not_wraps]
      intro expressions hwraps
      obtain rfl := Json.object.inj (wraps_iff.mp hwraps)
      exact hother expressions (by simp) (by simpa using hlookup.symm)
    · next hlookup =>
      have hkept : fields.eraseP (fun field => field.1 == "program") = fields := by
        refine List.eraseP_of_forall_not ?_
        intro field hfield hname
        have hne := List.lookup_eq_none_iff.mp hlookup field hfield
        simp [beq_iff_eq.mp hname] at hne
      rw [hkept, ofDocument_of_not_wraps]
      rintro expressions ⟨_, hfields, -, hsome⟩
      obtain rfl := Json.object.inj hfields
      rw [hlookup] at hsome
      cases hsome
  all_goals rfl

/-- An object is not an expression. -/
lemma run_object (fields : List (String × Json)) (i : Interpreter) :
    run ⟨[.object fields]⟩ i =
      ⟨[], some (.unimplemented ("unrecognized expression: " ++ (Json.object fields).fragment)), i,
        [.fail 0
          (.unimplemented ("unrecognized expression: " ++ (Json.object fields).fragment))]⟩ := by
  have hread : Expr.ofJson (.object fields) = .error ⟨.object fields⟩ := Expr.ofJson_unknown rfl
  have heval := Json.evaluate_of_unrecognized hread i.limit i.env
  have hresult : (i.evalJson (.object fields)).result = _ := congrArg Outcome.result heval
  rw [run, runFrom_cons_of_error hresult]
  simp [Interpreter.evalJson, Interpreter.after, heval]

/-- Program documents are recognised exactly, and nothing of any other document is lost.

A document that is an object with the one field `program` and lists expressions there has exactly
these expressions; every other document is the one expression of its program, and listing it as such
gives the same program.  Every list of expressions has a document.  An object that is no such
document makes a run fail at its first expression, which names the whole object, and neither output
nor bindings come of it.

It makes no difference if the field is taken out of an object before it is known what the object is,
and put back.  This holds of all values with sorted fields, which include all that are read from
texts. -/
theorem ofDocument_recognizes_programs :
    (∀ document expressions, Wraps document expressions →
      (ofDocument document).expressions = expressions) ∧
    (∀ document, (∀ expressions, ¬Wraps document expressions) →
      (ofDocument document).expressions = [document] ∧
      ofDocument (.object [("program", .array [document])]) = ofDocument document) ∧
    (∀ expressions, ∃ document, (ofDocument document).expressions = expressions ∧
      ((∀ raw ∈ expressions, raw.Ordered) → document.Ordered)) ∧
    (∀ fields, (∀ expressions, ¬Wraps (.object fields) expressions) → ∀ i : Interpreter,
      let failure : Failure :=
        .unimplemented ("unrecognized expression: " ++ (Json.object fields).fragment)
      (ofDocument (.object fields)).run i = ⟨[], some failure, i, [.fail 0 failure]⟩) ∧
    (∀ document, document.Ordered → unwrapped document = ofDocument document) ∧
    ∀ text document, Json.parse text = .ok document → document.Ordered := by
  have hlisted : ∀ expressions,
      ofDocument (.object [("program", .array expressions)]) = ⟨expressions⟩ :=
    fun expressions => ofDocument_of_wraps (wraps_iff.mpr rfl)
  refine ⟨?_, ?_, ?_, ?_, fun _ => unwrapped_eq_ofDocument, fun _ _ => Json.ordered_of_parse⟩
  · intro document expressions h
    rw [ofDocument_of_wraps h]
  · intro document h
    rw [ofDocument_of_not_wraps h]
    exact ⟨rfl, hlisted [document]⟩
  · intro expressions
    refine ⟨.object [("program", .array expressions)], by rw [hlisted], fun hordered => ?_⟩
    exact .object (List.pairwise_singleton _ _) (List.forall_mem_singleton.mpr (.array hordered))
  · intro fields h i
    rw [ofDocument_of_not_wraps h]
    exact run_object fields i

/-- A list of expressions beside other fields is not a program: the object is reported as a whole,
with its fields in the order of their names and the last value of a name that was given twice. -/
theorem ofDocument_recognizes_programs_beside_fields : ∃ document : Json,
    Json.parse "\x7b\"program\":[],\"z\":1,\"program\":[2],\"a\":null\x7d" = .ok document ∧
    document.Ordered ∧ unwrapped document = ofDocument document ∧
    (ofDocument document).expressions = [document] ∧
    (ofDocument (.object [("program", .array [document])])).expressions = [document] ∧
    ((ofDocument document).run .host).failure = some (.unimplemented
      "unrecognized expression: \x7b\"a\":null,\"program\":[2],\"z\":1\x7d") := by
  obtain ⟨hlisted, hexpression, -, hfails, hunwrapped, hordered⟩ := ofDocument_recognizes_programs
  let fields : List (String × Json) := [("a", .null),
    ("program", .array [.number (.integer 2 (by decide))]), ("z", .number (.integer 1 (by decide)))]
  have hparse : Json.parse "\x7b\"program\":[],\"z\":1,\"program\":[2],\"a\":null\x7d" =
      .ok (.object fields) := by
    with_unfolding_all rfl
  have hnot : ∀ expressions, ¬Wraps (.object fields) expressions := by
    intro expressions h
    have heq := wraps_iff.mp h
    simp [fields] at heq
  have hfragment : (Json.object fields).fragment =
      "\x7b\"a\":null,\"program\":[2],\"z\":1\x7d" := by
    decide +kernel
  refine ⟨.object fields, hparse, hordered _ _ hparse, hunwrapped _ (hordered _ _ hparse),
    (hexpression _ hnot).1, hlisted _ _ (wraps_iff.mpr rfl), ?_⟩
  rw [hfails fields hnot, hfragment]
  rfl

end Program

end LetLang
