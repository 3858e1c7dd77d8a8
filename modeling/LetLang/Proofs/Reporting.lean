import LetLang.Command
import Mathlib.Data.List.Forall2

/-!
# What the command reports

A script that calls the command sees its exit status and its two outputs.  There are four things
that can happen: help is asked for, there are too many arguments, there is no document to run
(`NoDocument`), or a program runs (`Runs`).  Each has one equation for the report
(`report_of_help`, `report_of_many`, `report_of_noDocument`, `report_of_runs`), and the rest
follows from these: the exit status is 1 exactly if something is on the standard error
(`consistent_report`), and the values of a program stand alone on the standard output.

Nothing is assumed about the sources of documents.  `Takes` says which reading the arguments ask
for.  In every monad the command reads that once and nothing else, and then reports what it reports
where reading just gives the same content (`report_eq_bind`).  So the monad without effects is
enough to say what is reported.  The source of a document shows only in messages about reading, and
the same text gives the same report from a file and from the standard input (`report_of_text`).
-/

namespace LetLang

/-- The status of a report is 1 if there is a message on the standard error, and 0 otherwise. -/
def Report.Consistent (r : Report) : Prop :=
  (r.status = 0 ∧ r.stderr = "") ∨ (r.status = 1 ∧ r.stderr ≠ "")

/-- Sources that all have the same content. -/
def Sources.always (content : Except ReadFailure ByteArray) : Sources Id :=
  ⟨content, fun _ => content⟩

namespace Command

/-! ## What can happen -/

/-- The arguments ask how the command is used. -/
def AsksHelp (arguments : List String) : Prop := arguments = ["-h"] ∨ arguments = ["--help"]

/-- `Takes sources arguments source reading` says that the arguments ask for the document that
`reading` gives, which messages call `source`. -/
inductive Takes {m : Type → Type} (sources : Sources m) :
    List String → String → m (Except ReadFailure ByteArray) → Prop
  /-- Without an argument the standard input is read. -/
  | nothing : Takes sources [] "<stdin>" sources.stdin
  /-- A dash stands for the standard input. -/
  | dash : Takes sources ["-"] "<stdin>" sources.stdin
  /-- Every other argument that does not ask for help is a path. -/
  | path {path : String} (hpath : path ∉ ["-", "-h", "--help"]) :
      Takes sources [path] path (sources.file path)

/-- `NoDocument locate sources arguments message` says that the arguments ask for a document that
cannot be had, for the reason that the message gives. -/
inductive NoDocument (locate : String → String) (sources : Sources Id)
    (arguments : List String) : String → Prop
  /-- The source cannot be read. -/
  | unreadable {source : String} {failure : ReadFailure}
      (h : Takes sources arguments source (.error failure)) :
      NoDocument locate sources arguments ("cannot read " ++ source ++ ": " ++ failure.message)
  /-- The bytes are not UTF-8. -/
  | notText {source : String} {bytes : ByteArray}
      (h : Takes sources arguments source (.ok bytes)) (hbytes : ¬bytes.IsValidUTF8) :
      NoDocument locate sources arguments
        ("cannot read " ++ source ++ ": " ++ ReadFailure.notText.message)
  /-- The text is not JSON; the message ends with the place of the fault. -/
  | notJson {source text : String} {fault : Json.SyntaxError}
      (h : Takes sources arguments source (.ok text.toUTF8))
      (hfault : Json.parse text = .error fault) :
      NoDocument locate sources arguments ("invalid JSON: " ++ fault.message ++ locate text)

/-- The arguments ask for a document that stands for the program. -/
def Runs (sources : Sources Id) (arguments : List String) (p : Program) : Prop :=
  ∃ source text, Takes sources arguments source (.ok text.toUTF8) ∧ Program.parse text = .ok p

/-- An argument that is none of the three special ones is a path. -/
lemma ofArguments?_of_path {path : String} (hpath : path ∉ ["-", "-h", "--help"]) :
    Invocation.ofArguments? [path] = some (.file path) := by
  obtain ⟨hdash, hshort, hlong⟩ : path ≠ "-" ∧ path ≠ "-h" ∧ path ≠ "--help" := by
    simpa using hpath
  simp [Invocation.ofArguments?, hdash, hshort, hlong]

/-! ## Reading -/

section Monads

variable {m : Type → Type} {sources : Sources m} {arguments : List String}

/-- Unless help is asked for or there are too many arguments, there is something to read. -/
lemma exists_takes (sources : Sources m) (hhelp : ¬AsksHelp arguments)
    (hlength : arguments.length < 2) :
    ∃ source reading, Takes sources arguments source reading := by
  match arguments with
  | [] => exact ⟨_, _, .nothing⟩
  | [path] =>
    by_cases hdash : path = "-"
    · subst hdash
      exact ⟨_, _, .dash⟩
    · have hpath : path ∉ ["-", "-h", "--help"] := by
        simpa [AsksHelp, hdash] using hhelp
      exact ⟨_, _, .path hpath⟩
  | _ :: _ :: _ =>
    simp only [List.length_cons] at hlength
    omega

variable [Monad m] (locate : String → String)

/-- A request for help is answered with the usage, and nothing is read. -/
lemma report_of_help (h : AsksHelp arguments) :
    report locate sources arguments = pure ⟨0, usage, ""⟩ := by
  have hhelp : Invocation.ofArguments? arguments = some .help := by
    rcases h with rfl | rfl <;> decide
  rw [report, hhelp]
  rfl

/-- More than one argument is answered with the usage and a message, and nothing is read. -/
lemma report_of_many (h : 2 ≤ arguments.length) :
    ∃ message, report locate sources arguments = pure ⟨1, usage, errorLine message ++ "\n"⟩ := by
  match arguments with
  | [] => simp at h
  | [_] => simp at h
  | _ :: _ :: _ => exact ⟨_, rfl⟩

/-- What the arguments ask for is read, and reported on under the name of its source. -/
lemma report_of_takes {source : String} {reading : m (Except ReadFailure ByteArray)}
    (h : Takes sources arguments source reading) :
    report locate sources arguments =
      reading >>= fun content => pure (reportRead locate source content) := by
  cases h with
  | nothing => rfl
  | dash =>
    have hdash : Invocation.ofArguments? ["-"] = some .stdin := by decide
    rw [report, hdash]
    rfl
  | path hpath => rw [report, ofArguments?_of_path hpath]

/-- In every monad the command reads once, and then reports what it reports wherever this is the
content. -/
theorem report_eq_bind {source : String} {reading : m (Except ReadFailure ByteArray)}
    (h : Takes sources arguments source reading) :
    report locate sources arguments =
      reading >>= fun content => pure (report locate (.always content) arguments).run := by
  have halways : ∀ content, Takes (m := Id) (.always content) arguments source content := by
    intro content
    cases h with
    | nothing => exact .nothing
    | dash => exact .dash
    | path hpath => exact .path hpath
  rw [report_of_takes locate h]
  congr
  funext content
  rw [report_of_takes locate (halways content)]
  rfl

end Monads

/-! ## How it is reported -/

section Cases

variable {locate : String → String} {sources : Sources Id} {arguments : List String}

/-- Bytes in UTF-8 are those of a text. -/
lemma exists_eq_toUTF8 {bytes : ByteArray} (h : bytes.IsValidUTF8) :
    ∃ text : String, bytes = text.toUTF8 :=
  ⟨String.fromUTF8 bytes h, rfl⟩

/-- Unless help is asked for or there are too many arguments, there is no document or a program. -/
lemma noDocument_or_runs (hhelp : ¬AsksHelp arguments) (hlength : arguments.length < 2) :
    (∃ message, NoDocument locate sources arguments message) ∨
      ∃ p, Runs sources arguments p := by
  obtain ⟨source, reading, h⟩ := exists_takes sources hhelp hlength
  rcases reading with failure | bytes
  · exact .inl ⟨_, .unreadable h⟩
  by_cases hbytes : bytes.IsValidUTF8
  · obtain ⟨text, rfl⟩ := exists_eq_toUTF8 hbytes
    cases hparse : Json.parse text with
    | error fault => exact .inl ⟨_, .notJson h hparse⟩
    | ok document =>
      refine .inr ⟨Program.ofDocument document, source, text, h, ?_⟩
      rw [Program.parse, hparse]
      rfl
  · exact .inl ⟨_, .notText h hbytes⟩

/-- The source of a text does not show in its report. -/
lemma report_of_text {source text : String}
    (h : Takes sources arguments source (.ok text.toUTF8)) :
    (report locate sources arguments).run = reportText locate text := by
  have hvalid : text.toUTF8.IsValidUTF8 := text.isValidUTF8
  have htext : String.fromUTF8? text.toUTF8 = some text := by
    rw [String.fromUTF8?, dif_pos hvalid]
    rfl
  have hbytes : reportBytes locate source text.toUTF8 = reportText locate text := by
    rw [reportBytes, htext]
  rw [report_of_takes locate h]
  exact hbytes

/-- If there is no document, the report is one message. -/
lemma report_of_noDocument {message : String} (h : NoDocument locate sources arguments message) :
    (report locate sources arguments).run = ⟨1, "", errorLine message⟩ := by
  cases h with
  | unreadable h =>
    rw [report_of_takes locate h]
    rfl
  | @notText source bytes h hbytes =>
    have hreport : reportBytes locate source bytes = reportUnreadable source .notText := by
      rw [reportBytes, String.fromUTF8?, dif_neg hbytes]
    rw [report_of_takes locate h]
    exact hreport
  | @notJson _ text fault h hfault =>
    have hparse : Program.parse text = .error fault := by
      rw [Program.parse, hfault]
      rfl
    rw [report_of_text h, reportText, hparse]

/-- A document is reported on by the run of its program. -/
lemma report_of_runs {p : Program} (h : Runs sources arguments p) :
    (report locate sources arguments).run = reportRun p := by
  obtain ⟨source, text, htakes, hparse⟩ := h
  rw [report_of_text htakes, reportText, hparse]

end Cases

/-! ## How values are shown -/

/-- `Displays v text` says that the value is shown as the text. -/
inductive Displays : Value → String → Prop
  | number (x : Float) : Displays (.number x) (numberText x)
  /-- A string is shown without quotes. -/
  | string (s : String) : Displays (.string s) s
  | true : Displays (.bool true) "true"
  | false : Displays (.bool false) "false"
  | null : Displays .null "null"

/-- A value is shown in one way. -/
lemma displays_iff {v : Value} {text : String} : Displays v text ↔ v.text = text := by
  constructor
  · rintro (_ | _ | _ | _ | _) <;> rfl
  · rintro rfl
    match v with
    | .number x => exact .number x
    | .string s => exact .string s
    | .bool true => exact .true
    | .bool false => exact .false
    | .null => exact .null

/-- Values are shown one by one. -/
lemma forall₂_displays_iff {vs : List Value} {lines : List String} :
    List.Forall₂ Displays vs lines ↔ vs.map Value.text = lines := by
  have hdisplays : Displays = fun v text => v.text = text := by
    funext v text
    exact propext displays_iff
  rw [hdisplays, ← List.forall₂_map_left_iff, List.forall₂_eq_eq_eq]

/-- What a program has emitted is reported, each value on a line; then there is the wording of its
failure, or nothing if it has none. -/
lemma reportRun_cases (p : Program) :
    ∃ lines, List.Forall₂ Displays (p.run .host).output lines ∧
      let shown := String.join (lines.map fun text => text ++ "\n")
      ((p.run .host).failure = none ∧ reportRun p = ⟨0, shown, ""⟩) ∨
        ∃ failure, (p.run .host).failure = some failure ∧
          reportRun p = ⟨1, shown, errorLine failure.message⟩ := by
  refine ⟨_, forall₂_displays_iff.mpr rfl, ?_⟩
  rw [List.map_map]
  cases hfailure : (p.run .host).failure with
  | none =>
    refine .inl ⟨rfl, ?_⟩
    simp only [reportRun, hfailure]
    rfl
  | some failure =>
    refine .inr ⟨failure, rfl, ?_⟩
    simp only [reportRun, hfailure]
    rfl

/-- A message is never empty. -/
lemma errorLine_ne_empty (message : String) : errorLine message ≠ "" := by
  simp [errorLine, line]

/-- The status tells whether there is a message, whatever has happened. -/
theorem consistent_report (locate : String → String) (sources : Sources Id)
    (arguments : List String) : (report locate sources arguments).run.Consistent := by
  by_cases hhelp : AsksHelp arguments
  · rw [report_of_help locate hhelp]
    exact .inl ⟨rfl, rfl⟩
  by_cases hmany : 2 ≤ arguments.length
  · obtain ⟨message, hreport⟩ : ∃ message, report locate sources arguments =
        pure ⟨1, usage, errorLine message ++ "\n"⟩ := report_of_many locate hmany
    rw [hreport]
    exact .inr ⟨rfl, by simp⟩
  rcases noDocument_or_runs hhelp (Nat.lt_of_not_le hmany) with ⟨message, hno⟩ | ⟨p, hruns⟩
  · rw [report_of_noDocument hno]
    exact .inr ⟨rfl, errorLine_ne_empty message⟩
  · rw [report_of_runs hruns]
    obtain ⟨lines, -, ⟨-, hreport⟩ | ⟨failure, -, hreport⟩⟩ := reportRun_cases p
    · rw [hreport]
      exact .inl ⟨rfl, rfl⟩
    · rw [hreport]
      exact .inr ⟨rfl, errorLine_ne_empty failure.message⟩

/-- The command reports exactly what has happened.  Its status is 0 or 1, and 1 exactly if something
is on the standard error.  A request for help and too many arguments are answered with the usage,
whatever there is to read.  Otherwise there is no document, and then only a message about that, or a
program runs: the standard output shows the values it emits, each on a line and also those before a
failure, and the standard error shows the failure, if there is one.  A text in any file that can be
read is reported on as the same text on the standard input.  Where reading has effects, the command
reads once what the arguments ask for, and reports on what it gets as it does without effects. -/
theorem report_tells_what_happened (locate : String → String) (sources : Sources Id)
    (arguments : List String) :
    let r := (report locate sources arguments).run
    (r.status = 0 ∨ r.status = 1) ∧ (r.status = 1 ↔ r.stderr ≠ "") ∧
    (AsksHelp arguments → r.status = 0 ∧ r.stdout = usage) ∧
    (2 ≤ arguments.length → r.status = 1 ∧ r.stdout = usage) ∧
    (¬AsksHelp arguments → arguments.length < 2 →
      (∃ message, NoDocument locate sources arguments message) ∨
        ∃ p, Runs sources arguments p) ∧
    (∀ message, NoDocument locate sources arguments message →
      r.stdout = "" ∧ r.stderr = "error: " ++ message ++ "\n") ∧
    (∀ p, Runs sources arguments p →
      (∃ lines, List.Forall₂ Displays (p.run .host).output lines ∧
        r.stdout = String.join (lines.map fun text => text ++ "\n")) ∧
      (((p.run .host).failure = none ∧ r.stderr = "") ∨
        ∃ failure, (p.run .host).failure = some failure ∧
          r.stderr = "error: " ++ failure.message ++ "\n")) ∧
    (∀ path bytes, path ∉ ["-", "-h", "--help"] → bytes.IsValidUTF8 →
      sources.file path = .ok bytes → ∀ elsewhere : Sources Id, elsewhere.stdin = .ok bytes →
        report locate sources [path] = report locate elsewhere [] ∧
        report locate sources [path] = report locate elsewhere ["-"]) ∧
    ∀ (m : Type → Type) [Monad m] (live : Sources m) (source : String)
      (reading : m (Except ReadFailure ByteArray)), Takes live arguments source reading →
        report locate live arguments =
          reading >>= fun content => pure (report locate (.always content) arguments).run := by
  intro r
  have hconsistent : r.Consistent := consistent_report locate sources arguments
  refine ⟨hconsistent.imp And.left And.left, ?_, ?_, ?_, noDocument_or_runs, ?_, ?_, ?_,
    fun _ _ _ _ _ h => report_eq_bind locate h⟩
  · rcases hconsistent with ⟨hstatus, hstderr⟩ | ⟨hstatus, hstderr⟩
    · simp [hstatus, hstderr]
    · simp [hstatus, hstderr]
  · intro hhelp
    have hr : r = ⟨0, usage, ""⟩ := report_of_help locate hhelp
    simp [hr]
  · intro hmany
    obtain ⟨message, hr⟩ : ∃ message, r = ⟨1, usage, errorLine message ++ "\n"⟩ :=
      report_of_many locate hmany
    simp [hr]
  · intro message hno
    have hr : r = ⟨1, "", errorLine message⟩ := report_of_noDocument hno
    rw [hr]
    exact ⟨rfl, rfl⟩
  · intro p hruns
    have hr : r = reportRun p := report_of_runs hruns
    obtain ⟨lines, hlines, ⟨hfailure, hreport⟩ | ⟨failure, hfailure, hreport⟩⟩ :=
      reportRun_cases p
    · rw [hr, hreport]
      exact ⟨⟨lines, hlines, rfl⟩, .inl ⟨hfailure, rfl⟩⟩
    · rw [hr, hreport]
      exact ⟨⟨lines, hlines, rfl⟩, .inr ⟨failure, hfailure, rfl⟩⟩
  · intro path bytes hpath hbytes hfile elsewhere hstdin
    obtain ⟨text, rfl⟩ := exists_eq_toUTF8 hbytes
    have hpath' : Takes sources [path] path (.ok text.toUTF8) := by
      rw [← hfile]
      exact .path hpath
    have hnothing : Takes elsewhere [] "<stdin>" (.ok text.toUTF8) := by
      rw [← hstdin]
      exact .nothing
    have hdash : Takes elsewhere ["-"] "<stdin>" (.ok text.toUTF8) := by
      rw [← hstdin]
      exact .dash
    exact ⟨(report_of_text hpath').trans (report_of_text hnothing).symm,
      (report_of_text hpath').trans (report_of_text hdash).symm⟩

/-- A program at an absolute path emits two values before it fails, and does the same from the
standard input.  Another file is not JSON, and the standard input is a directory. -/
theorem report_tells_what_happened_of_files :
    let text := "\x7b\"program\":[[\"let\",\"x\",1],[\"+\",\"x\",2],\"y\"]\x7d"
    let sources : Sources Id := ⟨.error .isDirectory,
      fun path => .ok (if path = "/srv/p.json" then text.toUTF8 else "[".toUTF8)⟩
    let report := report (fun _ => " at line 1 column 1")
    (report sources ["/srv/p.json"]).run.stdout = "1\n3\n" ∧
      (report sources ["/srv/p.json"]).run.stderr = "error: Variable \"y\" is not defined\n" ∧
      report sources ["/srv/p.json"] = report (.always (.ok text.toUTF8)) [] ∧
      report sources ["/srv/p.json"] = report (.always (.ok text.toUTF8)) ["-"] ∧
      (report sources ["../q.json"]).run.stdout = "" ∧
      (report sources ["../q.json"]).run.stderr =
        "error: invalid JSON: EOF while parsing a list at line 1 column 1\n" ∧
      (report sources ["-"]).run.stdout = "" ∧
      (report sources ["-"]).run.stderr =
        "error: cannot read <stdin>: Is a directory (os error 21)\n" := by
  let p : Program := ⟨[.array [.string "let", .string "x", .number (.integer 1 (by decide))],
    .array [.string "+", .string "x", .number (.integer 2 (by decide))], .string "y"]⟩
  have hjson : Json.parse "\x7b\"program\":[[\"let\",\"x\",1],[\"+\",\"x\",2],\"y\"]\x7d" =
      .ok (.object [("program", .array p.expressions)]) := by
    with_unfolding_all rfl
  intro text sources report
  have hparse : Program.parse text = .ok p := by
    rw [Program.parse, hjson]
    rfl
  have houtput : (p.run .host).output.map Value.text = ["1", "3"] := by decide +kernel
  have hfailure : (p.run .host).failure = some (.undefinedVariable "y") := by decide +kernel
  have hfile : sources.file "/srv/p.json" = .ok text.toUTF8 := by
    simp [sources]
  have hother : sources.file "../q.json" = .ok "[".toUTF8 := by
    simp [sources]
  have hunclosed : Takes sources ["../q.json"] "../q.json" (.ok "[".toUTF8) := by
    rw [← hother]
    exact .path (by decide)
  have hruns : Runs sources ["/srv/p.json"] p := by
    refine ⟨"/srv/p.json", text, ?_, hparse⟩
    rw [← hfile]
    exact .path (by decide)
  obtain ⟨-, -, -, -, -, -, hrun, hsame, -⟩ :=
    report_tells_what_happened (fun _ => " at line 1 column 1") sources ["/srv/p.json"]
  obtain ⟨-, -, -, -, -, hfault, -, -⟩ :=
    report_tells_what_happened (fun _ => " at line 1 column 1") sources ["../q.json"]
  obtain ⟨-, -, -, -, -, hno, -, -⟩ :=
    report_tells_what_happened (fun _ => " at line 1 column 1") sources ["-"]
  obtain ⟨⟨lines, hlines, hstdout⟩, hstderr⟩ := hrun p hruns
  rw [← forall₂_displays_iff.mp hlines, houtput] at hstdout
  obtain ⟨hnothing, hdash⟩ :=
    hsame "/srv/p.json" text.toUTF8 (by decide) (String.isValidUTF8 _) hfile (.always _) rfl
  have hlist : Json.parse "[" = .error .endInList := by with_unfolding_all rfl
  obtain ⟨hblank, htold⟩ := hfault _ (.notJson hunclosed hlist)
  obtain ⟨hempty, hmessage⟩ := hno _ (.unreadable .dash)
  refine ⟨hstdout.trans (by decide), ?_, hnothing, hdash, hblank, htold.trans (by decide),
    hempty, hmessage.trans (by decide)⟩
  rcases hstderr with ⟨hnone, -⟩ | ⟨failure, hsome, hstderr⟩
  · rw [hnone] at hfailure
    cases hfailure
  · rw [hsome] at hfailure
    obtain rfl := Option.some.inj hfailure
    exact hstderr.trans (by decide)

end Command

end LetLang
