import LetLang.Program

/-!
# The command

The command runs one program document and reports the values on its standard output and what went
wrong on its standard error.  Its arguments say where the document comes from.  How the standard
input and files are read is left to whoever runs the command (`Sources`), and so are the words for
the place of a fault in a text that is not JSON.
-/

namespace LetLang

/-! ## Arguments -/

/-- What the arguments ask for. -/
inductive Invocation where
  /-- Show how the command is used. -/
  | help
  /-- Run the document on the standard input. -/
  | stdin
  /-- Run the document in a file. -/
  | file (path : String)
deriving DecidableEq

/-- What a list of arguments asks for; more than one argument asks for nothing. -/
def Invocation.ofArguments? : List String → Option Invocation
  | [] => some .stdin
  | [argument] =>
    if argument = "--help" ∨ argument = "-h" then some .help
    else if argument = "-" then some .stdin
    else some (.file argument)
  | _ :: _ :: _ => none

/-! ## Sources -/

/-- Why a document cannot be read. -/
inductive ReadFailure where
  | missing
  /-- A part of the path that has to be a directory is none. -/
  | notDirectory
  | isDirectory
  /-- The bytes are not UTF-8. -/
  | notText
  /-- Any other reason, in the words of the system. -/
  | other (reason : String)
deriving DecidableEq

/-- The wording of a read failure. -/
def ReadFailure.message : ReadFailure → String
  | .missing => "No such file or directory (os error 2)"
  | .notDirectory => "Not a directory (os error 20)"
  | .isDirectory => "Is a directory (os error 21)"
  | .notText => "stream did not contain valid UTF-8"
  | .other reason => reason

/-- Where documents come from.  Reading is an effect of the monad `m`, and nothing is said here
about what it gives. -/
structure Sources (m : Type → Type) where
  /-- Reads the standard input to its end. -/
  stdin : m (Except ReadFailure ByteArray)
  /-- Reads the file at a path. -/
  file : String → m (Except ReadFailure ByteArray)

/-! ## The report -/

/-- What the command leaves behind. -/
structure Report where
  /-- The exit status. -/
  status : Nat
  /-- The standard output. -/
  stdout : String
  /-- The standard error. -/
  stderr : String
deriving DecidableEq

namespace Command

/-- A text with the end of its line. -/
def line (text : String) : String := text ++ "\n"

/-- How the command is used. -/
def usage : String :=
  String.join <| List.map line
    [ "Rkt expression evaluator",
      "",
      "Usage: rkt [FILE]",
      "",
      "Reads a JSON document from FILE, or stdin when FILE is absent or `-`.",
      "The document is one expression or \x7b\"program\": [expr, ...]\x7d.",
      "",
      "Expressions:",
      "  42                     number",
      "  \"\\\"text\\\"\"             string (quotes are part of the literal)",
      "  [\"+\", left, right]     operator: + - * /",
      "  [\"let\", \"name\", expr]  bind a variable",
      "  \"name\"                 variable reference",
      "",
      "Environment:",
      "  RUST_LOG=rkt_eval=trace   enable log output",
      "  RKT_LOG_TREE=1            nest log output by expression" ]

/-- A message on the standard error. -/
def errorLine (message : String) : String := line ("error: " ++ message)

/-- The report of a run of a program. -/
def reportRun (p : Program) : Report :=
  let o := p.run .host
  let output := String.join (o.output.map fun v => line v.text)
  match o.failure with
  | none => ⟨0, output, ""⟩
  | some failure => ⟨1, output, errorLine failure.message⟩

/-- The report on a document that cannot be read. -/
def reportUnreadable (source : String) (failure : ReadFailure) : Report :=
  ⟨1, "", errorLine ("cannot read " ++ source ++ ": " ++ failure.message)⟩

/-- The report of a request for help. -/
def reportHelp : Report := ⟨0, usage, ""⟩

/-- The report on `count` arguments, where at most one is expected. -/
def reportTooMany (count : Nat) : Report :=
  ⟨1, usage, errorLine ("expected at most one argument, got " ++
    String.ofList (Nat.toDigits 10 count)) ++ line ""⟩

/-- How the standard input is named in messages. -/
def stdinName : String := "<stdin>"

section Document

-- the words for the place of the fault in a text that is not JSON
variable (locate : String → String)

/-- The report of a run of the document in a text. -/
def reportText (text : String) : Report :=
  match Program.parse text with
  | .error fault => ⟨1, "", errorLine ("invalid JSON: " ++ fault.message ++ locate text)⟩
  | .ok p => reportRun p

/-- The report of a run of the document that reading `source` gave. -/
def reportBytes (source : String) (bytes : ByteArray) : Report :=
  match String.fromUTF8? bytes with
  | none => reportUnreadable source .notText
  | some text => reportText locate text

/-- The report of a run of the document that was to be read from `source`. -/
def reportRead (source : String) : Except ReadFailure ByteArray → Report
  | .error failure => reportUnreadable source failure
  | .ok bytes => reportBytes locate source bytes

/-- What the command does. -/
def report {m : Type → Type} [Monad m] (sources : Sources m) (arguments : List String) :
    m Report := do
  match Invocation.ofArguments? arguments with
  | none => return reportTooMany arguments.length
  | some .help => return reportHelp
  | some .stdin => return reportRead locate stdinName (← sources.stdin)
  | some (.file path) => return reportRead locate path (← sources.file path)

end Document

end Command

end LetLang
