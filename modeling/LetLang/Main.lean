import LetLang.Command

/-!
# The command line

Runs the command with the sources that the system offers, and writes the report.
-/

namespace LetLang.Command

/-- The number of a system error, which some calls report with a minus sign. -/
def systemCode (code : UInt32) : UInt32 := if code < 0x80000000 then code else 0 - code

/-- Why the system refused to read. -/
def readFailureOf : IO.Error → ReadFailure
  | .noFileOrDirectory .. => .missing
  | .inappropriateType _ code details =>
    if systemCode code = 20 then .notDirectory
    else if systemCode code = 21 then .isDirectory
    else .other details
  | e => .other e.toString

/-- What reading gives, or why the system refused. -/
def attempt (reading : IO ByteArray) : IO (Except ReadFailure ByteArray) := do
  try
    return .ok (← reading)
  catch e =>
    return .error (readFailureOf e)

/-- The sources that the system offers. -/
def systemSources : Sources IO where
  stdin := attempt do (← IO.getStdin).readBinToEnd
  file path := attempt (IO.FS.readBinFile path)

end LetLang.Command

/-- Runs the command and exits with the status of its report.  The place of a fault is not told. -/
def main (arguments : List String) : IO UInt32 := do
  let report ← LetLang.Command.report (fun _ => "") LetLang.Command.systemSources arguments
  IO.print report.stdout
  IO.eprint report.stderr
  return report.status.toUInt32
