import DerivedForm.Console.Arguments
import DerivedForm.Console.Report

/-!
# The command line

Reads the files, prints what the library answers, and passes the lines of a dialogue on to it.
-/

namespace DerivedForm.Console

def reasonOf : IO.Error → String
  | .noFileOrDirectory .. => "No such file or directory (os error 2)"
  | .permissionDenied .. => "Permission denied (os error 13)"
  | error => toString error

def readSource (path : String) : IO Source := do
  try
    return ⟨path, .ok (← IO.FS.readFile path)⟩
  catch error =>
    return ⟨path, .error (reasonOf error)⟩

def writeScreen (screen : Screen) : IO Unit := do
  IO.print screen.output
  (← IO.getStdout).flush
  IO.eprint screen.errors

def writeReport (report : Report) : IO UInt32 := do
  IO.print report.output
  (← IO.getStdout).flush
  IO.eprint report.errors
  return report.exitCode.toUInt32

partial def converse (form : Form) (identifier : String) : IO Unit := do
  writeScreen ((Screen.blank form).print prompt)
  let line ← (← IO.getStdin).getLine
  if line.isEmpty then return
  match Command.ofLine line with
  | .quit => return
  | command =>
    let screen := (Screen.blank form).perform identifier command
    writeScreen screen
    converse screen.form identifier

def runWith (arguments : Arguments) : IO UInt32 := do
  let definitions ← readSource arguments.definitions
  let baseline ← arguments.baseline.mapM readSource
  let batch : Batch := ⟨arguments.edits, arguments.focus, arguments.identifier⟩
  let options : Options := { order := arguments.order }
  if arguments.interactive then
    match openForm definitions baseline options with
    | (notice, .error error) => writeReport (Report.failure notice "" error.message)
    | (notice, .ok form) =>
      let screen := ((Screen.blank form).print notice).greet
      writeScreen screen
      converse screen.form arguments.identifier
      return 0
  else writeReport (Report.ofRun definitions baseline options batch none)

def usage : String :=
  "Usage: derived-form DEFINITIONS [BASELINE] [-e|--set FIELD=VALUE]... [-f|--focus FIELD] " ++
    "[-o|--order topological|definition-order] [--identifier ID] [-i|--human]\n"

end DerivedForm.Console

def main (args : List String) : IO UInt32 := do
  match DerivedForm.Console.Arguments.ofList? args with
  | some arguments => DerivedForm.Console.runWith arguments
  | none =>
    IO.eprint DerivedForm.Console.usage
    return 2
