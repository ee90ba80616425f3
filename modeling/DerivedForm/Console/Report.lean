import DerivedForm.Form.State
import DerivedForm.Json.Document
import DerivedForm.Schema.Reading
import DerivedForm.Value.OfJson
import DerivedForm.Console.Screen

/-!
# Runs of the command line

The definitions and the baseline of a form are two files. The baseline may be left out; it is an object
of values by id.
-/

namespace DerivedForm.Console

structure Source where
  path : String
  content : Except String String

inductive OpenError where
  | definitionsMissing (path reason : String)
  | baselineMissing (path reason : String)
  | baselineUnreadable
  | definitionsInvalid (error : SchemaError)

def OpenError.message : OpenError → String
  | .definitionsMissing path reason => s!"Failed to read definitions file '{path}': {reason}"
  | .baselineMissing path reason => s!"Failed to read baseline file '{path}': {reason}"
  | .baselineUnreadable => "Failed to parse baseline JSON: "
  | .definitionsInvalid error => s!"Invalid field definitions: {error.message}"

def readBaseline? (s : String) : Option Bindings :=
  match Json.Document.read? s with
  | some (.object members) =>
    some (Bindings.ofList (members.map fun (id, document) => (id, Value.ofJson document)))
  | _ => none

def baselineOf (source : Source) : Except OpenError Bindings :=
  match source.content with
  | .error reason => .error (.baselineMissing source.path reason)
  | .ok content =>
    match readBaseline? content with
    | some bindings => .ok bindings
    | none => .error .baselineUnreadable

def noBaselineNotice : String := "No baseline file provided. Starting with empty values.\n"

def formOf (definitions : String) (baseline : Bindings) (options : Options) :
    Except OpenError Form :=
  match Schema.read definitions with
  | .error error => .error (.definitionsInvalid error)
  | .ok schema => .ok (Form.create schema baseline options)

/-- The form over two files, and what is said before it is there. The definitions are looked for
first and looked into last. -/
def openForm (definitions : Source) (baseline : Option Source) (options : Options) :
    String × Except OpenError Form :=
  match definitions.content, baseline with
  | .error reason, _ => ("", .error (.definitionsMissing definitions.path reason))
  | .ok content, none => (noBaselineNotice, formOf content [] options)
  | .ok content, some source =>
    match baselineOf source with
    | .error error => ("", .error error)
    | .ok bindings => ("", formOf content bindings options)

/-!
## Reports

Everything that a run of the command line writes, from the opening of the form to the end, and whether
the run succeeds.
-/

structure Report where
  output : String
  errors : String
  exitCode : Nat
  deriving DecidableEq

namespace Report

def failure (output errors message : String) : Report :=
  ⟨output, s!"{errors}\nError: {message}\n", 1⟩

def ofScreen (screen : Screen) : Report := ⟨screen.output, screen.errors, 0⟩

def ofBatch (batch : Batch) (screen : Screen) : Report :=
  match batch.run screen with
  | .ok screen => ofScreen screen
  | .error (edit, screen) =>
    failure screen.output screen.errors s!"Malformed edit '{edit}', expected FIELD=VALUE"

def ofForm (batch : Batch) (input : Option String) (screen : Screen) : Report :=
  match input with
  | some input => ofScreen (screen.greet.converse batch.identifier (linesOf input))
  | none => ofBatch batch screen

def ofRun (definitions : Source) (baseline : Option Source) (options : Options) (batch : Batch)
    (input : Option String) : Report :=
  match openForm definitions baseline options with
  | (notice, .error error) => failure notice "" error.message
  | (notice, .ok form) => ofForm batch input ((Screen.blank form).print notice)

end Report

end DerivedForm.Console
