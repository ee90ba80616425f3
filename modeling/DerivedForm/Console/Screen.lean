import DerivedForm.Form.Session

/-!
# The command line

The listing of a form, the texts of edits, and the two channels that everything is written to.
-/

namespace DerivedForm.Console

structure Screen where
  form : Form
  output : String
  errors : String

def padRight (width : Nat) (s : String) : String :=
  s ++ String.ofList (List.replicate (width - s.length) ' ')

def marker (schema : Schema) (id : String) : String :=
  match schema.get? id with
  | some d => if d.isOverridable then "=~" else if d.isDerived then "= " else "  "
  | none => "  "

def shown (value : Value) : String := if value.isEmpty then "<empty>" else value.display

def entryLine (schema : Schema) (entry : Entry) : String :=
  let front := s!"{marker schema entry.id} {padRight 20 entry.id} "
  match entry.error with
  | some message => s!"{front}{padRight 16 (shown entry.value)} ({message})\n"
  | none => s!"{front}{shown entry.value}\n"

def listing (form : Form) : String :=
  "\n--- Fields ---\n" ++ String.join (form.entries.map (entryLine form.schema)) ++
    "-----------------------------\n" ++ s!"Valid:       {form.isValid}\n" ++
    s!"Has Changes: {form.hasChanges}\n"

def splitFirst? (c : Char) : List Char → Option (List Char × List Char)
  | [] => none
  | d :: rest =>
    if d = c then some ([], rest)
    else (splitFirst? c rest).map fun (before, after) => (d :: before, after)

/-- The value of an edit: nothing and `null` empty a field. -/
def editValue (s : List Char) : Value :=
  let text := Text.trimmed s
  if text = [] ∨ text = "null".toList then .null else .text (String.ofList text)

def readEdit? (s : String) : Option (String × Value) :=
  (splitFirst? '=' s.toList).map fun (id, value) =>
    (String.ofList (Text.trimmed id), editValue value)

namespace Screen

def blank (form : Form) : Screen := ⟨form, "", ""⟩

def print (screen : Screen) (text : String) : Screen :=
  { screen with output := screen.output ++ text }

def warn (screen : Screen) (text : String) : Screen :=
  { screen with errors := screen.errors ++ text }

def list (screen : Screen) : Screen := screen.print (listing screen.form)

def edit (screen : Screen) (id : String) (value : Value) : Screen :=
  match screen.form.edit id value with
  | .ok form => { screen with form }
  | .error error => screen.warn s!"Edit rejected: {error.message}\n"

def focus (screen : Screen) (id : String) : Screen :=
  { screen with form := screen.form.focus id }

def blur (screen : Screen) (id : String) : Screen :=
  { screen with form := screen.form.blur id }

def saveText (identifier : String) : Except SaveError Payload → String
  | .ok payload => s!"\nPayload for '{identifier}':\n{payload.pretty}\n"
  | .error error => s!"\nSave refused: {error.message}\n"

def save (screen : Screen) (identifier : String) : Screen :=
  let (result, session) := Session.save ⟨screen.form, Store.empty⟩ identifier
  { screen with form := session.form }.print (saveText identifier result)

end Screen

/-!
## Batch runs

A batch run lists the form, makes its edits in order, with one field in focus if this is asked for, lists
the form again and saves it. It ends at the first edit that cannot be read.
-/

structure Batch where
  edits : List String
  focus : Option String
  identifier : String

namespace Batch

def takeFocus (screen : Screen) : Option String → Screen
  | none => screen
  | some id =>
    let screen := if screen.form.takesFocus id then screen else
      screen.print s!"Note: '{id}' is not an editable calculated field; focus ignored.\n"
    screen.focus id

def releaseFocus (screen : Screen) : Option String → Screen
  | none => screen
  | some id => screen.blur id

def applyEdits (screen : Screen) : List String → Except (String × Screen) Screen
  | [] => .ok screen
  | edit :: rest =>
    match readEdit? edit with
    | none => .error (edit, screen)
    | some (id, value) => applyEdits (screen.edit id value) rest

def finish (batch : Batch) (screen : Screen) : Screen :=
  let screen := if batch.edits.isEmpty then screen else
    (screen.print s!"\nAfter {batch.edits.length} edit(s):\n").list
  screen.save batch.identifier

def run (batch : Batch) (screen : Screen) : Except (String × Screen) Screen :=
  (applyEdits (takeFocus screen.list batch.focus) batch.edits).map fun screen =>
    batch.finish (releaseFocus screen batch.focus)

end Batch

/-!
## Dialogues

A dialogue reads commands line by line, each a word and what follows the first space, and answers each at
once. It ends with `quit`, with `exit`, or when there are no more lines.
-/

inductive Command where
  | set (edit : String)
  | focus (id : String)
  | blur (id : String)
  | list
  | save
  | reset
  | quit
  | nothing
  | unknown (word : String)
  deriving DecidableEq

namespace Command

def ofWord (word argument : String) : Command :=
  match word with
  | "set" => .set argument
  | "focus" => .focus (Text.trim argument)
  | "blur" => .blur (Text.trim argument)
  | "show" => .list
  | "save" => .save
  | "reset" => .reset
  | "quit" => .quit
  | "exit" => .quit
  | "" => .nothing
  | other => .unknown other

def ofLine (line : String) : Command :=
  let line := Text.trimmed line.toList
  match splitFirst? ' ' line with
  | some (word, argument) => ofWord (String.ofList word) (String.ofList argument)
  | none => ofWord (String.ofList line) ""

end Command

def prompt : String := "> Command: "

def greeting : String :=
  "--- Santei Interactive Mode ---\n" ++
    "Commands: set FIELD=VALUE | focus FIELD | blur FIELD | show | save | reset | quit\n"

namespace Screen

def set (screen : Screen) (edit : String) : Screen :=
  match readEdit? edit with
  | some (id, value) => (screen.edit id value).list
  | none => screen.print "Usage: set FIELD=VALUE\n"

def takeFocus (screen : Screen) (id : String) : Screen :=
  let answer := if screen.form.takesFocus id then s!"Focused '{id}'.\n"
    else s!"'{id}' does not take part in manual overrides.\n"
  (screen.focus id).print answer

def perform (screen : Screen) (identifier : String) : Command → Screen
  | .set edit => screen.set edit
  | .focus id => screen.takeFocus id
  | .blur id => (screen.blur id).list
  | .list => screen.list
  | .save => screen.save identifier
  | .reset => { screen with form := screen.form.reset }.list
  | .unknown word => screen.print s!"Unknown command '{word}'.\n"
  | .quit | .nothing => screen

def converse (screen : Screen) (identifier : String) : List String → Screen
  | [] => screen.print prompt
  | line :: rest =>
    let screen := screen.print prompt
    match Command.ofLine line with
    | .quit => screen
    | command => converse (screen.perform identifier command) identifier rest

def greet (screen : Screen) : Screen := (screen.print greeting).list

end Screen

/-- The lines of an input; a line end at the end of the input starts no further line. -/
def linesOf (input : String) : List String :=
  let lines := input.toList.splitOn '\n'
  (if lines.getLast? = some [] then lines.dropLast else lines).map String.ofList

end DerivedForm.Console
