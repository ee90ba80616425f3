import DerivedForm.Recalculation.Basic

/-!
# Arguments of the command line

A path of definitions, optionally a path of a baseline, and options in any place: long ones with their
value after an equals sign or as the next argument, short ones also with their value attached.
-/

namespace DerivedForm.Console

structure Arguments where
  definitions : String
  baseline : Option String
  edits : List String
  focus : Option String
  order : VisitOrder
  identifier : String
  interactive : Bool

inductive OptionName where
  | set
  | focus
  | order
  | identifier
  deriving DecidableEq

inductive Argument where
  | path (s : String)
  | option (name : OptionName) (value : String)
  | interactive
  deriving DecidableEq

def longOption? : String → Option OptionName
  | "--set" => some .set
  | "--focus" => some .focus
  | "--order" => some .order
  | "--identifier" => some .identifier
  | _ => none

def shortOption? : Char → Option OptionName
  | 'e' => some .set
  | 'f' => some .focus
  | 'o' => some .order
  | _ => none

def splitOption? (s : String) : Option (OptionName × Option String) :=
  match s.toList with
  | '-' :: '-' :: rest =>
    let name := rest.takeWhile (· != '=')
    let value := if name.length < rest.length then
      some (String.ofList (rest.drop (name.length + 1))) else none
    (longOption? (String.ofList ('-' :: '-' :: name))).map (·, value)
  | ['-', c] => (shortOption? c).map (·, none)
  | '-' :: c :: '=' :: value => (shortOption? c).map (·, some (String.ofList value))
  | '-' :: c :: value => (shortOption? c).map (·, some (String.ofList value))
  | _ => none

def looksLikeOption (s : String) : Bool :=
  match s.toList with
  | '-' :: _ :: _ => true
  | _ => false

/-- The arguments by what they are; after `--` all are paths. -/
def classify? : List String → Option (List Argument)
  | [] => some []
  | "--" :: rest => some (rest.map .path)
  | "--human" :: rest | "-i" :: rest => (classify? rest).map (.interactive :: ·)
  | s :: rest =>
    match splitOption? s, rest with
    | some (name, some value), rest => (classify? rest).map (.option name value :: ·)
    | some (name, none), value :: rest =>
      if looksLikeOption value then none else (classify? rest).map (.option name value :: ·)
    | some (_, none), [] => none
    | none, rest => if looksLikeOption s then none else (classify? rest).map (.path s :: ·)

def orderOfName? : String → Option VisitOrder
  | "topological" => some .inputsFirst
  | "definition-order" => some .asDefined
  | _ => none

def valuesOf (arguments : List Argument) (name : OptionName) : List String :=
  arguments.filterMap fun
    | .option n value => if n = name then some value else none
    | _ => none

def valueOf? (arguments : List Argument) (name : OptionName) : Option (Option String) :=
  match valuesOf arguments name with
  | [] => some none
  | [value] => some (some value)
  | _ => none

namespace Arguments

def ofList? (args : List String) : Option Arguments := do
  let arguments ← classify? args
  let paths := arguments.filterMap fun
    | .path s => some s
    | _ => none
  let focus ← valueOf? arguments .focus
  let order ← orderOfName? ((← valueOf? arguments .order).getD "topological")
  let identifier := (← valueOf? arguments .identifier).getD "item"
  let edits := valuesOf arguments .set
  let interactive := arguments.contains .interactive
  match paths with
  | [definitions] => some { definitions, baseline := none, edits, focus, order, identifier, interactive }
  | [definitions, path] =>
    some { definitions, baseline := some path, edits, focus, order, identifier, interactive }
  | _ => none

end Arguments

end DerivedForm.Console
