import DerivedForm.Recalculation.Basic

/-!
# Forms

A form is one session of editing the fields of a schema. It holds an entry for every field, the
baseline that a reset returns to, and the values from which changes are counted. Every operation leaves
the entries recalculated, and the flags say whether all of them are valid, whether any differs from the
snapshot, and whether a save is under way.
-/

namespace DerivedForm

structure Options where
  order : VisitOrder := .inputsFirst
  /-- The greatest number of passes; if none is given, one more than there are computed fields. -/
  maxPasses : Option Nat := none

def Options.limitPasses (options : Options) (n : Nat) : Options :=
  { options with maxPasses := some (max n 1) }

structure Form where
  schema : Schema
  options : Options
  focused : Option String
  baseline : Bindings
  snapshot : List Value
  entries : List Entry
  isValid : Bool
  isLoading : Bool
  hasChanges : Bool

inductive EditError where
  | unknownField (id : String)
  | readOnlyField (id : String)
  deriving DecidableEq

def EditError.message : EditError → String
  | .unknownField id => s!"Field '{id}' does not exist in this form"
  | .readOnlyField id => s!"Field '{id}' cannot be edited directly"

def Entry.differ (entries : List Entry) (snapshot : List Value) : Bool :=
  (entries.zip snapshot).any fun (entry, value) => !entry.value.agrees value

namespace Form

def maxPasses (form : Form) : Nat :=
  form.options.maxPasses.getD (form.schema.derived.length + 1)

def recalculate (form : Form) (focused : Option String) (entries : List Entry) : List Entry :=
  (form.schema.recalculate form.options.order focused form.maxPasses entries).entries

def refreshFlags (form : Form) : Form :=
  { form with
    isValid := form.entries.all Entry.isValid
    hasChanges := Entry.differ form.entries form.snapshot }

def takeSnapshot (form : Form) : Form := { form with snapshot := form.entries.map Entry.value }

def baselineEntry (baseline : Bindings) (d : FieldDefinition) : Entry :=
  Entry.validate d ((baseline.get? d.id).getD .null)

def load (form : Form) : Form :=
  refreshFlags <| takeSnapshot
    { form with
      focused := none
      isLoading := false
      entries := form.recalculate none
        (form.schema.definitions.map (baselineEntry form.baseline)) }

def create (schema : Schema) (baseline : Bindings) (options : Options) : Form :=
  load {
    schema, options, baseline
    focused := none
    snapshot := []
    entries := []
    isValid := false
    isLoading := false
    hasChanges := false }

def reset (form : Form) : Form := form.load

def position? (form : Form) (id : String) : Option Nat :=
  (form.schema.position? id).filter fun i => form.entries[i]?.any fun entry => entry.id == id

def entry? (form : Form) (id : String) : Option Entry :=
  (form.position? id).bind fun i => form.entries[i]?

/-- The entries after new input has been taken for a field at the given place: an override empties the
inputs, any other edit has everything recalculated. -/
def editedEntries (form : Form) (d : FieldDefinition) (position : Nat) (input : Value) :
    List Entry :=
  let entries := form.entries.set position (Entry.validate d input)
  if d.isOverridable then form.schema.override d.id entries
  else form.recalculate form.focused entries

/-- Takes user input for a field. Input of a wrong type is recorded on the entry; an error is only a
field that is not there or not to be edited. -/
def edit (form : Form) (id : String) (input : Value) : Except EditError Form :=
  match form.schema.get? id with
  | none => .error (.unknownField id)
  | some d =>
    if !d.isEditable then .error (.readOnlyField id)
    else
      match form.position? id with
      | none => .error (.unknownField id)
      | some position =>
        .ok (refreshFlags { form with entries := form.editedEntries d position input })

def takesFocus (form : Form) (id : String) : Bool := form.schema.isOverridable id

def focus (form : Form) (id : String) : Form :=
  { form with focused := form.schema.focus form.focused id }

def blur (form : Form) (id : String) : Form :=
  let (focused, entries) :=
    form.schema.blur form.options.order form.maxPasses id form.focused form.entries
  refreshFlags { form with focused, entries }

def invalidFields (form : Form) : List String :=
  (form.entries.filter fun entry => !entry.isValid).map Entry.id

end Form

end DerivedForm
