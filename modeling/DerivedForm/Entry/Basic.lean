import DerivedForm.Value.Basic
import DerivedForm.Calendar.Date
import DerivedForm.Schema.Basic

/-!
# Entries

What a form holds for one field: its value, whether the value is valid, and why not.
-/

namespace DerivedForm

structure Entry where
  id : String
  value : Value
  isValid : Bool
  error : Option String
  deriving DecidableEq

namespace Entry

def valid (id : String) (value : Value) : Entry := ⟨id, value, true, none⟩

def clear (entry : Entry) : Entry := valid entry.id .null

def find? (entries : List Entry) (id : String) : Option Entry :=
  entries.find? fun entry => entry.id == id

def modifyFirst (id : String) (f : Entry → Entry) : List Entry → List Entry
  | [] => []
  | entry :: rest => if entry.id == id then f entry :: rest else entry :: modifyFirst id f rest

theorem map_id_modifyFirst {id : String} {f : Entry → Entry} (hf : ∀ entry, (f entry).id = id)
    (entries : List Entry) :
    (modifyFirst id f entries).map Entry.id = entries.map Entry.id := by
  induction entries with
  | nil => rfl
  | cons entry rest ih =>
    unfold modifyFirst
    split
    · rename_i h
      simp [hf, (beq_iff_eq.1 h)]
    · simp [ih]

theorem find?_modifyFirst {id : String} {f : Entry → Entry} (hf : ∀ entry, (f entry).id = id)
    (entries : List Entry) :
    find? (modifyFirst id f entries) id = (find? entries id).map f := by
  induction entries with
  | nil => rfl
  | cons entry rest ih =>
    unfold modifyFirst
    split
    · rename_i h
      simp [find?, hf, h]
    · rename_i h
      simp only [find?, List.find?_cons] at ih ⊢
      simp [h, ih]

end Entry

/-!
## Validation

Input becomes a value of the declared type of its field, or it is kept as text together with the reason
why it is none. Empty input is no error, unless the field is required and not computed.
-/

open DerivedForm.Number (Binary64 Finite)

/-- Why input is refused. The text is the input as shown. -/
inductive InputError where
  | required
  | notANumber (text : String)
  | notAnInteger (text : String)
  | invalidDate (text : String)
  deriving DecidableEq

def InputError.message : InputError → String
  | .required => "This field is required"
  | .notANumber text => s!"'{text}' is not a valid number"
  | .notAnInteger text => s!"'{text}' is not a whole number"
  | .invalidDate text => s!"'{text}' is not a valid date"

def commaToPoint : List Char → List Char
  | [] => []
  | c :: rest => if c = ',' then '.' :: rest else c :: commaToPoint rest

/-- Where there is no point, a comma is read as one. -/
def normalizePoint (s : List Char) : List Char := if '.' ∈ s then s else commaToPoint s

def readNumber? (s : String) : Option Finite :=
  (Binary64.read? (normalizePoint (Text.trimmed s.toList))).bind Binary64.finite?

namespace Value

def integerOf (x : Finite) (text : String) : Except InputError Value :=
  match x.toInt64? with
  | some n => .ok (.integer n)
  | none => .error (.notAnInteger text)

def toInteger : Value → Except InputError Value
  | .integer n => .ok (.integer n)
  | .decimal x =>
    match x.finite? with
    | some y => integerOf y x.text
    | none => .error (.notANumber x.text)
  | .text s =>
    match Number.readInt64? (Text.trimmed s.toList) with
    | some n => .ok (.integer n)
    | none =>
      match readNumber? s with
      | some x => integerOf x s
      | none => .error (.notANumber s)
  | value => .error (.notANumber value.display)

def toDecimal : Value → Except InputError Value
  | .integer n => .ok (.decimal (.ofInt n.toInt))
  | .decimal x => if x.isFinite then .ok (.decimal x) else .error (.notANumber x.text)
  | .text s =>
    match readNumber? s with
    | some x => .ok (.decimal (.finite x))
    | none => .error (.notANumber s)
  | value => .error (.notANumber value.display)

def toDate : Value → Except InputError Value
  | .date d => .ok (.date d)
  | .text s =>
    match Calendar.Date.read? s with
    | some d => .ok (.date d)
    | none => .error (.invalidDate s)
  | value => .error (.invalidDate value.display)

def coerce (type : FieldType) (value : Value) : Except InputError Value :=
  match type with
  | .text => .ok (.text value.display)
  | .integer => value.toInteger
  | .decimal => value.toDecimal
  | .date => value.toDate

end Value

namespace Entry

def refused (id text : String) (error : InputError) : Entry :=
  ⟨id, .text text, false, some error.message⟩

def empty (d : FieldDefinition) : Entry :=
  if d.required && !d.isDerived then ⟨d.id, .null, false, some InputError.required.message⟩
  else valid d.id .null

def validate (d : FieldDefinition) (input : Value) : Entry :=
  if input.isEmpty then empty d
  else
    match input.coerce d.type with
    | .ok value => valid d.id value
    | .error error => refused d.id input.display error

@[simp] theorem empty_id (d : FieldDefinition) : (empty d).id = d.id := by
  unfold empty
  split <;> rfl

@[simp] theorem validate_id (d : FieldDefinition) (input : Value) :
    (validate d input).id = d.id := by
  unfold validate
  split
  · exact empty_id d
  · split <;> rfl

theorem validate_of_isEmpty (d : FieldDefinition) {input : Value} (h : input.isEmpty = true) :
    validate d input = empty d := by simp [validate, h]

end Entry

end DerivedForm
