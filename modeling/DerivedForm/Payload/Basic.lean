import DerivedForm.Json.Document
import DerivedForm.Schema.Basic
import DerivedForm.Value.Basic
import DerivedForm.Entry.Basic

/-!
# Payloads

What is sent for a field when a form is saved: null for an empty one, a number for a numeric field,
and a text for any other.
-/

namespace DerivedForm

open DerivedForm.Number (Finite)

inductive Wire where
  | null
  | integer (n : Int64)
  | decimal (x : Finite)
  | text (s : String)
  deriving DecidableEq

namespace Wire

def json : Wire → Json.Document
  | .null => .null
  | .integer n => .number (.integer n.toInt)
  | .decimal x => .number (.decimal (.finite x))
  | .text s => .string s

def ofWhole (x : Finite) : Wire := if x.isWhole then .integer x.toInt64Clamped else .decimal x

end Wire

namespace Value

/-- What is sent for a value of a numeric field: its number, or its text if it stands for none. -/
def wireNumber (value : Value) (ofNumber : Finite → Wire) : Wire :=
  match value.number? with
  | some x => ofNumber x
  | none => .text value.display

def wire (type : FieldType) (value : Value) : Wire :=
  if value.isEmpty then .null
  else
    match type, value with
    | .integer, .integer n => .integer n
    | .integer, value => value.wireNumber Wire.ofWhole
    | .decimal, value => value.wireNumber Wire.decimal
    | _, value => .text value.display

@[simp] theorem wire_null (type : FieldType) : Value.null.wire type = .null := by simp [wire]

theorem wire_text {s : String} (h : (Value.text s).isEmpty = false) :
    (Value.text s).wire .text = .text s := by
  unfold wire
  rw [h, if_neg Bool.false_ne_true]
  rfl

end Value

/-!
## Payloads of a form

The object that is sent when a form is saved: one wire value for every entry of the schema, by id.
-/

abbrev Payload := Json.Entries Wire

namespace Payload

/-- The wire value of an entry with its id; none if the schema does not know the id. -/
def member? (schema : Schema) (entry : Entry) : Option (String × Wire) :=
  (schema.get? entry.id).map fun d => (entry.id, entry.value.wire d.type)

def ofEntries (schema : Schema) (entries : List Entry) : Payload :=
  Json.Entries.ofList (entries.filterMap (member? schema))

def memberLine (member : String × Wire) : List Char :=
  "  ".toList ++ Json.Document.stringText member.1 ++ ": ".toList ++ member.2.json.chars

def memberLines : List (String × Wire) → List Char
  | [] => []
  | [member] => memberLine member ++ ['\n']
  | member :: rest => memberLine member ++ ',' :: '\n' :: memberLines rest

def pretty (payload : Payload) : String :=
  String.ofList <|
    if payload.isEmpty then ['\x7b', '\x7d']
    else '\x7b' :: '\n' :: memberLines payload ++ ['\x7d']

end Payload

end DerivedForm
