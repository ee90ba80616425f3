/-!
# Schemas

A field of a form has an id, a type and, if it is computed from other fields, a derivation.
-/

namespace DerivedForm

inductive FieldType where
  | text
  | integer
  | decimal
  | date
  deriving DecidableEq

namespace FieldType

def name : FieldType → String
  | .text => "String"
  | .integer => "Integer"
  | .decimal => "Decimal"
  | .date => "Date"

def all : List FieldType := [.text, .integer, .decimal, .date]

def ofName? (s : String) : Option FieldType := all.find? fun type => type.name == s

theorem ofName?_name (type : FieldType) : ofName? type.name = some type := by
  cases type <;> decide

end FieldType

/-- How a field is computed: a formula over the inputs, rounded to some decimal places. An
overridable field may also be edited directly, at the price of its inputs. -/
structure Derivation where
  formula : String
  inputs : List String
  places : Nat
  overridable : Bool
  deriving DecidableEq

structure FieldDefinition where
  id : String
  description : String
  type : FieldType
  required : Bool
  readOnly : Bool
  derivation : Option Derivation
  deriving DecidableEq

namespace FieldDefinition

def isDerived (d : FieldDefinition) : Bool := d.derivation.isSome

def isOverridable (d : FieldDefinition) : Bool := d.derivation.any Derivation.overridable

def isEditable (d : FieldDefinition) : Bool := !d.readOnly && (!d.isDerived || d.isOverridable)

def inputs (d : FieldDefinition) : List String := (d.derivation.map Derivation.inputs).getD []

theorem isDerived_of_isOverridable {d : FieldDefinition} (h : d.isOverridable = true) :
    d.isDerived = true := by
  unfold isOverridable at h
  unfold isDerived
  cases hd : d.derivation <;> simp_all

end FieldDefinition

/-!
## Schemas as lists of definitions

A schema is a list of field definitions with different ids. Inputs may name ids outside of the schema;
such an input is never there.
-/

structure Schema where
  definitions : List FieldDefinition
  distinct : (definitions.map FieldDefinition.id).Nodup

inductive SchemaError where
  | duplicateId (id : String)
  | unreadable
  deriving DecidableEq

namespace SchemaError

def message : SchemaError → String
  | .duplicateId id => s!"Field id '{id}' is defined more than once"
  | .unreadable => "Invalid custom schema data: "

end SchemaError

def firstRepeated? (seen : List String) : List String → Option String
  | [] => none
  | id :: rest => if id ∈ seen then some id else firstRepeated? (id :: seen) rest

theorem firstRepeated?_eq_none {seen ids : List String} (h : firstRepeated? seen ids = none) :
    ids.Nodup ∧ ∀ id ∈ ids, id ∉ seen := by
  induction ids generalizing seen with
  | nil => simp
  | cons id rest ih =>
    simp only [firstRepeated?] at h
    split at h
    · cases h
    · obtain ⟨hnodup, hseen⟩ := ih h
      refine ⟨List.nodup_cons.2 ⟨fun hmem => hseen id hmem (by simp), hnodup⟩, ?_⟩
      intro x hx
      rcases List.mem_cons.1 hx with rfl | hx
      · assumption
      · exact fun hs => hseen x hx (List.mem_cons_of_mem _ hs)

namespace Schema

def ofDefinitions (definitions : List FieldDefinition) : Except SchemaError Schema :=
  match h : firstRepeated? [] (definitions.map FieldDefinition.id) with
  | some id => .error (.duplicateId id)
  | none => .ok ⟨definitions, (firstRepeated?_eq_none h).1⟩

def get? (schema : Schema) (id : String) : Option FieldDefinition :=
  schema.definitions.find? fun d => d.id == id

def contains (schema : Schema) (id : String) : Bool := (schema.get? id).isSome

def position? (schema : Schema) (id : String) : Option Nat :=
  schema.definitions.findIdx? fun d => d.id == id

def derived (schema : Schema) : List FieldDefinition :=
  schema.definitions.filter FieldDefinition.isDerived

def size (schema : Schema) : Nat := schema.definitions.length

theorem id_of_get? {schema : Schema} {id : String} {d : FieldDefinition}
    (h : schema.get? id = some d) : d.id = id := by
  simpa using List.find?_some h

theorem mem_of_get? {schema : Schema} {id : String} {d : FieldDefinition}
    (h : schema.get? id = some d) : d ∈ schema.definitions :=
  List.mem_of_find?_eq_some h

theorem contains_iff (schema : Schema) (id : String) :
    schema.contains id = true ↔ id ∈ schema.definitions.map FieldDefinition.id := by
  simp [contains, get?, List.find?_isSome]

end Schema

end DerivedForm
