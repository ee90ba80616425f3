import DerivedForm.Json.Reader
import DerivedForm.Json.Document
import DerivedForm.Schema.Basic

/-!
# Reading schemas

Definitions are written as a JSON array of records. A record is an object, in which unknown keys are
passed over and known ones stand once, or an array of the members in order, in which members at the
end may be left off. The id and type of a field and the formula of a derivation have to be there.
-/

namespace DerivedForm

open DerivedForm.Json (Tree)

namespace Json.Tree

/-- The members of a record under the given keys, from an object by key or from an array by place. -/
def record? (keys : List String) : Tree → Option (List (Option Tree))
  | .object members =>
    if Members.keysAreTexts members then keys.mapM (Members.optional? members) else none
  | .array items =>
    if items.length ≤ keys.length then
      some (items.map some ++ List.replicate (keys.length - items.length) none)
    else none
  | _ => none

def text? : Tree → Option String
  | .string literal => literal
  | _ => none

def flag? : Tree → Option Bool
  | .bool b => some b
  | _ => none

def count? : Tree → Option Nat
  | .number literal =>
    match literal.value? with
    | some (.integer n) => if 0 ≤ n ∧ n < UInt32.size then some n.toNat else none
    | _ => none
  | _ => none

def texts? : Tree → Option (List String)
  | .array items => items.mapM text?
  | _ => none

end Json.Tree

def readOr {α : Type} (missing : α) (read? : Tree → Option α) : Option Tree → Option α
  | none => some missing
  | some tree => read? tree

namespace Derivation

def keys : List String :=
  ["formula", "dependencies", "precision", "clearDependenciesOnManualEdit"]

def ofTree? (tree : Tree) : Option Derivation :=
  match tree.record? keys with
  | some [formula, inputs, places, overridable] => do
    let formula ← formula.bind Tree.text?
    let inputs ← readOr [] Tree.texts? inputs
    let places ← readOr 0 Tree.count? places
    let overridable ← readOr false Tree.flag? overridable
    some { formula, inputs, places, overridable }
  | _ => none

def ofNullable? : Tree → Option (Option Derivation)
  | .null => some none
  | tree => (ofTree? tree).map some

end Derivation

namespace FieldDefinition

def keys : List String := ["id", "description", "type", "required", "readOnly", "calculated"]

def ofTree? (tree : Tree) : Option FieldDefinition :=
  match tree.record? keys with
  | some [id, description, type, required, readOnly, derivation] => do
    let id ← id.bind Tree.text?
    let description ← readOr "" Tree.text? description
    let type ← (type.bind Tree.name?).bind FieldType.ofName?
    let required ← readOr false Tree.flag? required
    let readOnly ← readOr false Tree.flag? readOnly
    let derivation ← readOr none Derivation.ofNullable? derivation
    some { id, description, type, required, readOnly, derivation }
  | _ => none

def readList? (s : String) : Option (List FieldDefinition) :=
  match Tree.read? s with
  | some (.array items) => items.mapM ofTree?
  | _ => none

end FieldDefinition

def Schema.read (s : String) : Except SchemaError Schema :=
  match FieldDefinition.readList? s with
  | some definitions => Schema.ofDefinitions definitions
  | none => .error .unreadable

end DerivedForm
