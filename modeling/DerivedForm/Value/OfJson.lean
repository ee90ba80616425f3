import DerivedForm.Json.Document
import DerivedForm.Value.Basic
import DerivedForm.Calendar.Date
import DerivedForm.Json.Reader

/-!
# Values from JSON

Baseline values arrive as JSON. A number becomes an integer if it is one of 64 bits; truth values,
arrays and objects become their own text.
-/

namespace DerivedForm

open DerivedForm.Json (Document Tree)

namespace Value

def ofJsonNumber : Json.Numeric → Value
  | .integer n =>
    match Number.int64OfInt? n with
    | some i => .integer i
    | none => .decimal (.ofInt n)
  | .decimal x => .decimal x

def ofJson : Document → Value
  | .null => .null
  | .number n => ofJsonNumber n
  | .string s => .text s
  | document => .text document.compact

end Value

/-!
## Tagged values

The JSON form of a value that keeps its kind: an object such as `kind: Integer, value: 5` with its
members in any order, or the array of the two. In the object, and there only, a kind may also be
written as an object with that single key and null under it; in the array it is a string.
-/

inductive ValueKind where
  | null
  | text
  | integer
  | decimal
  | date
  deriving DecidableEq

namespace ValueKind

def name : ValueKind → String
  | .null => "Null"
  | .text => "Text"
  | .integer => "Integer"
  | .decimal => "Decimal"
  | .date => "Date"

def all : List ValueKind := [.null, .text, .integer, .decimal, .date]

def ofName? (s : String) : Option ValueKind := all.find? fun kind => kind.name == s

theorem ofName?_name (kind : ValueKind) : ofName? kind.name = some kind := by
  cases kind <;> decide

end ValueKind

namespace Value

/-- The value of a kind that a JSON text writes. Null may be left out. -/
def ofContent? : ValueKind → Option Tree → Option Value
  | .null, none => some .null
  | .null, some .null => some .null
  | .text, some (.string literal) => literal.map .text
  | .integer, some (.number literal) =>
    match literal.value? with
    | some (.integer n) => (Number.int64OfInt? n).map .integer
    | _ => none
  | .decimal, some (.number literal) => literal.value?.map fun n => .decimal n.toBinary64
  | .date, some (.string literal) => (literal.bind Calendar.Date.readStored?).map .date
  | _, _ => none

def ofNameAndContent? (name : Option String) (content : Option Tree) : Option Value :=
  (name.bind ValueKind.ofName?).bind fun kind => ofContent? kind content

def ofTaggedTree? : Tree → Option Value
  | .object members =>
    let members : Json.Members := members
    if !members.keysAreTexts then none
    else
      match members.optional? "kind", members.optional? "value" with
      | some (some kind), some content => ofNameAndContent? kind.name? content
      | _, _ => none
  | .array [.string name, content] => ofNameAndContent? name (some content)
  | _ => none

def readTagged? (s : String) : Option Value := (Tree.read? s).bind ofTaggedTree?

def kind : Value → ValueKind
  | .null => .null
  | .text _ => .text
  | .integer _ => .integer
  | .decimal _ => .decimal
  | .date _ => .date

def content? : Value → Option Document
  | .null => none
  | .text s => some (.string s)
  | .integer n => some (.number (.integer n.toInt))
  | .decimal x => some (.number (.decimal x))
  | .date d => some (.string d.text)

def tagged (v : Value) : Document :=
  .object (("kind", .string v.kind.name) :: v.content?.toList.map fun content => ("value", content))

end Value

end DerivedForm
