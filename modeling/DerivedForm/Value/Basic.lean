import DerivedForm.Calendar.Date
import DerivedForm.Number.Numeral
import DerivedForm.Text.Character

/-!
# Field values

What a field of a form holds: nothing, a text, an integer, a decimal number or a date. Three readings
of a value matter to the rest of the library: whether it is empty, which finite number it stands for,
and the text that shows it. Two relations compare values: `equals` tells kinds of numbers apart, while
`agrees` ignores differences that a user would not call a change.
-/

namespace DerivedForm

open DerivedForm.Number (Binary64 Finite)

inductive Value where
  | null
  | text (s : String)
  | integer (n : Int64)
  | decimal (x : Binary64)
  | date (d : Calendar.Date)
  deriving DecidableEq

namespace Value

instance : Inhabited Value := ⟨null⟩

def isEmpty : Value → Bool
  | .null => true
  | .text s => Text.allBlank s
  | _ => false

/-- The finite number that the value stands for, if any. A text stands for the number that it
writes between blanks. -/
def number? : Value → Option Finite
  | .integer n => (Binary64.ofInt n.toInt).finite?
  | .decimal x => x.finite?
  | .text s => (Binary64.read? (Text.trimmed s.toList)).bind Binary64.finite?
  | .null | .date _ => none

def display : Value → String
  | .null => ""
  | .text s => s
  | .integer n => String.ofList (Number.integerText n.toInt)
  | .decimal x => x.text
  | .date d => d.text

/-- Equality of values of one kind; decimal numbers are equal as numbers, so that a NaN equals
nothing and the two zeros are equal. -/
def equals : Value → Value → Bool
  | .null, .null => true
  | .text s, .text t => s == t
  | .integer m, .integer n => m == n
  | .decimal x, .decimal y => x.same y
  | .date d, .date e => d == e
  | _, _ => false

def sameNumber (v w : Value) : Bool :=
  match v.number?, w.number? with
  | some x, some y => x.same y
  | none, none => true
  | _, _ => false

/-- There is no change from one value to the other: both are empty, or they are texts or dates that
are equal, or numbers of the same size whatever their kind. -/
def agrees (v w : Value) : Bool :=
  if v.isEmpty && w.isEmpty then true
  else if v.isEmpty || w.isEmpty then false
  else
    match v, w with
    | .integer _, .integer _ | .integer _, .decimal _ | .decimal _, .integer _
    | .decimal _, .decimal _ => v.sameNumber w
    | .text s, .text t => s == t
    | .date d, .date e => d == e
    | _, _ => false

@[simp] theorem isEmpty_null : Value.null.isEmpty = true := rfl

@[simp] theorem number?_null : Value.null.number? = none := rfl

end Value

end DerivedForm
