import DerivedForm.Dependency.Graph
import DerivedForm.Entry.Basic
import DerivedForm.Formula.Evaluation
import DerivedForm.Number.Arithmetic

/-!
# Recalculation

A pass visits every computed field once and recomputes its entry from the values that are known at
that moment: those of the valid entries, and the results of the fields visited before. A field that
cannot be computed is emptied. The field that the user is typing into is left alone.
-/

namespace DerivedForm

open DerivedForm.Number (Binary64)

inductive VisitOrder where
  | inputsFirst
  | asDefined
  deriving DecidableEq

structure Change where
  id : String
  previous : Value
  current : Value
  deriving DecidableEq

structure Recalculated where
  entries : List Entry
  changes : List Change

def Recalculated.changed (r : Recalculated) : Bool := !r.changes.isEmpty

/-- The result of a formula as a value of a field: an integer for an integer field if it is one. -/
def resultValue (type : FieldType) (x : Binary64) : Value :=
  match type, x.finite?.bind Number.Finite.toInt64? with
  | .integer, some n => .integer n
  | _, _ => .decimal x

namespace FieldDefinition

def compute? (d : FieldDefinition) (values : Bindings) : Option Value :=
  d.derivation.bind fun derivation =>
    if derivation.inputs.all fun id => (values.number? id).isSome then
      (Formula.evaluate? derivation.formula values).map fun x =>
        resultValue d.type ((Binary64.finite x).roundPlaces derivation.places)
    else none

def isHeld (d : FieldDefinition) (focused : Option String) : Bool :=
  d.isOverridable && focused == some d.id

end FieldDefinition

/-- A pass on its way: the entries, the values known so far, and the changes. -/
structure PassState where
  entries : List Entry
  values : Bindings
  changes : List Change

namespace Entry

/-- The values of the valid entries; invalid ones feed no formula. -/
def bindings (entries : List Entry) : Bindings :=
  Bindings.ofList ((entries.filter Entry.isValid).map fun entry => (entry.id, entry.value))

def withResult (entry : Entry) : Option Value → Entry
  | some value => valid entry.id value
  | none => if entry.value = .null then entry else entry.clear

def change? (previous current : Entry) : List Change :=
  if current.value.equals previous.value then []
  else [⟨current.id, previous.value, current.value⟩]

@[simp] theorem withResult_id (entry : Entry) (result : Option Value) :
    (entry.withResult result).id = entry.id := by
  unfold withResult
  split
  · rfl
  · split <;> rfl

end Entry

namespace PassState

def visit (focused : Option String) (state : PassState) (d : FieldDefinition) : PassState :=
  if d.isHeld focused then state
  else
    match Entry.find? state.entries d.id with
    | none => state
    | some entry =>
      let current := entry.withResult (d.compute? state.values)
      { entries := Entry.modifyFirst d.id (fun _ => current) state.entries
        values := state.values.insert d.id current.value
        changes := state.changes ++ Entry.change? entry current }

end PassState

namespace Schema

def visits (schema : Schema) : VisitOrder → List FieldDefinition
  | .inputsFirst => schema.graph.order.filterMap schema.get?
  | .asDefined => schema.derived

def pass (schema : Schema) (order : VisitOrder) (focused : Option String) (entries : List Entry) :
    Recalculated :=
  let final := (schema.visits order).foldl (PassState.visit focused)
    ⟨entries, Entry.bindings entries, []⟩
  ⟨final.entries, final.changes⟩

end Schema

/-!
## Repeated passes

One pass settles everything if inputs are visited first and there is no cycle. Otherwise passes are
repeated until one changes nothing or their number is used up. Changes add up: a field is reported with
its value before the first pass and its value after the last, and not at all if these are equal.
-/

namespace Change

def add (change : Change) : List Change → List Change
  | [] => [change]
  | earlier :: rest =>
    if earlier.id = change.id then { earlier with current := change.current } :: rest
    else earlier :: add change rest

def combine (earlier later : List Change) : List Change :=
  (later.foldl (fun changes change => change.add changes) earlier).filter
    fun change => !change.previous.equals change.current

end Change

namespace Schema

/-- Further passes, at most `passes` of them, as long as the last one has changed something. -/
def repeatPasses (schema : Schema) (order : VisitOrder) (focused : Option String) :
    Nat → Bool → Recalculated → Recalculated
  | 0, _, current => current
  | _, false, current => current
  | passes + 1, true, current =>
    let next := schema.pass order focused current.entries
    repeatPasses schema order focused passes next.changed
      ⟨next.entries, Change.combine current.changes next.changes⟩

def settlesAtOnce (schema : Schema) (order : VisitOrder) : Bool :=
  order == .inputsFirst && !schema.graph.hasCycle

/-- Recalculates a list of entries with at least one and at most `maxPasses` passes. -/
def recalculate (schema : Schema) (order : VisitOrder) (focused : Option String) (maxPasses : Nat)
    (entries : List Entry) : Recalculated :=
  let first := schema.pass order focused entries
  if schema.settlesAtOnce order then first
  else schema.repeatPasses order focused (maxPasses - 1) first.changed first

end Schema

/-!
## Overrides

An overridable field is computed, but the user may type a value of their own. The value then stands and
the inputs that contradict it are emptied, with everything that depends on them. While the field has
the focus it is not recomputed; when the focus is released, a value left empty or invalid gives way to
the computed one.
-/

namespace Schema

def isOverridable (schema : Schema) (id : String) : Bool :=
  (schema.get? id).any FieldDefinition.isOverridable

def focus (schema : Schema) (focused : Option String) (id : String) : Option String :=
  if schema.isOverridable id then some id else focused

/-- The fields that an override of a field empties: its inputs, then all that depends on one of them,
the field itself excepted. -/
def clearedBy (schema : Schema) (id : String) : List String :=
  if schema.isOverridable id then
    let inputs := schema.graph.inputsOf id
    withoutRepeats ((inputs ++ inputs.flatMap schema.graph.downstream).filter
      fun other => other != id && schema.contains other)
  else []

def emptyEntry (schema : Schema) (entries : List Entry) (id : String) : List Entry :=
  match schema.get? id with
  | some d => Entry.modifyFirst id (fun _ => Entry.validate d .null) entries
  | none => entries

def override (schema : Schema) (id : String) (entries : List Entry) : List Entry :=
  (schema.clearedBy id).foldl schema.emptyEntry entries

end Schema

def Entry.isAbandoned (entry : Entry) : Bool := entry.value.isEmpty || !entry.isValid

namespace Schema

def blur (schema : Schema) (order : VisitOrder) (maxPasses : Nat) (id : String)
    (focused : Option String) (entries : List Entry) : Option String × List Entry :=
  if focused = some id then
    if (Entry.find? entries id).any Entry.isAbandoned then
      (none, (schema.recalculate order none maxPasses entries).entries)
    else (none, entries)
  else (focused, entries)

end Schema

end DerivedForm
