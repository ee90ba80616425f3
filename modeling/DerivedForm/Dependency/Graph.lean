import DerivedForm.Schema.Basic

/-!
# Dependencies between fields

The edges of the graph lead from a field to the computed fields that read it. `downstream` follows them
as far as they go, each field once, so it ends on cycles as well.
-/

namespace DerivedForm

def withoutRepeats : List String → List String
  | [] => []
  | id :: rest => id :: (withoutRepeats rest).filter (· != id)

theorem mem_withoutRepeats {x : String} {ids : List String} : x ∈ withoutRepeats ids ↔ x ∈ ids := by
  induction ids with
  | nil => simp [withoutRepeats]
  | cons id rest ih =>
    by_cases h : x = id <;> simp [withoutRepeats, ih, h]

theorem nodup_withoutRepeats (ids : List String) : (withoutRepeats ids).Nodup := by
  induction ids with
  | nil => simp [withoutRepeats]
  | cons id rest ih =>
    refine List.nodup_cons.2 ⟨by simp, ih.filter _⟩

/-- What the computed fields of a schema read: their ids in definition order, each with the
different inputs of its formula. -/
structure InputGraph where
  reads : List (String × List String)

namespace Schema

def graph (schema : Schema) : InputGraph :=
  ⟨schema.derived.map fun d => (d.id, withoutRepeats d.inputs)⟩

end Schema

namespace InputGraph

def derivedIds (graph : InputGraph) : List String := graph.reads.map Prod.fst

def inputsOf (graph : InputGraph) (id : String) : List String := (graph.reads.lookup id).getD []

def readersOf (graph : InputGraph) (id : String) : List String :=
  (graph.reads.filter fun (_, inputs) => inputs.contains id).map Prod.fst

/-- Visits ids depth first: the first pending id not seen before is listed, and its successors come
next. There are no more visits than unseen ids. -/
def walk (successors : String → List String) : Nat → List String → List String → List String
  | 0, _, _ => []
  | visits + 1, unseen, pending =>
    match pending.dropWhile fun id => !unseen.contains id with
    | [] => []
    | id :: rest => id :: walk successors visits (unseen.erase id) (successors id ++ rest)

/-- The computed fields that depend on a field, directly or through others, in the order of their
discovery; the field itself is not among them. -/
def downstream (graph : InputGraph) (id : String) : List String :=
  let unseen := graph.derivedIds.erase id
  walk graph.readersOf unseen.length unseen (graph.readersOf id)

theorem mem_readersOf {graph : InputGraph} {id reader : String} :
    reader ∈ graph.readersOf id ↔ ∃ inputs, (reader, inputs) ∈ graph.reads ∧ id ∈ inputs := by
  simp [readersOf]

end InputGraph

/-!
## The order of computation

Computed fields are placed one after the other, each when all the computed fields that it reads are
placed; those that wait longest come first. The fields that are never ready stand in a cycle or behind
one; they follow at the end, in definition order.
-/

/-- An order in the making: the fields placed so far, the fields that are ready in the order of their
turn, and for every computed field the number of its inputs still to be placed. -/
structure Scheduling where
  placed : List String
  ready : List String
  awaited : List (String × Nat)

namespace Scheduling

def count? (s : Scheduling) (id : String) : Option Nat := s.awaited.lookup id

def release (s : Scheduling) (reader : String) : Scheduling :=
  let awaited := s.awaited.map fun (id, n) => if id = reader then (id, n - 1) else (id, n)
  { s with
    awaited
    ready := if awaited.lookup reader = some 0 then s.ready ++ [reader] else s.ready }

def step? (graph : InputGraph) (s : Scheduling) : Option Scheduling :=
  match s.ready with
  | [] => none
  | id :: rest =>
    some ((graph.readersOf id).foldl release { s with placed := s.placed ++ [id], ready := rest })

def run (graph : InputGraph) : Nat → Scheduling → Scheduling
  | 0, s => s
  | steps + 1, s =>
    match s.step? graph with
    | some next => run graph steps next
    | none => s

end Scheduling

namespace InputGraph

def awaitedInputs (graph : InputGraph) : List (String × Nat) :=
  graph.reads.map fun (id, inputs) =>
    (id, (inputs.filter fun input => graph.derivedIds.contains input).length)

def initial (graph : InputGraph) : Scheduling where
  placed := []
  ready := (graph.awaitedInputs.filter fun (_, n) => n == 0).map Prod.fst
  awaited := graph.awaitedInputs

def schedule (graph : InputGraph) : Scheduling := graph.initial.run graph graph.reads.length

def cyclic (graph : InputGraph) : List String :=
  let placed := graph.schedule.placed
  graph.derivedIds.filter fun id => !placed.contains id

/-- All computed fields, inputs first, with the cyclic ones at the end. -/
def order (graph : InputGraph) : List String := graph.schedule.placed ++ graph.cyclic

def hasCycle (graph : InputGraph) : Bool := !graph.cyclic.isEmpty

end InputGraph

end DerivedForm
