import DerivedForm.Proofs.Dependency.Scheduling
import Mathlib.Data.List.Perm.Subperm

/-!
# Counting down

The counter of a field goes down by one with each of its inputs that is placed. When one is taken off
a counter, the field still waits for the input that has just been placed, so no counter is at zero
then: the scheduling that checks every counter is the scheduling. It goes on until no field is ready,
and for that it needs no more steps than there are computed fields.
-/

namespace DerivedForm

namespace Scheduling

def release? (s : Scheduling) (reader : String) : Option Scheduling :=
  if s.count? reader = some 0 then none else some (s.release reader)

def place? (graph : InputGraph) (s : Scheduling) (id : String) (rest : List String) :
    Option Scheduling :=
  (graph.readersOf id).foldlM release? { s with placed := s.placed ++ [id], ready := rest }

/-- The scheduling that stops with nothing where a counter would go below zero. -/
def run? (graph : InputGraph) : Nat → Scheduling → Option Scheduling
  | 0, s => some s
  | steps + 1, s =>
    match s.ready with
    | [] => some s
    | id :: rest => (s.place? graph id rest).bind (run? graph steps)

variable {graph : InputGraph} {s : Scheduling} {id : String} {rest readers : List String}
  {steps : Nat}

theorem foldlM_release? (hreaders : readers.Nodup)
    (hcount : ∀ reader ∈ readers, s.count? reader ≠ some 0) :
    readers.foldlM release? s = some (readers.foldl release s) := by
  induction readers generalizing s with
  | nil => rfl
  | cons reader rest ih =>
    obtain ⟨hreader, hrest⟩ := List.nodup_cons.mp hreaders
    obtain ⟨hfirst, hothers⟩ := List.forall_mem_cons.mp hcount
    have hsame : ∀ other ∈ rest, (s.release reader).count? other = s.count? other := by
      intro other hother
      have hne : other ≠ reader := fun heq => hreader (heq ▸ hother)
      rw [count?_release]
      simp [hne]
    rw [List.foldlM_cons, release?, if_neg hfirst, List.foldl_cons]
    exact ih hrest fun other hother => hsame other hother ▸ hothers other hother

theorem Consistent.place?_eq (hg : graph.WellFormed) (h : s.Consistent graph)
    (hready : s.ready = id :: rest) : s.place? graph id rest = some (s.place graph id rest) := by
  apply foldlM_release? (InputGraph.nodup_readersOf hg id)
  intro reader hreader hzero
  obtain ⟨inputs, hmem, hreads⟩ := InputGraph.mem_readersOf.mp hreader
  -- the field that is placed is one of those that its reader still waits for
  have hwaiting : id ∈ graph.waiting s.placed inputs := InputGraph.mem_waiting.mpr
    ⟨hreads, h.derived id (mem_append_of_ready hready), h.notMem_placed hready⟩
  have hcount : s.count? reader = some (graph.waiting s.placed inputs).length :=
    h.count reader inputs hmem
  have hnil : (graph.waiting s.placed inputs).length = 0 :=
    Option.some.inj (hcount.symm.trans hzero)
  exact absurd hnil (List.length_pos_of_mem hwaiting).ne'

theorem run_of_ready_nil (hready : s.ready = []) : s.run graph steps = s := by
  cases steps with
  | zero => rfl
  | succ steps => simp [run, step?, hready]

theorem run_succ (hready : s.ready = id :: rest) :
    s.run graph (steps + 1) = (s.place graph id rest).run graph steps := by
  simp [run, step?, hready, place]

theorem run_add (more : Nat) :
    s.run graph (steps + more) = (s.run graph steps).run graph more := by
  induction steps generalizing s with
  | zero => rw [Nat.zero_add, run]
  | succ steps ih =>
    cases hready : s.ready with
    | nil => rw [run_of_ready_nil hready, run_of_ready_nil hready, run_of_ready_nil hready]
    | cons id rest => rw [Nat.succ_add, run_succ hready, run_succ hready, ih]

theorem Consistent.run?_eq (hg : graph.WellFormed) (h : s.Consistent graph) :
    s.run? graph steps = some (s.run graph steps) := by
  induction steps generalizing s with
  | zero => rfl
  | succ steps ih =>
    rw [run?]
    split
    · rename_i hready
      rw [run_of_ready_nil hready]
    · rename_i id rest hready
      rw [h.place?_eq hg hready, Option.bind_some, ih (h.place hg hready), run_succ hready]

theorem ready_run (graph : InputGraph) (s : Scheduling) (steps : Nat) :
    (s.run graph steps).ready = [] ∨
      (s.run graph steps).placed.length = s.placed.length + steps := by
  induction steps generalizing s with
  | zero => exact Or.inr rfl
  | succ steps ih =>
    cases hready : s.ready with
    | nil =>
      rw [run_of_ready_nil hready]
      exact Or.inl hready
    | cons id rest =>
      rw [run_succ hready]
      refine (ih (s.place graph id rest)).imp_right fun hlength => ?_
      rw [hlength, placed_place, List.length_append, List.length_singleton]
      omega

theorem Consistent.length_le (h : s.Consistent graph) :
    s.placed.length + s.ready.length ≤ graph.derivedIds.length := by
  rw [← List.length_append]
  exact (h.nodup.subperm h.derived).length_le

end Scheduling

namespace InputGraph

variable {graph : InputGraph}

theorem length_derivedIds (graph : InputGraph) : graph.derivedIds.length = graph.reads.length :=
  List.length_map _

theorem ready_schedule (hg : graph.WellFormed) : graph.schedule.ready = [] := by
  rcases Scheduling.ready_run graph graph.initial graph.reads.length with hready | hlength
  · exact hready
  · have hall : graph.schedule.placed.length = graph.derivedIds.length := by
      rw [length_derivedIds]
      exact hlength.trans (Nat.zero_add _)
    have hbound := (consistent_schedule hg).length_le
    apply List.length_eq_zero_iff.mp
    omega

theorem run?_initial (hg : graph.WellFormed) {steps : Nat} (hsteps : graph.reads.length ≤ steps) :
    graph.initial.run? graph steps = some graph.schedule := by
  obtain ⟨more, rfl⟩ := Nat.exists_eq_add_of_le hsteps
  rw [(Scheduling.consistent_initial hg).run?_eq hg, Scheduling.run_add]
  exact congrArg some (Scheduling.run_of_ready_nil (ready_schedule hg))

end InputGraph

namespace Schema

theorem length_reads (schema : Schema) : schema.graph.reads.length = schema.derived.length :=
  List.length_map _

/-- The order of computation lists every computed field once, inputs first, and the cyclic fields at
its end as they are defined. The fields before them are those that the scheduling has placed when no
field is ready any more; no counter is ever at zero when one is taken off, however many steps are
made. -/
theorem order_inputsFirst (schema : Schema) :
    (schema.graph.order.Nodup ∧ ∀ id, id ∈ schema.graph.order ↔ ∃ d ∈ schema.derived, d.id = id) ∧
    (∀ d ∈ schema.derived, d.id ∉ schema.graph.cyclic → ∀ e ∈ schema.derived, e.id ∈ d.inputs →
      schema.graph.order.idxOf e.id < schema.graph.order.idxOf d.id) ∧
    (schema.graph.cyclic <:+ schema.graph.order ∧
      schema.graph.cyclic.Sublist (schema.definitions.map FieldDefinition.id)) ∧
    ∀ steps, schema.derived.length ≤ steps →
      ∃ last, schema.graph.initial.run? schema.graph steps = some last ∧ last.ready = [] ∧
        schema.graph.order = last.placed ++ schema.graph.cyclic := by
  have hg := InputGraph.wellFormed_graph schema
  refine ⟨⟨InputGraph.nodup_order hg, fun id => ?_⟩, ?_, ⟨List.suffix_append _ _, ?_⟩, ?_⟩
  · rw [InputGraph.mem_order hg, mem_derivedIds_graph]
  · intro d hd hcyclic e he hinput
    exact (InputGraph.rank_lt_of_input hg (mem_derivedIds_of_mem hd) hcyclic
      ((mem_inputsOf_graph hd).mpr hinput) (mem_derivedIds_of_mem he)).2
  · have hderived : schema.graph.cyclic.Sublist schema.graph.derivedIds := List.filter_sublist
    rw [derivedIds_graph] at hderived
    exact hderived.trans (List.filter_sublist.map _)
  · intro steps hsteps
    rw [← length_reads] at hsteps
    exact ⟨schema.graph.schedule, InputGraph.run?_initial hg hsteps,
      InputGraph.ready_schedule hg, rfl⟩

theorem order_inputsFirst_shipment :
    shipment.graph.order = ["fee", "postage", "net", "gross", "total", "count"] ∧
      shipment.graph.cyclic = ["net", "gross", "total", "count"] ∧
      shipment.graph.order.idxOf "fee" < shipment.graph.order.idxOf "postage" ∧
      ∃ last, shipment.graph.initial.run? shipment.graph 6 = some last ∧ last.ready = [] ∧
        shipment.graph.order = last.placed ++ ["net", "gross", "total", "count"] := by
  have hcyclic : shipment.graph.cyclic = ["net", "gross", "total", "count"] := by decide +kernel
  obtain ⟨-, hfirst, -, hrun⟩ := order_inputsFirst shipment
  refine ⟨by decide +kernel, hcyclic, ?_, hcyclic ▸ hrun 6 (by decide)⟩
  exact hfirst _ (by decide : shipment.definitions[2] ∈ shipment.derived) (by decide +kernel) _
    (by decide : shipment.definitions[3] ∈ shipment.derived) (by decide)

end Schema

end DerivedForm
