import DerivedForm.Proofs.Dependency.Countdown
import DerivedForm.Proofs.Dependency.Exploration
import Mathlib.Data.Set.Finite.Basic
import Mathlib.Data.Set.Finite.List

/-!
# Fields in a cycle or behind one

A field that is left over when no field is ready awaits a computed input that is left over too, so the
way along such inputs never ends; as there are finitely many fields, it comes to a cycle. A field that
is placed awaits only fields that are placed before it, so its way ends and comes to no cycle.
-/

namespace DerivedForm

open Relation (ReflTransGen TransGen)

/-- Where every member of a list leads to another member, a cycle can be reached from each. -/
theorem exists_cycle_of_forall_exists {α : Type} {r : α → α → Prop} {members : List α}
    (hnext : ∀ a ∈ members, ∃ b ∈ members, r a b) {start : α} (hstart : start ∈ members) :
    ∃ knot, ReflTransGen r start knot ∧ TransGen r knot knot := by
  by_contra hnone
  push Not at hnone
  -- without a cycle, going along `r` from the start is well-founded, so it ends somewhere
  let Met := { b // b ∈ members ∧ ReflTransGen r start b }
  have hfinite : Finite Met :=
    Set.Finite.subset members.finite_toSet fun b (hb : b ∈ members ∧ _) => hb.1
  let back : Met → Met → Prop := fun c b => TransGen r b.1 c.1
  have htrans : IsTrans Met back := ⟨fun _ _ _ h h' => h'.trans h⟩
  have hirrefl : Std.Irrefl back := ⟨fun b => hnone b.1 b.2.2⟩
  have hwf : WellFounded back := Finite.wellFounded_of_trans_of_irrefl back
  have hend : ∀ b : Met, False := by
    intro b
    induction b using hwf.induction with
    | _ b ih =>
      obtain ⟨c, hc, hbc⟩ := hnext b.1 b.2.1
      exact ih ⟨c, hc, b.2.2.tail hbc⟩ (.single hbc)
  exact hend ⟨start, hstart, .refl⟩

namespace Schema

variable {schema : Schema} {id input other : String}

def Awaits (schema : Schema) (id input : String) : Prop :=
  schema.ReadBy input id ∧ ∃ e ∈ schema.derived, e.id = input

theorem awaits_iff : schema.Awaits id input ↔ id ∈ schema.graph.derivedIds ∧
    input ∈ schema.graph.inputsOf id ∧ input ∈ schema.graph.derivedIds := by
  rw [Awaits, ← mem_derivedIds_graph]
  constructor
  · rintro ⟨⟨d, hd, rfl, hreads⟩, hinput⟩
    exact ⟨mem_derivedIds_of_mem hd, (mem_inputsOf_graph hd).mpr hreads, hinput⟩
  · rintro ⟨hid, hreads, hinput⟩
    obtain ⟨d, hd, rfl⟩ := mem_derivedIds_graph.mp hid
    exact ⟨⟨d, hd, rfl, (mem_inputsOf_graph hd).mp hreads⟩, hinput⟩

theorem exists_cyclic_of_cyclic (h : id ∈ schema.graph.cyclic) :
    ∃ input ∈ schema.graph.cyclic, schema.Awaits id input := by
  have hg := InputGraph.wellFormed_graph schema
  have hend := InputGraph.consistent_schedule hg
  obtain ⟨hid, hplaced⟩ := InputGraph.mem_cyclic.mp h
  obtain ⟨inputs, hmem⟩ := InputGraph.mem_derivedIds.mp hid
  have hwaiting : schema.graph.waiting schema.graph.schedule.placed inputs ≠ [] := by
    rw [Ne, ← hend.free id inputs hmem, InputGraph.ready_schedule hg, List.append_nil]
    exact hplaced
  obtain ⟨input, hinput⟩ := List.exists_mem_of_ne_nil _ hwaiting
  obtain ⟨hreads, hderived, hopen⟩ := InputGraph.mem_waiting.mp hinput
  refine ⟨input, InputGraph.mem_cyclic.mpr ⟨hderived, hopen⟩, awaits_iff.mpr ⟨hid, ?_, hderived⟩⟩
  rwa [hg.inputsOf hmem]

theorem rank_lt_of_transGen (hpath : TransGen schema.Awaits id other)
    (hid : id ∉ schema.graph.cyclic) :
    other ∉ schema.graph.cyclic ∧ schema.graph.rank other < schema.graph.rank id := by
  have hstep : ∀ {id input}, schema.Awaits id input → id ∉ schema.graph.cyclic →
      input ∉ schema.graph.cyclic ∧ schema.graph.rank input < schema.graph.rank id := by
    intro id input hawaits hid
    obtain ⟨hderived, hreads, hinput⟩ := awaits_iff.mp hawaits
    exact InputGraph.rank_lt_of_input (InputGraph.wellFormed_graph schema) hderived hid hreads hinput
  induction hpath with
  | single hawaits => exact hstep hawaits hid
  | tail _ hawaits ih =>
    obtain ⟨hmiddle, hlt⟩ := ih
    obtain ⟨hother, hlt'⟩ := hstep hawaits hmiddle
    exact ⟨hother, hlt'.trans hlt⟩

theorem notMem_cyclic_of_reflTransGen (hpath : ReflTransGen schema.Awaits id other)
    (hid : id ∉ schema.graph.cyclic) : other ∉ schema.graph.cyclic := by
  rcases Relation.reflTransGen_iff_eq_or_transGen.mp hpath with rfl | hpath
  · exact hid
  · exact (rank_lt_of_transGen hpath hid).1

theorem mem_cyclic_iff : id ∈ schema.graph.cyclic ↔
    ∃ knot, ReflTransGen schema.Awaits id knot ∧ TransGen schema.Awaits knot knot := by
  constructor
  · exact exists_cycle_of_forall_exists fun _ => exists_cyclic_of_cyclic
  · rintro ⟨knot, hpath, hcycle⟩
    by_contra hid
    have hknot := notMem_cyclic_of_reflTransGen hpath hid
    exact lt_irrefl _ (rank_lt_of_transGen hcycle hknot).2

theorem exists_derived_of_cycle (h : TransGen schema.Awaits id id) :
    ∃ d ∈ schema.derived, d.id = id := by
  obtain ⟨input, ⟨⟨d, hd, hid, -⟩, -⟩, -⟩ := Relation.TransGen.head'_iff.mp h
  exact ⟨d, hd, hid⟩

/-- The cyclic fields are, as they are defined, the computed fields from which computed inputs lead to
a cycle. So there are some if and only if a computed field depends on itself. -/
theorem cyclic_iff_reaches_cycle (schema : Schema) :
    schema.graph.cyclic.Sublist (schema.derived.map FieldDefinition.id) ∧
    (∀ d ∈ schema.derived, d.id ∈ schema.graph.cyclic ↔
      ∃ knot, ReflTransGen schema.Awaits d.id knot ∧ TransGen schema.Awaits knot knot) ∧
    (schema.graph.hasCycle = true ↔ ∃ d ∈ schema.derived, TransGen schema.Awaits d.id d.id) := by
  refine ⟨?_, fun d _ => mem_cyclic_iff, ?_⟩
  · rw [← derivedIds_graph]
    exact List.filter_sublist
  · rw [InputGraph.hasCycle, Bool.not_eq_true', List.isEmpty_eq_false_iff_exists_mem]
    constructor
    · rintro ⟨id, hid⟩
      obtain ⟨knot, -, hcycle⟩ := mem_cyclic_iff.mp hid
      obtain ⟨d, hd, rfl⟩ := exists_derived_of_cycle hcycle
      exact ⟨d, hd, hcycle⟩
    · rintro ⟨d, -, hcycle⟩
      exact ⟨d.id, mem_cyclic_iff.mpr ⟨d.id, .refl, hcycle⟩⟩

theorem cyclic_iff_reaches_cycle_shipment :
    (∃ knot, ReflTransGen shipment.Awaits "total" knot ∧ TransGen shipment.Awaits knot knot) ∧
      (¬ ∃ knot, ReflTransGen shipment.Awaits "postage" knot ∧
        TransGen shipment.Awaits knot knot) ∧
      shipment.graph.hasCycle = true ∧
      ∃ d ∈ shipment.derived, TransGen shipment.Awaits d.id d.id := by
  obtain ⟨-, hreaches, hsome⟩ := cyclic_iff_reaches_cycle shipment
  have htotal := hreaches _ (by decide : shipment.definitions[6] ∈ shipment.derived)
  have hpostage := hreaches _ (by decide : shipment.definitions[2] ∈ shipment.derived)
  have hcycle : shipment.graph.hasCycle = true := by decide +kernel
  exact ⟨htotal.mp (by decide +kernel), hpostage.not.mp (by decide +kernel), hcycle,
    hsome.mp hcycle⟩

end Schema

end DerivedForm
