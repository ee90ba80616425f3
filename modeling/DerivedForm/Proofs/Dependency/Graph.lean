import DerivedForm.Dependency.Graph
import Mathlib.Data.List.Nodup
import Mathlib.Data.List.TakeWhile

/-!
# The graph of a schema

The graph lists every computed field once, each with its inputs once. What is downstream of a field
is closed under reading: whoever reads it is downstream as well.
-/

namespace DerivedForm

theorem lookup_of_mem {α : Type} {pairs : List (String × α)} (hkeys : (pairs.map Prod.fst).Nodup)
    {key : String} {value : α} (h : (key, value) ∈ pairs) : pairs.lookup key = some value := by
  induction pairs with
  | nil => cases h
  | cons pair rest ih =>
    obtain ⟨k, v⟩ := pair
    obtain ⟨hk, hrest⟩ := List.nodup_cons.mp hkeys
    rcases List.mem_cons.mp h with heq | hmem
    · obtain ⟨rfl, rfl⟩ := Prod.mk.inj heq
      exact List.lookup_cons_self
    · have hkey : key ∈ rest.map Prod.fst := List.mem_map_of_mem hmem
      have hne : key ≠ k := by
        rintro rfl
        exact hk hkey
      rw [List.lookup_cons, beq_eq_false_iff_ne.mpr hne]
      exact ih hrest hmem

theorem lookup_map_snd {α β : Type} (f : α → β) (pairs : List (String × α)) (key : String) :
    (pairs.map fun (k, v) => (k, f v)).lookup key = (pairs.lookup key).map f := by
  induction pairs with
  | nil => rfl
  | cons pair rest ih =>
    obtain ⟨k, v⟩ := pair
    rw [List.map_cons, List.lookup_cons, List.lookup_cons, ih]
    split <;> rfl

namespace Schema

variable {schema : Schema}

theorem get?_of_mem {d : FieldDefinition} (h : d ∈ schema.definitions) :
    schema.get? d.id = some d := by
  have hdistinct := schema.distinct
  unfold get?
  generalize schema.definitions = definitions at h hdistinct
  induction definitions with
  | nil => cases h
  | cons first rest ih =>
    obtain ⟨hfirst, hrest⟩ := List.nodup_cons.mp hdistinct
    rcases List.mem_cons.mp h with rfl | hmem
    · simp
    · have hne : first.id ≠ d.id := fun heq => hfirst (heq ▸ List.mem_map_of_mem hmem)
      rw [List.find?_cons_of_neg (by simpa using hne)]
      exact ih hmem hrest

theorem eq_of_id_eq {d d' : FieldDefinition} (h : d ∈ schema.definitions)
    (h' : d' ∈ schema.definitions) (hid : d.id = d'.id) : d = d' := by
  have := get?_of_mem h
  rw [hid, get?_of_mem h'] at this
  exact (Option.some.inj this).symm

theorem contains_of_mem {d : FieldDefinition} (h : d ∈ schema.definitions) :
    schema.contains d.id = true :=
  (schema.contains_iff d.id).mpr (List.mem_map_of_mem h)

theorem mem_derived {d : FieldDefinition} :
    d ∈ schema.derived ↔ d ∈ schema.definitions ∧ d.isDerived = true :=
  List.mem_filter

theorem nodup_derived_ids (schema : Schema) : (schema.derived.map FieldDefinition.id).Nodup :=
  schema.distinct.sublist (List.filter_sublist.map _)

theorem derivedIds_graph (schema : Schema) :
    schema.graph.derivedIds = schema.derived.map FieldDefinition.id := by
  simp [graph, InputGraph.derivedIds]

theorem mem_derivedIds_graph {id : String} :
    id ∈ schema.graph.derivedIds ↔ ∃ d ∈ schema.derived, d.id = id := by
  rw [derivedIds_graph, List.mem_map]

theorem mem_derivedIds_of_mem {d : FieldDefinition} (h : d ∈ schema.derived) :
    d.id ∈ schema.graph.derivedIds :=
  mem_derivedIds_graph.mpr ⟨d, h, rfl⟩

theorem inputsOf_graph {d : FieldDefinition} (h : d ∈ schema.derived) :
    schema.graph.inputsOf d.id = withoutRepeats d.inputs := by
  have hkeys : (schema.graph.reads.map Prod.fst).Nodup := by
    have := schema.nodup_derived_ids
    rwa [← derivedIds_graph] at this
  have hmem : (d.id, withoutRepeats d.inputs) ∈ schema.graph.reads := List.mem_map_of_mem h
  rw [InputGraph.inputsOf, lookup_of_mem hkeys hmem, Option.getD_some]

theorem mem_inputsOf_graph {d : FieldDefinition} (h : d ∈ schema.derived) {input : String} :
    input ∈ schema.graph.inputsOf d.id ↔ input ∈ d.inputs := by
  rw [inputsOf_graph h, mem_withoutRepeats]

theorem mem_readersOf_graph {d : FieldDefinition} (h : d ∈ schema.derived) {input : String}
    (hinput : input ∈ d.inputs) : d.id ∈ schema.graph.readersOf input :=
  InputGraph.mem_readersOf.mpr
    ⟨withoutRepeats d.inputs, List.mem_map_of_mem h, mem_withoutRepeats.mpr hinput⟩

def ReadBy (schema : Schema) (id reader : String) : Prop :=
  ∃ d ∈ schema.derived, d.id = reader ∧ id ∈ d.inputs

theorem mem_readersOf_iff {id reader : String} :
    reader ∈ schema.graph.readersOf id ↔ schema.ReadBy id reader := by
  constructor
  · intro h
    obtain ⟨inputs, hmem, hinput⟩ := InputGraph.mem_readersOf.mp h
    obtain ⟨d, hd, heq⟩ := List.mem_map.mp hmem
    obtain ⟨rfl, rfl⟩ := Prod.mk.inj heq
    exact ⟨d, hd, rfl, mem_withoutRepeats.mp hinput⟩
  · rintro ⟨d, hd, rfl, hinput⟩
    exact mem_readersOf_graph hd hinput

end Schema

namespace InputGraph

structure WellFormed (graph : InputGraph) : Prop where
  nodup : graph.derivedIds.Nodup
  inputs : ∀ id inputs, (id, inputs) ∈ graph.reads → inputs.Nodup

theorem wellFormed_graph (schema : Schema) : schema.graph.WellFormed where
  nodup := by
    rw [schema.derivedIds_graph]
    exact schema.nodup_derived_ids
  inputs := by
    intro id inputs h
    obtain ⟨d, -, hd⟩ := List.mem_map.mp h
    obtain ⟨-, rfl⟩ := Prod.mk.inj hd
    exact nodup_withoutRepeats _

variable {graph : InputGraph}

theorem mem_derivedIds {id : String} :
    id ∈ graph.derivedIds ↔ ∃ inputs, (id, inputs) ∈ graph.reads := by
  simp [derivedIds]

theorem WellFormed.inputsOf (h : graph.WellFormed) {id : String} {inputs : List String}
    (hmem : (id, inputs) ∈ graph.reads) : graph.inputsOf id = inputs := by
  rw [InputGraph.inputsOf, lookup_of_mem h.nodup hmem, Option.getD_some]

theorem mem_derivedIds_of_mem_readersOf {id reader : String} (h : reader ∈ graph.readersOf id) :
    reader ∈ graph.derivedIds := by
  obtain ⟨inputs, hmem, -⟩ := mem_readersOf.mp h
  exact mem_derivedIds.mpr ⟨inputs, hmem⟩

theorem nodup_readersOf (h : graph.WellFormed) (id : String) : (graph.readersOf id).Nodup :=
  h.nodup.sublist (List.filter_sublist.map _)

theorem mem_dropWhile_seen {unseen pending : List String} {id : String} (hid : id ∈ pending)
    (hunseen : id ∈ unseen) : id ∈ pending.dropWhile fun id => !unseen.contains id := by
  rw [← List.takeWhile_append_dropWhile (p := fun id => !unseen.contains id) (l := pending),
    List.mem_append] at hid
  rcases hid with htaken | hrest
  · have := List.mem_takeWhile_imp htaken
    simp [hunseen] at this
  · exact hrest

theorem mem_unseen_of_dropWhile {unseen pending rest : List String} {first : String}
    (h : (pending.dropWhile fun id => !unseen.contains id) = first :: rest) : first ∈ unseen := by
  have hhead := List.head?_dropWhile_not (fun id => !unseen.contains id) pending
  rw [h] at hhead
  simpa using hhead

/-- With a visit for every unseen id, the walk lists what is pending and what follows it. -/
theorem mem_walk {successors : String → List String} {visits : Nat} {unseen : List String}
    (hvisits : unseen.length ≤ visits) (pending : List String) :
    (∀ id ∈ pending, id ∈ unseen → id ∈ walk successors visits unseen pending) ∧
      ∀ id ∈ walk successors visits unseen pending, ∀ next ∈ successors id, next ∈ unseen →
        next ∈ walk successors visits unseen pending := by
  induction visits generalizing unseen pending with
  | zero =>
    obtain rfl : unseen = [] := List.length_eq_zero_iff.mp (Nat.le_zero.mp hvisits)
    simp [walk]
  | succ visits ih =>
    rw [walk]
    split
    · rename_i hdrop
      refine ⟨fun id hid hunseen => ?_, by simp⟩
      have hmem := mem_dropWhile_seen hid hunseen
      rwa [hdrop] at hmem
    · rename_i first rest hdrop
      have hlength : (unseen.erase first).length ≤ visits := by
        rw [List.length_erase_of_mem (mem_unseen_of_dropWhile hdrop)]
        omega
      obtain ⟨hpending, hclosed⟩ :=
        ih hlength (successors first ++ rest)
      -- an unseen id is the one just listed, or it is still unseen afterwards
      have hstep : ∀ id ∈ successors first ++ rest, id ∈ unseen →
          id ∈ first :: walk successors visits (unseen.erase first) (successors first ++ rest) := by
        intro id hid hunseen
        by_cases heq : id = first
        · exact heq ▸ List.mem_cons_self
        · exact List.mem_cons_of_mem _ (hpending id hid ((List.mem_erase_of_ne heq).mpr hunseen))
      constructor
      · intro id hid hunseen
        have hmem := mem_dropWhile_seen hid hunseen
        rw [hdrop] at hmem
        rcases List.mem_cons.mp hmem with rfl | hrest
        · exact List.mem_cons_self
        · exact hstep id (List.mem_append_right _ hrest) hunseen
      · intro id hid next hnext hunseen
        rcases List.mem_cons.mp hid with rfl | hid
        · exact hstep next (List.mem_append_left _ hnext) hunseen
        · by_cases heq : next = first
          · exact heq ▸ List.mem_cons_self
          · exact List.mem_cons_of_mem _
              (hclosed id hid next hnext ((List.mem_erase_of_ne heq).mpr hunseen))

theorem mem_downstream_of_reads {source id reader : String}
    (h : id = source ∨ id ∈ graph.downstream source) (hreader : reader ∈ graph.readersOf id)
    (hne : reader ≠ source) : reader ∈ graph.downstream source := by
  unfold downstream at h ⊢
  obtain ⟨hpending, hclosed⟩ :=
    mem_walk (Nat.le_refl (graph.derivedIds.erase source).length) (graph.readersOf source)
  have hunseen : reader ∈ graph.derivedIds.erase source :=
    (List.mem_erase_of_ne hne).mpr (mem_derivedIds_of_mem_readersOf hreader)
  rcases h with rfl | hmem
  · exact hpending reader hreader hunseen
  · exact hclosed id hmem reader hreader hunseen

end InputGraph

/-- Inputs of every kind: repeated, not there, the field itself, in a cycle and behind one. The total
without the postage may be typed in by hand. -/
def Schema.shipment : Schema where
  definitions :=
    [⟨"note", "Note", .text, true, false, none⟩,
      ⟨"rate", "Rate", .decimal, true, false, none⟩,
      ⟨"postage", "Postage", .decimal, false, false,
        some ⟨"{fee} + {fee}", ["fee", "fee"], 2, false⟩⟩,
      ⟨"fee", "Fee", .decimal, false, false,
        some ⟨"{rate} * {tariff}", ["rate", "tariff", "rate"], 2, false⟩⟩,
      ⟨"net", "Net price", .decimal, true, false,
        some ⟨"{gross} - {rate}", ["gross", "rate"], 2, false⟩⟩,
      ⟨"gross", "With tax", .decimal, false, false,
        some ⟨"{net} + {rate}", ["net", "rate", "tariff"], 2, true⟩⟩,
      ⟨"total", "Total", .decimal, false, false,
        some ⟨"{gross} + {postage}", ["gross", "postage"], 2, false⟩⟩,
      ⟨"count", "Count", .integer, false, false, some ⟨"{count} + 1", ["count"], 0, false⟩⟩]
  distinct := by decide

end DerivedForm
