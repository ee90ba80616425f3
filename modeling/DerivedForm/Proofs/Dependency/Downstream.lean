import DerivedForm.Proofs.Dependency.Graph
import Mathlib.Data.Finset.Card
import Mathlib.Data.Finset.Union
import Mathlib.Order.Monotone.Basic

/-!
# What lies downstream

Nothing is downstream of a field that cannot be reached from it: a set that holds the readers of the
field, and with each field its readers, holds all that is downstream. So being downstream is
transitive. A computed field that is out of reach of a source reads only fields that are out of its
reach, and what a target depends on depends only on what the target depends on.
-/

namespace DerivedForm

namespace InputGraph

variable {graph : InputGraph} {p : String → Prop}

theorem walk_subset {successors : String → List String} {visits : Nat}
    {unseen pending : List String} (hclosed : ∀ id, p id → ∀ next ∈ successors id, p next)
    (hpending : ∀ id ∈ pending, p id) :
    ∀ id ∈ walk successors visits unseen pending, p id := by
  induction visits generalizing unseen pending with
  | zero => simp [walk]
  | succ visits ih =>
    rw [walk]
    split
    · simp
    · rename_i first rest hdrop
      have hkept : ∀ id ∈ first :: rest, p id := fun id hid =>
        hpending id ((List.dropWhile_sublist _).subset (hdrop ▸ hid))
      obtain ⟨hfirst, hrest⟩ := List.forall_mem_cons.mp hkept
      refine List.forall_mem_cons.mpr ⟨hfirst, ih fun id hid => ?_⟩
      rcases List.mem_append.mp hid with hnext | hid
      · exact hclosed first hfirst id hnext
      · exact hrest id hid

/-- What is downstream of a field is in every set that holds its readers and is closed under
reading. -/
theorem downstream_subset {source : String} (hreaders : ∀ id ∈ graph.readersOf source, p id)
    (hclosed : ∀ id, p id → ∀ reader ∈ graph.readersOf id, p reader) :
    ∀ id ∈ graph.downstream source, p id :=
  walk_subset hclosed hreaders

theorem mem_derivedIds_of_mem_downstream {source id : String} (h : id ∈ graph.downstream source) :
    id ∈ graph.derivedIds :=
  downstream_subset (p := (· ∈ graph.derivedIds)) (fun _ => mem_derivedIds_of_mem_readersOf)
    (fun _ _ _ => mem_derivedIds_of_mem_readersOf) id h

theorem mem_downstream_trans {source id target : String} (h : id ∈ graph.downstream source)
    (htarget : target ∈ graph.downstream id) :
    target = source ∨ target ∈ graph.downstream source := by
  have hread : ∀ id, id = source ∨ id ∈ graph.downstream source →
      ∀ reader ∈ graph.readersOf id, reader = source ∨ reader ∈ graph.downstream source := by
    intro id hid reader hreader
    by_cases heq : reader = source
    · exact Or.inl heq
    · exact Or.inr (mem_downstream_of_reads hid hreader heq)
  exact downstream_subset (hread id (Or.inr h)) hread target htarget

end InputGraph

namespace Schema

variable {schema : Schema}

/-- The computed fields of the set read only fields of the set. -/
def ClosedUnderInputs (schema : Schema) (p : String → Prop) : Prop :=
  ∀ d ∈ schema.derived, p d.id → ∀ id ∈ d.inputs, p id

def OutOfReach (schema : Schema) (source id : String) : Prop :=
  id ≠ source ∧ id ∉ schema.graph.downstream source

def Upstream (schema : Schema) (target id : String) : Prop :=
  id = target ∨ target ∈ schema.graph.downstream id

theorem closed_outOfReach (schema : Schema) (source : String) :
    schema.ClosedUnderInputs (schema.OutOfReach source) := by
  rintro d hd ⟨hne, hdown⟩ id hid
  have hreader := mem_readersOf_graph hd hid
  constructor
  · rintro rfl
    exact hdown (InputGraph.mem_downstream_of_reads (Or.inl rfl) hreader hne)
  · intro hmem
    exact hdown (InputGraph.mem_downstream_of_reads (Or.inr hmem) hreader hne)

theorem closed_upstream (schema : Schema) (target : String) :
    schema.ClosedUnderInputs (schema.Upstream target) := by
  intro d hd hup id hid
  by_cases heq : id = target
  · exact Or.inl heq
  right
  by_cases hself : d.id = id
  · -- a field that reads itself is upstream of what it is upstream of
    rcases hup with rfl | hdown
    · exact absurd hself.symm heq
    · exact hself ▸ hdown
  have hread : d.id ∈ schema.graph.downstream id :=
    InputGraph.mem_downstream_of_reads (Or.inl rfl) (mem_readersOf_graph hd hid) hself
  rcases hup with rfl | hdown
  · exact hread
  · exact (InputGraph.mem_downstream_trans hread hdown).resolve_left (Ne.symm heq)

end Schema

/-!
## Distances in the graph

What is downstream of a field is sorted by its distance from the field: the readers of the field are
at a distance of one, and who reads a field at some distance is at most one further away. There are
no greater distances than there are computed fields, on cycles as well.
-/

namespace InputGraph

variable {graph : InputGraph} {source : String} {k : Nat}

def within (graph : InputGraph) (source : String) : Nat → Finset String
  | 0 => ∅
  | k + 1 => (graph.readersOf source).toFinset ∪
    (graph.within source k).biUnion fun id => (graph.readersOf id).toFinset

theorem mem_within_succ {id : String} : id ∈ graph.within source (k + 1) ↔
    id ∈ graph.readersOf source ∨ ∃ input ∈ graph.within source k, id ∈ graph.readersOf input := by
  simp [within]

theorem mem_derivedIds_of_mem_within {id : String} (h : id ∈ graph.within source k) :
    id ∈ graph.derivedIds := by
  cases k with
  | zero => simp [within] at h
  | succ k =>
    rcases mem_within_succ.mp h with hreads | ⟨input, -, hreads⟩
    · exact mem_derivedIds_of_mem_readersOf hreads
    · exact mem_derivedIds_of_mem_readersOf hreads

theorem within_subset_succ (graph : InputGraph) (source : String) (k : Nat) :
    graph.within source k ⊆ graph.within source (k + 1) := by
  induction k with
  | zero => exact Finset.empty_subset _
  | succ k ih =>
    intro id hid
    rcases mem_within_succ.mp hid with hreads | ⟨input, hinput, hreads⟩
    · exact mem_within_succ.mpr (Or.inl hreads)
    · exact mem_within_succ.mpr (Or.inr ⟨input, ih hinput, hreads⟩)

theorem monotone_within (graph : InputGraph) (source : String) :
    Monotone (graph.within source) :=
  monotone_nat_of_le_succ (graph.within_subset_succ source)

theorem within_succ_length (graph : InputGraph) (source : String) :
    graph.within source (graph.derivedIds.length + 1) =
      graph.within source graph.derivedIds.length := by
  have hmono : Monotone fun k => (graph.within source k).card :=
    fun _ _ hle => Finset.card_le_card (graph.monotone_within source hle)
  have hbound : ∀ k, (graph.within source k).card ≤ graph.derivedIds.length := by
    intro k
    have hsubset : graph.within source k ⊆ graph.derivedIds.toFinset :=
      fun _ hid => List.mem_toFinset.mpr (mem_derivedIds_of_mem_within hid)
    exact (Finset.card_le_card hsubset).trans (List.toFinset_card_le _)
  -- the sets grow until one step adds nothing, and then no step does
  have hstable : ∀ k, (graph.within source k).card = (graph.within source (k + 1)).card →
      (graph.within source (k + 1)).card = (graph.within source (k + 2)).card := by
    intro k hcard
    have heq : graph.within source k = graph.within source (k + 1) :=
      Finset.eq_of_subset_of_card_le (graph.within_subset_succ source k) hcard.ge
    rw [within, within, ← heq]
  have hcard := Nat.stabilises_of_monotone hmono hbound hstable (Nat.le_succ _)
  exact (Finset.eq_of_subset_of_card_le (graph.within_subset_succ source _) hcard.le).symm

theorem mem_within_of_mem_downstream :
    ∀ id ∈ graph.downstream source, id ∈ graph.within source graph.derivedIds.length := by
  apply downstream_subset
  · intro id hreads
    rw [← within_succ_length]
    exact mem_within_succ.mpr (Or.inl hreads)
  · intro id hid reader hreads
    rw [← within_succ_length]
    exact mem_within_succ.mpr (Or.inr ⟨id, hid, hreads⟩)

end InputGraph

end DerivedForm
