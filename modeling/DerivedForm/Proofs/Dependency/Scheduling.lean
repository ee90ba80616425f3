import DerivedForm.Proofs.Dependency.Graph
import Mathlib.Data.List.Basic

/-!
# The order of computation is a topological order

At every moment of the scheduling the counters tell how many inputs of a field are still to be
placed, the ready fields are those that wait for none, and a placed field stands behind its computed
inputs. At the end the cyclic fields follow, so no field outside of them reads a field at or behind
its own place.
-/

namespace DerivedForm

namespace InputGraph

def waiting (graph : InputGraph) (placed inputs : List String) : List String :=
  inputs.filter fun input => graph.derivedIds.contains input && !placed.contains input

/-- The place of a field in the order of computation. -/
def rank (graph : InputGraph) (id : String) : Nat := graph.order.idxOf id

variable {graph : InputGraph}

theorem mem_waiting {placed inputs : List String} {id : String} :
    id ∈ graph.waiting placed inputs ↔ id ∈ inputs ∧ id ∈ graph.derivedIds ∧ id ∉ placed := by
  simp [waiting]

theorem waiting_eq_nil_iff {placed inputs : List String} :
    graph.waiting placed inputs = [] ↔ ∀ id ∈ inputs, id ∈ graph.derivedIds → id ∈ placed := by
  simp [waiting, List.filter_eq_nil_iff]

theorem waiting_snoc (placed inputs : List String) (id : String) :
    graph.waiting (placed ++ [id]) inputs = (graph.waiting placed inputs).filter (· != id) := by
  unfold waiting
  rw [List.filter_filter]
  refine List.filter_congr fun input _ => ?_
  by_cases heq : input = id <;> simp [heq]

theorem waiting_snoc_of_mem {placed inputs : List String} {id : String} (hinputs : inputs.Nodup)
    (hmem : id ∈ inputs) (hid : id ∈ graph.derivedIds) (hplaced : id ∉ placed) :
    (graph.waiting (placed ++ [id]) inputs).length + 1 = (graph.waiting placed inputs).length := by
  have hwaiting : id ∈ graph.waiting placed inputs := mem_waiting.mpr ⟨hmem, hid, hplaced⟩
  have hnodup : (graph.waiting placed inputs).Nodup := hinputs.filter _
  have hpos := List.length_pos_of_mem hwaiting
  rw [waiting_snoc, ← hnodup.erase_eq_filter, List.length_erase_of_mem hwaiting]
  omega

theorem waiting_snoc_of_notMem {placed inputs : List String} {id : String} (hmem : id ∉ inputs) :
    graph.waiting (placed ++ [id]) inputs = graph.waiting placed inputs := by
  rw [waiting_snoc, List.filter_eq_self]
  intro input hinput
  have hne : input ≠ id := fun heq => hmem (heq ▸ (mem_waiting.mp hinput).1)
  simpa using hne

end InputGraph

namespace Scheduling

theorem count?_release (s : Scheduling) (reader id : String) :
    (s.release reader).count? id =
      (s.count? id).map fun n => if id = reader then n - 1 else n := by
  unfold count? release
  induction s.awaited with
  | nil => rfl
  | cons pair rest ih =>
    obtain ⟨k, n⟩ := pair
    dsimp only at ih ⊢
    rw [List.map_cons]
    by_cases heq : id = k
    · subst heq
      split <;> simp
    · split <;> simpa [List.lookup_cons, beq_eq_false_iff_ne.mpr heq] using ih

theorem placed_release (s : Scheduling) (reader : String) :
    (s.release reader).placed = s.placed := rfl

theorem ready_release (s : Scheduling) (reader : String) :
    (s.release reader).ready =
      s.ready ++ if (s.release reader).count? reader = some 0 then [reader] else [] := by
  unfold release count?
  dsimp only
  split <;> simp

theorem placed_foldl_release (readers : List String) (s : Scheduling) :
    (readers.foldl release s).placed = s.placed := by
  induction readers generalizing s with
  | nil => rfl
  | cons reader rest ih => rw [List.foldl_cons, ih, placed_release]

theorem count?_foldl_release {readers : List String} (h : readers.Nodup) (s : Scheduling)
    (id : String) : (readers.foldl release s).count? id =
      (s.count? id).map fun n => if id ∈ readers then n - 1 else n := by
  induction readers generalizing s with
  | nil => simp
  | cons reader rest ih =>
    obtain ⟨hreader, hrest⟩ := List.nodup_cons.mp h
    rw [List.foldl_cons, ih hrest, count?_release, Option.map_map]
    congr 1
    funext n
    by_cases heq : id = reader
    · simp [heq, hreader]
    · simp [heq]

theorem ready_foldl_release {readers : List String} (h : readers.Nodup) (s : Scheduling) :
    (readers.foldl release s).ready = s.ready ++
      readers.filter fun id => (readers.foldl release s).count? id = some 0 := by
  induction readers generalizing s with
  | nil => simp
  | cons reader rest ih =>
    obtain ⟨hreader, hrest⟩ := List.nodup_cons.mp h
    have hcount : (rest.foldl release (s.release reader)).count? reader =
        (s.release reader).count? reader := by
      rw [count?_foldl_release hrest]
      simp [hreader]
    rw [List.foldl_cons, ih hrest, ready_release, List.filter_cons, hcount, List.append_assoc]
    congr 1
    by_cases hzero : (s.release reader).count? reader = some 0 <;> simp [hzero]

/-- What holds of every moment of the scheduling. -/
structure Consistent (graph : InputGraph) (s : Scheduling) : Prop where
  nodup : (s.placed ++ s.ready).Nodup
  derived : ∀ id ∈ s.placed ++ s.ready, id ∈ graph.derivedIds
  count : ∀ id inputs, (id, inputs) ∈ graph.reads →
    s.count? id = some (graph.waiting s.placed inputs).length
  free : ∀ id inputs, (id, inputs) ∈ graph.reads →
    (id ∈ s.placed ++ s.ready ↔ graph.waiting s.placed inputs = [])
  ordered : ∀ id ∈ s.placed, ∀ input ∈ graph.inputsOf id, input ∈ graph.derivedIds →
    input ∈ s.placed ∧ s.placed.idxOf input < s.placed.idxOf id

variable {graph : InputGraph}

theorem consistent_initial (hg : graph.WellFormed) : graph.initial.Consistent graph := by
  have hwaiting : ∀ inputs, graph.waiting [] inputs =
      inputs.filter fun input => graph.derivedIds.contains input := by
    intro inputs
    simp [InputGraph.waiting]
  have hawaited : ∀ id inputs, (id, inputs) ∈ graph.reads →
      graph.initial.count? id = some (graph.waiting [] inputs).length := by
    intro id inputs hmem
    have hmap := lookup_map_snd (fun inputs : List String =>
      (inputs.filter fun input => graph.derivedIds.contains input).length) graph.reads id
    rw [lookup_of_mem hg.nodup hmem, Option.map_some] at hmap
    rw [hwaiting]
    exact hmap
  have hready : ∀ id, id ∈ graph.initial.ready ↔
      ∃ inputs, (id, inputs) ∈ graph.reads ∧ graph.waiting [] inputs = [] := by
    intro id
    simp only [InputGraph.initial, InputGraph.awaitedInputs, hwaiting]
    simp [List.mem_map, List.mem_filter]
  have hkeys : graph.awaitedInputs.map Prod.fst = graph.derivedIds := by
    rw [InputGraph.awaitedInputs, List.map_map]
    rfl
  refine ⟨?_, ?_, hawaited, ?_, ?_⟩
  · change (graph.awaitedInputs.filter _ |>.map Prod.fst).Nodup
    exact (hkeys ▸ hg.nodup).sublist (List.filter_sublist.map _)
  · intro id hid
    obtain ⟨inputs, hmem, -⟩ := (hready id).mp hid
    exact InputGraph.mem_derivedIds.mpr ⟨inputs, hmem⟩
  · intro id inputs hmem
    change id ∈ graph.initial.ready ↔ _
    rw [hready]
    constructor
    · rintro ⟨inputs', hmem', hnil⟩
      rwa [← hg.inputsOf hmem, hg.inputsOf hmem']
    · exact fun hnil => ⟨inputs, hmem, hnil⟩
  · intro id hid
    cases hid

def place (graph : InputGraph) (s : Scheduling) (id : String) (rest : List String) : Scheduling :=
  (graph.readersOf id).foldl release { s with placed := s.placed ++ [id], ready := rest }

def released (graph : InputGraph) (s : Scheduling) (id : String) (rest : List String) :
    List String :=
  (graph.readersOf id).filter fun reader => (s.place graph id rest).count? reader = some 0

section

variable {s : Scheduling} {id other : String} {rest inputs : List String}

theorem placed_place : (s.place graph id rest).placed = s.placed ++ [id] :=
  placed_foldl_release _ _

theorem append_place (hg : graph.WellFormed) (hready : s.ready = id :: rest) :
    (s.place graph id rest).placed ++ (s.place graph id rest).ready =
      (s.placed ++ s.ready) ++ s.released graph id rest := by
  have hplaced : (s.place graph id rest).ready = rest ++ s.released graph id rest :=
    ready_foldl_release (InputGraph.nodup_readersOf hg id) _
  rw [placed_place, hplaced, hready, ← List.append_assoc, ← List.append_cons]

theorem Consistent.notMem_placed (h : s.Consistent graph) (hready : s.ready = id :: rest) :
    id ∉ s.placed := by
  have hnodup := h.nodup
  rw [hready] at hnodup
  exact fun hmem => List.disjoint_of_nodup_append hnodup hmem List.mem_cons_self

theorem mem_append_of_ready (hready : s.ready = id :: rest) : id ∈ s.placed ++ s.ready := by
  simp [hready]

/-- A reader of the placed field has one input fewer to wait for, all others as many as before. -/
theorem Consistent.count?_place (hg : graph.WellFormed) (h : s.Consistent graph)
    (hready : s.ready = id :: rest) (hmem : (other, inputs) ∈ graph.reads) :
    (s.place graph id rest).count? other =
      some (graph.waiting (s.placed ++ [id]) inputs).length := by
  have hold : Scheduling.count? { s with placed := s.placed ++ [id], ready := rest } other =
      some (graph.waiting s.placed inputs).length := h.count other inputs hmem
  unfold place
  rw [count?_foldl_release (InputGraph.nodup_readersOf hg id), hold, Option.map_some]
  by_cases hreads : id ∈ inputs
  · have hreader : other ∈ graph.readersOf id :=
      InputGraph.mem_readersOf.mpr ⟨inputs, hmem, hreads⟩
    have hfewer := InputGraph.waiting_snoc_of_mem (hg.inputs other inputs hmem) hreads
      (h.derived id (mem_append_of_ready hready)) (h.notMem_placed hready)
    rw [if_pos hreader, ← hfewer, Nat.add_sub_cancel]
  · have hreader : other ∉ graph.readersOf id := by
      intro hreader
      obtain ⟨inputs', hmem', hreads'⟩ := InputGraph.mem_readersOf.mp hreader
      rw [← hg.inputsOf hmem', hg.inputsOf hmem] at hreads'
      exact hreads hreads'
    rw [if_neg hreader, InputGraph.waiting_snoc_of_notMem hreads]

theorem Consistent.mem_released (hg : graph.WellFormed) (h : s.Consistent graph)
    (hready : s.ready = id :: rest) :
    other ∈ s.released graph id rest ↔ ∃ inputs, (other, inputs) ∈ graph.reads ∧ id ∈ inputs ∧
      graph.waiting (s.placed ++ [id]) inputs = [] := by
  unfold released
  rw [List.mem_filter, InputGraph.mem_readersOf, decide_eq_true_eq]
  constructor
  · rintro ⟨⟨inputs, hmem, hreads⟩, hzero⟩
    rw [h.count?_place hg hready hmem] at hzero
    exact ⟨inputs, hmem, hreads, List.length_eq_zero_iff.mp (Option.some.inj hzero)⟩
  · rintro ⟨inputs, hmem, hreads, hnil⟩
    refine ⟨⟨inputs, hmem, hreads⟩, ?_⟩
    rw [h.count?_place hg hready hmem, hnil, List.length_nil]

theorem Consistent.notMem_of_reads (h : s.Consistent graph) (hready : s.ready = id :: rest)
    (hmem : (other, inputs) ∈ graph.reads) (hreads : id ∈ inputs) :
    other ∉ s.placed ++ s.ready := by
  intro hdone
  have hnil := (h.free other inputs hmem).mp hdone
  apply h.notMem_placed hready
  exact InputGraph.waiting_eq_nil_iff.mp hnil id hreads (h.derived id (mem_append_of_ready hready))

theorem Consistent.free_place (hg : graph.WellFormed) (h : s.Consistent graph)
    (hready : s.ready = id :: rest) (hmem : (other, inputs) ∈ graph.reads) :
    other ∈ (s.placed ++ s.ready) ++ s.released graph id rest ↔
      graph.waiting (s.placed ++ [id]) inputs = [] := by
  rw [List.mem_append, h.mem_released hg hready]
  by_cases hreads : id ∈ inputs
  · have hold := h.notMem_of_reads hready hmem hreads
    constructor
    · rintro (hdone | ⟨inputs', hmem', -, hnil⟩)
      · exact absurd hdone hold
      · rwa [← hg.inputsOf hmem, hg.inputsOf hmem']
    · exact fun hnil => Or.inr ⟨inputs, hmem, hreads, hnil⟩
  · rw [InputGraph.waiting_snoc_of_notMem hreads, h.free other inputs hmem]
    constructor
    · rintro (hnil | ⟨inputs', hmem', hreads', -⟩)
      · exact hnil
      · rw [← hg.inputsOf hmem', hg.inputsOf hmem] at hreads'
        exact absurd hreads' hreads
    · exact Or.inl

theorem Consistent.ordered_place (hg : graph.WellFormed) (h : s.Consistent graph)
    (hready : s.ready = id :: rest) (hother : other ∈ s.placed ++ [id]) {input : String}
    (hinput : input ∈ graph.inputsOf other) (hderived : input ∈ graph.derivedIds) :
    input ∈ s.placed ++ [id] ∧
      (s.placed ++ [id]).idxOf input < (s.placed ++ [id]).idxOf other := by
  rcases List.mem_append.mp hother with hold | hlast
  · obtain ⟨hmem, hlt⟩ := h.ordered other hold input hinput hderived
    rw [List.idxOf_append_of_mem hmem, List.idxOf_append_of_mem hold]
    exact ⟨List.mem_append_left _ hmem, hlt⟩
  · obtain rfl := List.mem_singleton.mp hlast
    obtain ⟨inputs, hreads⟩ := InputGraph.mem_derivedIds.mp (h.derived other (mem_append_of_ready hready))
    have hnil := (h.free other inputs hreads).mp (mem_append_of_ready hready)
    rw [hg.inputsOf hreads] at hinput
    have hmem := InputGraph.waiting_eq_nil_iff.mp hnil input hinput hderived
    rw [List.idxOf_append_of_mem hmem, List.idxOf_append_of_notMem (h.notMem_placed hready)]
    exact ⟨List.mem_append_left _ hmem,
      (List.idxOf_lt_length_iff.mpr hmem).trans_le (Nat.le_add_right _ _)⟩

theorem Consistent.place (hg : graph.WellFormed) (h : s.Consistent graph)
    (hready : s.ready = id :: rest) : (s.place graph id rest).Consistent graph := by
  refine ⟨?_, ?_, ?_, ?_, ?_⟩
  · rw [append_place hg hready]
    refine List.Nodup.append h.nodup ((InputGraph.nodup_readersOf hg id).filter _) ?_
    intro other hold hother
    obtain ⟨inputs, hmem, hreads, -⟩ := (h.mem_released hg hready).mp hother
    exact h.notMem_of_reads hready hmem hreads hold
  · intro other hother
    rw [append_place hg hready, List.mem_append] at hother
    rcases hother with hold | hother
    · exact h.derived other hold
    · obtain ⟨inputs, hmem, -⟩ := (h.mem_released hg hready).mp hother
      exact InputGraph.mem_derivedIds.mpr ⟨inputs, hmem⟩
  · intro other inputs hmem
    rw [placed_place]
    exact h.count?_place hg hready hmem
  · intro other inputs hmem
    rw [append_place hg hready, placed_place]
    exact h.free_place hg hready hmem
  · intro other hother input hinput hderived
    rw [placed_place] at hother ⊢
    exact h.ordered_place hg hready hother hinput hderived

end

theorem Consistent.step? (hg : graph.WellFormed) {s next : Scheduling} (h : s.Consistent graph)
    (hstep : s.step? graph = some next) : next.Consistent graph := by
  unfold Scheduling.step? at hstep
  split at hstep
  · cases hstep
  · rename_i id rest hready
    obtain rfl := Option.some.inj hstep
    exact h.place hg hready

theorem Consistent.run (hg : graph.WellFormed) {steps : Nat} {s : Scheduling}
    (h : s.Consistent graph) : (s.run graph steps).Consistent graph := by
  induction steps generalizing s with
  | zero => exact h
  | succ steps ih =>
    unfold Scheduling.run
    split
    · rename_i next hstep
      exact ih (h.step? hg hstep)
    · exact h

end Scheduling

namespace InputGraph

variable {graph : InputGraph}

theorem consistent_schedule (hg : graph.WellFormed) : graph.schedule.Consistent graph :=
  (Scheduling.consistent_initial hg).run hg

theorem mem_cyclic {id : String} :
    id ∈ graph.cyclic ↔ id ∈ graph.derivedIds ∧ id ∉ graph.schedule.placed := by
  simp [cyclic]

theorem mem_order (hg : graph.WellFormed) {id : String} :
    id ∈ graph.order ↔ id ∈ graph.derivedIds := by
  rw [order, List.mem_append, mem_cyclic]
  constructor
  · rintro (hplaced | ⟨hid, -⟩)
    · exact (consistent_schedule hg).derived id (List.mem_append_left _ hplaced)
    · exact hid
  · intro hid
    by_cases hplaced : id ∈ graph.schedule.placed
    · exact Or.inl hplaced
    · exact Or.inr ⟨hid, hplaced⟩

theorem nodup_order (hg : graph.WellFormed) : graph.order.Nodup := by
  refine List.Nodup.append ?_ (hg.nodup.filter _) ?_
  · exact (List.nodup_append.mp (consistent_schedule hg).nodup).1
  · intro id hplaced hcyclic
    exact (mem_cyclic.mp hcyclic).2 hplaced

theorem length_order (hg : graph.WellFormed) : graph.order.length = graph.derivedIds.length := by
  have hperm : graph.order.Perm graph.derivedIds :=
    (List.perm_ext_iff_of_nodup (nodup_order hg) hg.nodup).mpr fun id => mem_order hg
  exact hperm.length_eq

theorem rank_lt_length (hg : graph.WellFormed) {id : String} (h : id ∈ graph.derivedIds) :
    graph.rank id < graph.derivedIds.length := by
  rw [← length_order hg]
  exact List.idxOf_lt_length_iff.mpr ((mem_order hg).mpr h)

/-- A field that is not cyclic stands behind all computed fields that it reads. -/
theorem rank_lt_of_input (hg : graph.WellFormed) {id input : String} (hid : id ∈ graph.derivedIds)
    (hcyclic : id ∉ graph.cyclic) (hinput : input ∈ graph.inputsOf id)
    (hderived : input ∈ graph.derivedIds) :
    input ∉ graph.cyclic ∧ graph.rank input < graph.rank id := by
  have hplaced : id ∈ graph.schedule.placed := by
    by_contra hnot
    exact hcyclic (mem_cyclic.mpr ⟨hid, hnot⟩)
  obtain ⟨hmem, hlt⟩ := (consistent_schedule hg).ordered id hplaced input hinput hderived
  refine ⟨fun hmem' => (mem_cyclic.mp hmem').2 hmem, ?_⟩
  unfold rank order
  rwa [List.idxOf_append_of_mem hmem, List.idxOf_append_of_mem hplaced]

theorem pairwise_rank_order (hg : graph.WellFormed) :
    graph.order.Pairwise fun id other => graph.rank id < graph.rank other := by
  rw [List.pairwise_iff_getElem]
  intro i j hi hj hlt
  unfold rank
  rwa [(nodup_order hg).idxOf_getElem, (nodup_order hg).idxOf_getElem]

theorem notMem_cyclic (h : graph.hasCycle = false) (id : String) : id ∉ graph.cyclic := by
  have hnil : graph.cyclic = [] := by simpa [hasCycle] using h
  simp [hnil]

end InputGraph

end DerivedForm
