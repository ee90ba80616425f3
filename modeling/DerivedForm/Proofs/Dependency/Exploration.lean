import DerivedForm.Proofs.Dependency.Downstream
import Mathlib.Data.Finset.Union
import Mathlib.Logic.Relation

/-!
# What a search finds

A search goes from a field to its readers in turn; below each reader that is new it first goes on to
the readers of that one. It comes to an end on every graph, with cycles as well, and finds what is
downstream in the order of the list. Found are, each once, the fields that can be reached in one or
more steps from a field to a computed field that reads it, without the field where the search begins.
-/

namespace DerivedForm

namespace InputGraph

/-- A search that has seen some ids and looks at the pending ones in turn ends, and finds these ids in
this order. -/
inductive Explores (graph : InputGraph) : Finset String → List String → List String → Prop
  | done {seen} : graph.Explores seen [] []
  | again {seen id pending found} (hseen : id ∈ seen) (hpending : graph.Explores seen pending found) :
      graph.Explores seen (id :: pending) found
  | enter {seen id pending below found} (hnew : id ∉ seen)
      (hbelow : graph.Explores (insert id seen) (graph.readersOf id) below)
      (hpending : graph.Explores (below.toFinset ∪ insert id seen) pending found) :
      graph.Explores seen (id :: pending) (id :: (below ++ found))

variable {graph : InputGraph} {seen : Finset String} {pending later found found' : List String}

theorem Explores.unique (h : graph.Explores seen pending found)
    (h' : graph.Explores seen pending found') : found = found' := by
  induction h generalizing found' with
  | done =>
    cases h'
    rfl
  | again hseen _ ih =>
    cases h' with
    | again _ hpending => exact ih hpending
    | enter hnew => exact absurd hseen hnew
  | enter hnew _ _ ihbelow ihpending =>
    cases h' with
    | again hseen => exact absurd hseen hnew
    | enter _ hbelow hpending =>
      obtain rfl := ihbelow hbelow
      rw [ihpending hpending]

/-- What is pending first is explored first, and the rest with what has been found by then. -/
theorem Explores.split (h : graph.Explores seen (pending ++ later) found) :
    ∃ first rest, found = first ++ rest ∧ graph.Explores seen pending first ∧
      graph.Explores (first.toFinset ∪ seen) later rest := by
  induction pending generalizing seen found with
  | nil => exact ⟨[], found, rfl, .done, by simpa using h⟩
  | cons id pending ih =>
    cases h with
    | again hseen hpending =>
      obtain ⟨first, rest, hfound, hfirst, hrest⟩ := ih hpending
      exact ⟨first, rest, hfound, .again hseen hfirst, hrest⟩
    | enter hnew hbelow hpending =>
      rename_i below _
      obtain ⟨first, rest, rfl, hfirst, hrest⟩ := ih hpending
      refine ⟨id :: (below ++ first), rest, by simp, .enter hnew hbelow hfirst, ?_⟩
      have hseen : (id :: (below ++ first)).toFinset ∪ seen =
          first.toFinset ∪ (below.toFinset ∪ insert id seen) := by
        ext other
        simp only [Finset.mem_union, List.mem_toFinset, List.mem_cons, List.mem_append,
          Finset.mem_insert]
        tauto
      rwa [hseen]

theorem walk_cons_of_notMem {successors : String → List String} {visits : Nat}
    {unseen : List String} {id : String} (h : id ∉ unseen) :
    walk successors visits unseen (id :: pending) = walk successors visits unseen pending := by
  cases visits with
  | zero => rfl
  | succ visits => rw [walk, walk, List.dropWhile_cons_of_pos (by simpa using h)]

theorem walk_cons_of_mem {successors : String → List String} {visits : Nat}
    {unseen : List String} {id : String} (h : id ∈ unseen) :
    walk successors (visits + 1) unseen (id :: pending) =
      id :: walk successors visits (unseen.erase id) (successors id ++ pending) := by
  rw [walk, List.dropWhile_cons_of_neg (by simpa using h)]

theorem explores_walk {visits : Nat} {unseen : List String} (hunseen : unseen.Nodup)
    (hvisits : unseen.length ≤ visits) (hseen : ∀ id ∈ graph.derivedIds, id ∈ unseen ↔ id ∉ seen)
    (hpending : ∀ id ∈ pending, id ∈ graph.derivedIds) :
    graph.Explores seen pending (walk graph.readersOf visits unseen pending) := by
  induction visits generalizing unseen seen pending with
  | zero =>
    obtain rfl : unseen = [] := List.length_eq_zero_iff.mp (Nat.le_zero.mp hvisits)
    induction pending with
    | nil => exact .done
    | cons id pending ih =>
      obtain ⟨hid, hrest⟩ := List.forall_mem_cons.mp hpending
      exact .again (by simpa using hseen id hid) (ih hrest)
  | succ visits ih =>
    induction pending with
    | nil => exact .done
    | cons id pending ihpending =>
      obtain ⟨hid, hrest⟩ := List.forall_mem_cons.mp hpending
      by_cases hnew : id ∈ unseen
      · have hlength : (unseen.erase id).length ≤ visits := by
          rw [List.length_erase_of_mem hnew]
          omega
        have hseen' : ∀ other ∈ graph.derivedIds,
            other ∈ unseen.erase id ↔ other ∉ insert id seen := by
          intro other hother
          rw [hunseen.mem_erase_iff, hseen other hother, Finset.mem_insert]
          tauto
        have hpending' : ∀ other ∈ graph.readersOf id ++ pending, other ∈ graph.derivedIds :=
          fun other hother =>
            (List.mem_append.mp hother).elim mem_derivedIds_of_mem_readersOf (hrest other)
        -- the walk puts the readers of a new id before what is pending
        obtain ⟨below, found, hfound, hbelow, hfollowing⟩ :=
          (ih (hunseen.erase id) hlength hseen' hpending').split
        rw [walk_cons_of_mem hnew, hfound]
        exact .enter ((hseen id hid).mp hnew) hbelow hfollowing
      · rw [walk_cons_of_notMem hnew]
        exact .again (not_not.mp ((hseen id hid).not.mp hnew)) (ihpending hrest)

theorem explores_downstream (hg : graph.WellFormed) (id : String) :
    graph.Explores {id} (graph.readersOf id) (graph.downstream id) := by
  rw [downstream]
  apply explores_walk (hg.nodup.erase id) le_rfl
  · intro other hother
    rw [hg.nodup.mem_erase_iff, Finset.mem_singleton]
    tauto
  · exact fun other => mem_derivedIds_of_mem_readersOf

theorem nodup_walk {successors : String → List String} {visits : Nat} {unseen : List String}
    (hunseen : unseen.Nodup) : (walk successors visits unseen pending).Nodup ∧
      ∀ id ∈ walk successors visits unseen pending, id ∈ unseen := by
  induction visits generalizing unseen pending with
  | zero => simp [walk]
  | succ visits ih =>
    rw [walk]
    split
    · simp
    · rename_i first rest hdrop
      obtain ⟨hnodup, hsubset⟩ := @ih (successors first ++ rest) _ (hunseen.erase first)
      constructor
      · refine List.nodup_cons.mpr ⟨fun hmem => ?_, hnodup⟩
        exact hunseen.not_mem_erase (hsubset first hmem)
      · refine List.forall_mem_cons.mpr ⟨mem_unseen_of_dropWhile hdrop, fun id hid => ?_⟩
        exact List.mem_of_mem_erase (hsubset id hid)

theorem nodup_downstream (hg : graph.WellFormed) (id : String) : (graph.downstream id).Nodup :=
  (nodup_walk (hg.nodup.erase id)).1

theorem notMem_downstream_self (hg : graph.WellFormed) (id : String) :
    id ∉ graph.downstream id :=
  fun hmem => hg.nodup.not_mem_erase ((nodup_walk (hg.nodup.erase id)).2 id hmem)

end InputGraph

namespace Schema

variable {schema : Schema} {id other : String}

theorem mem_downstream_iff : other ∈ schema.graph.downstream id ↔
    other ≠ id ∧ Relation.TransGen schema.ReadBy id other := by
  constructor
  · intro hmem
    refine ⟨?_, ?_⟩
    · rintro rfl
      exact InputGraph.notMem_downstream_self (InputGraph.wellFormed_graph schema) _ hmem
    · apply InputGraph.downstream_subset _ _ other hmem
      · exact fun _ hreader => .single (mem_readersOf_iff.mp hreader)
      · exact fun _ hpath _ hreader => hpath.tail (mem_readersOf_iff.mp hreader)
  · rintro ⟨hne, hpath⟩
    induction hpath with
    | single hread =>
      exact InputGraph.mem_downstream_of_reads (Or.inl rfl) (mem_readersOf_iff.mpr hread) hne
    | @tail input reader _ hread ih =>
      -- the path may lead through the field where it begins
      have hinput : input = id ∨ input ∈ schema.graph.downstream id := by
        by_cases heq : input = id
        · exact Or.inl heq
        · exact Or.inr (ih heq)
      exact InputGraph.mem_downstream_of_reads hinput (mem_readersOf_iff.mpr hread) hne

/-- The search from any id, known or not, ends with what is downstream of it, and downstream are,
without repetition, the other computed fields that readers lead to. -/
theorem explores_iff_reached (schema : Schema) (id : String) :
    (∀ found, schema.graph.Explores {id} (schema.graph.readersOf id) found ↔
      found = schema.graph.downstream id) ∧
    (schema.graph.downstream id).Nodup ∧
    ∀ other, other ∈ schema.graph.downstream id ↔
      other ≠ id ∧ Relation.TransGen schema.ReadBy id other := by
  have hg := InputGraph.wellFormed_graph schema
  have hsearch := InputGraph.explores_downstream hg id
  refine ⟨fun found => ⟨fun h => h.unique hsearch, ?_⟩, InputGraph.nodup_downstream hg id,
    fun other => mem_downstream_iff⟩
  rintro rfl
  exact hsearch

end Schema

end DerivedForm
