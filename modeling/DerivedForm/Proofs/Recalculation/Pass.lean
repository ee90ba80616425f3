import DerivedForm.Proofs.Dependency.Scheduling
import DerivedForm.Proofs.Recalculation.Operands

/-!
# What a pass does to the entries

A visit touches the entry of its own field alone, and a pass visits every computed field once. So
when a field is visited, each entry is still as it was before the pass or already as it is after
it. The values that a visit reads offer the same operands as the entries at that moment.
-/

namespace DerivedForm

namespace PassState

variable {focused : Option String} {s : PassState} {d : FieldDefinition}

theorem visit_of_isHeld (h : d.isHeld focused = true) : visit focused s d = s := if_pos h

theorem visit_of_find?_none (h : Entry.find? s.entries d.id = none) : visit focused s d = s := by
  unfold visit
  split
  · rfl
  · rw [h]

theorem visit_of_find? (hheld : d.isHeld focused = false) {e : Entry}
    (h : Entry.find? s.entries d.id = some e) :
    visit focused s d =
      { entries := Entry.modifyFirst d.id (fun _ => e.withResult (d.compute? s.values)) s.entries
        values := s.values.insert d.id (e.withResult (d.compute? s.values)).value
        changes := s.changes ++ Entry.change? e (e.withResult (d.compute? s.values)) } := by
  unfold visit
  rw [hheld, h]
  rfl

theorem visit_cases (focused : Option String) (s : PassState) (d : FieldDefinition) :
    visit focused s d = s ∨ d.isHeld focused = false ∧ ∃ e, Entry.find? s.entries d.id = some e := by
  cases hheld : d.isHeld focused with
  | true => exact Or.inl (visit_of_isHeld hheld)
  | false =>
    cases hfind : Entry.find? s.entries d.id with
    | none => exact Or.inl (visit_of_find?_none hfind)
    | some e => exact Or.inr ⟨rfl, e, rfl⟩

theorem withResult_id_of_find? {e : Entry} (h : Entry.find? s.entries d.id = some e)
    (result : Option Value) : (e.withResult result).id = d.id := by
  rw [Entry.withResult_id, Entry.id_of_find? h]

@[simp] theorem map_id_visit (focused : Option String) (s : PassState) (d : FieldDefinition) :
    (visit focused s d).entries.map Entry.id = s.entries.map Entry.id := by
  rcases visit_cases focused s d with h | ⟨hheld, e, he⟩
  · rw [h]
  · rw [visit_of_find? hheld he]
    exact Entry.map_id_modifyFirst (fun _ => withResult_id_of_find? he _) _

theorem find?_visit (h : d.isHeld focused = false) :
    Entry.find? (visit focused s d).entries d.id =
      (Entry.find? s.entries d.id).map fun e => e.withResult (d.compute? s.values) := by
  cases hfind : Entry.find? s.entries d.id with
  | none =>
    rw [visit_of_find?_none hfind, hfind]
    rfl
  | some e =>
    rw [visit_of_find? h hfind]
    dsimp only
    rw [Entry.find?_modifyFirst (fun _ => withResult_id_of_find? hfind _), hfind]
    rfl

theorem find?_visit_of_ne {id : String} (h : id ≠ d.id) :
    Entry.find? (visit focused s d).entries id = Entry.find? s.entries id := by
  rcases visit_cases focused s d with hs | ⟨hheld, e, he⟩
  · rw [hs]
  · rw [visit_of_find? hheld he]
    exact Entry.find?_modifyFirst_of_ne (fun _ => withResult_id_of_find? he _) h _

/-- The values offer the operands of the entries. An empty entry that is not valid is no operand,
although its value may be there. -/
structure Consistent (s : PassState) : Prop where
  ids : (s.entries.map Entry.id).Nodup
  operands : ∀ id, s.values.operand? id = (Entry.bindings s.entries).operand? id

theorem consistent_initial {entries : List Entry} (h : (entries.map Entry.id).Nodup) :
    Consistent ⟨entries, Entry.bindings entries, []⟩ where
  ids := h
  operands _ := rfl

theorem Consistent.visit (h : s.Consistent) (focused : Option String) (d : FieldDefinition) :
    (s.visit focused d).Consistent := by
  rcases visit_cases focused s d with hs | ⟨hheld, e, he⟩
  · rwa [hs]
  · have hids : ((s.visit focused d).entries.map Entry.id).Nodup := by
      rw [map_id_visit]
      exact h.ids
    refine ⟨hids, fun id => ?_⟩
    unfold Bindings.operand?
    rw [Entry.get?_bindings hids]
    by_cases heq : id = d.id
    · subst heq
      rw [find?_visit hheld, he, visit_of_find? hheld he]
      dsimp only
      rw [Bindings.get?_insert, if_pos rfl, Option.map_some]
      rcases e.withResult_isValid_or (d.compute? s.values) with hvalid | hnull
      · simp only [Option.filter, hvalid, if_true, Option.map_some]
      · rw [hnull]
        cases hvalid : (e.withResult (d.compute? s.values)).isValid <;>
          simp [Option.filter, hvalid, hnull]
    · have hold := h.operands id
      unfold Bindings.operand? at hold
      rw [find?_visit_of_ne heq, ← Entry.get?_bindings h.ids, ← hold, visit_of_find? hheld he]
      dsimp only
      rw [Bindings.get?_insert, if_neg heq]

theorem Over.visit {schema : Schema} (h : s.values.Over schema) (hd : d ∈ schema.definitions)
    (focused : Option String) : (s.visit focused d).values.Over schema := by
  rcases visit_cases focused s d with hs | ⟨hheld, e, he⟩
  · rwa [hs]
  · rw [visit_of_find? hheld he]
    refine ⟨Bindings.nodup_ids_insert h.nodup _ _, fun id hid => ?_⟩
    rcases Bindings.mem_ids_insert.mp hid with rfl | hid
    · exact Schema.contains_of_mem hd
    · exact h.contained id hid

variable {ds : List FieldDefinition}

@[simp] theorem map_id_foldl_visit (focused : Option String) (s : PassState)
    (ds : List FieldDefinition) :
    (ds.foldl (visit focused) s).entries.map Entry.id = s.entries.map Entry.id := by
  induction ds generalizing s with
  | nil => rfl
  | cons d rest ih => rw [List.foldl_cons, ih, map_id_visit]

theorem Consistent.foldl_visit (h : s.Consistent) (focused : Option String)
    (ds : List FieldDefinition) : (ds.foldl (PassState.visit focused) s).Consistent := by
  induction ds generalizing s with
  | nil => exact h
  | cons d rest ih => exact ih (h.visit focused d)

theorem Over.foldl_visit {schema : Schema} (h : s.values.Over schema)
    (hds : ∀ d ∈ ds, d ∈ schema.definitions) (focused : Option String) :
    (ds.foldl (PassState.visit focused) s).values.Over schema := by
  induction ds generalizing s with
  | nil => exact h
  | cons d rest ih =>
    exact ih (Over.visit h (hds d List.mem_cons_self) focused)
      fun d' hd' => hds d' (List.mem_cons_of_mem _ hd')

theorem find?_foldl_visit {id : String} (h : ∀ d ∈ ds, d.id = id → d.isHeld focused = true) :
    Entry.find? (ds.foldl (visit focused) s).entries id = Entry.find? s.entries id := by
  induction ds generalizing s with
  | nil => rfl
  | cons d rest ih =>
    rw [List.foldl_cons, ih fun d' hd' => h d' (List.mem_cons_of_mem _ hd')]
    by_cases heq : d.id = id
    · rw [visit_of_isHeld (h d List.mem_cons_self heq)]
    · exact find?_visit_of_ne (Ne.symm heq)

theorem find?_foldl_visit_of_notMem {id : String} (h : id ∉ ds.map FieldDefinition.id) :
    Entry.find? (ds.foldl (visit focused) s).entries id = Entry.find? s.entries id :=
  find?_foldl_visit fun _ hd heq => absurd (heq ▸ List.mem_map_of_mem hd) h

theorem find?_foldl_visit_append {before after : List FieldDefinition}
    (hids : ((before ++ d :: after).map FieldDefinition.id).Nodup)
    (hheld : d.isHeld focused = false) :
    Entry.find? ((before ++ d :: after).foldl (visit focused) s).entries d.id =
      (Entry.find? s.entries d.id).map fun e =>
        e.withResult (d.compute? (before.foldl (visit focused) s).values) := by
  rw [List.map_append, List.map_cons] at hids
  have hbefore : d.id ∉ before.map FieldDefinition.id := fun hmem =>
    List.disjoint_of_nodup_append hids hmem List.mem_cons_self
  have hafter : d.id ∉ after.map FieldDefinition.id :=
    (List.nodup_cons.mp (List.nodup_append.mp hids).2.1).1
  rw [List.foldl_append, List.foldl_cons, find?_foldl_visit_of_notMem hafter, find?_visit hheld,
    find?_foldl_visit_of_notMem hbefore]

/-- The changes of a pass are those between the entries before and after it, visit by visit. -/
theorem changes_foldl_visit (hids : (ds.map FieldDefinition.id).Nodup) :
    (ds.foldl (visit focused) s).changes = s.changes ++ ds.flatMap fun d =>
      if d.isHeld focused then []
      else
        match Entry.find? s.entries d.id,
          Entry.find? (ds.foldl (visit focused) s).entries d.id with
        | some e, some f => Entry.change? e f
        | _, _ => [] := by
  induction ds generalizing s with
  | nil => simp
  | cons d rest ih =>
    rw [List.map_cons] at hids
    obtain ⟨hd, hrest⟩ := List.nodup_cons.mp hids
    rw [List.foldl_cons, ih hrest, List.flatMap_cons, ← List.append_assoc]
    congr 1
    · rw [find?_foldl_visit_of_notMem hd]
      cases hheld : d.isHeld focused with
      | true => simp [visit_of_isHeld hheld]
      | false =>
        rw [find?_visit hheld]
        cases hfind : Entry.find? s.entries d.id with
        | none => simp [visit_of_find?_none hfind]
        | some e =>
          rw [visit_of_find? hheld hfind]
          rfl
    · refine List.flatMap_congr fun d' hd' => ?_
      have hne : d'.id ≠ d.id := fun heq => hd (heq ▸ List.mem_map_of_mem hd')
      rw [find?_visit_of_ne hne]

end PassState

end DerivedForm
