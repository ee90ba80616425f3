import DerivedForm.Proofs.Dependency.Downstream
import DerivedForm.Proofs.Recalculation.Determined
import DerivedForm.Recalculation.Basic

/-!
# What an override leaves behind

An override recalculates nothing. It empties the inputs of the field and all that is downstream of
them, and this set is closed under reading: a computed field that reads an emptied field, or the
overridden field itself, is emptied too. So every computed value that is still there after an override
was computed from values that are still there.
-/

namespace DerivedForm

namespace Schema

def FreshAt (entries : List Entry) (d : FieldDefinition) : Prop :=
  ∃ v, Entry.find? entries d.id = some (.valid d.id v) ∧
    (v = .null ∨ d.Yields (Entry.bindings entries) v)

/-- No stale value stands in a computed field that cannot be overridden. -/
def Fresh (schema : Schema) (entries : List Entry) : Prop :=
  ∀ d ∈ schema.derived, d.isOverridable = false → FreshAt entries d

variable {schema : Schema} {focused : Option String} {d source : FieldDefinition} {id : String}
  {entries : List Entry} {Q : FieldDefinition → Entry → Prop}

theorem mem_clearedBy (hsource : source ∈ schema.derived)
    (hoverridable : source.isOverridable = true) :
    id ∈ schema.clearedBy source.id ↔
      (∃ input ∈ source.inputs, id = input ∨ id ∈ schema.graph.downstream input) ∧
        id ≠ source.id ∧ schema.contains id = true := by
  have htrue : schema.isOverridable source.id = true := by
    simp [isOverridable, get?_of_mem (mem_derived.mp hsource).1, hoverridable]
  unfold clearedBy
  rw [htrue, if_pos rfl]
  simp only [mem_withoutRepeats, List.mem_filter, List.mem_append, List.mem_flatMap,
    mem_inputsOf_graph hsource, Bool.and_eq_true, bne_iff_ne]
  constructor
  · rintro ⟨hinput | ⟨input, hinput, hdown⟩, h⟩
    · exact ⟨⟨id, hinput, Or.inl rfl⟩, h⟩
    · exact ⟨⟨input, hinput, Or.inr hdown⟩, h⟩
  · rintro ⟨⟨input, hinput, rfl | hdown⟩, h⟩
    · exact ⟨Or.inl hinput, h⟩
    · exact ⟨Or.inr ⟨input, hinput, hdown⟩, h⟩

theorem mem_clearedBy_of_plain (hsource : source ∈ schema.definitions)
    (hoverridable : source.isOverridable = true) (hd : d ∈ schema.definitions)
    (hplain : d.isDerived = false) : d.id ∈ schema.clearedBy source.id ↔ d.id ∈ source.inputs := by
  have hderived := FieldDefinition.isDerived_of_isOverridable hoverridable
  rw [mem_clearedBy (mem_derived.mpr ⟨hsource, hderived⟩) hoverridable]
  constructor
  · rintro ⟨⟨input, hinput, heq | hdown⟩, -, -⟩
    · exact heq ▸ hinput
    · obtain ⟨d', hd', hid⟩ :=
        mem_derivedIds_graph.mp (InputGraph.mem_derivedIds_of_mem_downstream hdown)
      obtain rfl : d' = d := eq_of_id_eq (mem_derived.mp hd').1 hd hid
      rw [(mem_derived.mp hd').2] at hplain
      cases hplain
  · intro hinput
    refine ⟨⟨d.id, hinput, Or.inl rfl⟩, fun heq => ?_, contains_of_mem hd⟩
    obtain rfl : d = source := eq_of_id_eq hd hsource heq
    rw [hderived] at hplain
    cases hplain

theorem mem_clearedBy_of_reads (hsource : source ∈ schema.derived)
    (hoverridable : source.isOverridable = true) (hinputs : source.inputs ≠ [])
    (hd : d ∈ schema.derived) (hne : d.id ≠ source.id) (hid : id ∈ d.inputs)
    (h : id = source.id ∨ id ∈ schema.clearedBy source.id) :
    d.id ∈ schema.clearedBy source.id := by
  have hreached : ∃ input ∈ source.inputs, id = input ∨ id ∈ schema.graph.downstream input := by
    rcases h with rfl | hmem
    · -- the overridden field is itself downstream of each of its inputs
      obtain ⟨input, hinput⟩ := List.exists_mem_of_ne_nil _ hinputs
      refine ⟨input, hinput, ?_⟩
      by_cases heq : source.id = input
      · exact Or.inl heq
      · right
        exact InputGraph.mem_downstream_of_reads (Or.inl rfl)
          (mem_readersOf_graph hsource hinput) heq
    · exact ((mem_clearedBy hsource hoverridable).mp hmem).1
  obtain ⟨input, hinput, hreached⟩ := hreached
  refine (mem_clearedBy hsource hoverridable).mpr
    ⟨⟨input, hinput, ?_⟩, hne, contains_of_mem (mem_derived.mp hd).1⟩
  by_cases heq : d.id = input
  · exact Or.inl heq
  · right
    exact InputGraph.mem_downstream_of_reads hreached (mem_readersOf_graph hd hid) heq

theorem find?_emptyEntry_of_ne {other : String} (h : id ≠ other) (entries : List Entry) :
    Entry.find? (schema.emptyEntry entries other) id = Entry.find? entries id := by
  unfold emptyEntry
  split
  · rename_i d hd
    apply Entry.find?_modifyFirst_of_ne _ h
    intro e
    rw [Entry.validate_id, id_of_get? hd]
  · rfl

theorem find?_emptyEntry (hd : d ∈ schema.definitions) (entries : List Entry) :
    Entry.find? (schema.emptyEntry entries d.id) d.id =
      (Entry.find? entries d.id).map fun _ => Entry.empty d := by
  unfold emptyEntry
  rw [get?_of_mem hd]
  dsimp only
  rw [Entry.find?_modifyFirst (fun _ => Entry.validate_id d _),
    Entry.validate_of_isEmpty d Value.isEmpty_null]

theorem find?_foldl_emptyEntry_of_notMem {ids : List String} (h : id ∉ ids)
    (entries : List Entry) :
    Entry.find? (ids.foldl schema.emptyEntry entries) id = Entry.find? entries id := by
  induction ids generalizing entries with
  | nil => rfl
  | cons first rest ih =>
    obtain ⟨hne, hrest⟩ := List.ne_and_not_mem_of_not_mem_cons h
    rw [List.foldl_cons, ih hrest, find?_emptyEntry_of_ne hne]

theorem find?_foldl_emptyEntry_of_mem (hd : d ∈ schema.definitions) {ids : List String}
    (h : d.id ∈ ids) (entries : List Entry) :
    Entry.find? (ids.foldl schema.emptyEntry entries) d.id =
      (Entry.find? entries d.id).map fun _ => Entry.empty d := by
  induction ids generalizing entries with
  | nil => cases h
  | cons first rest ih =>
    rw [List.foldl_cons]
    by_cases hrest : d.id ∈ rest
    · rw [ih hrest]
      by_cases heq : d.id = first
      · rw [← heq, find?_emptyEntry hd, Option.map_map]
        rfl
      · rw [find?_emptyEntry_of_ne heq]
    · obtain rfl : d.id = first := (List.mem_cons.mp h).resolve_right hrest
      rw [find?_foldl_emptyEntry_of_notMem hrest, find?_emptyEntry hd]

theorem find?_override_of_mem (hd : d ∈ schema.definitions) (h : d.id ∈ schema.clearedBy id)
    (entries : List Entry) : Entry.find? (schema.override id entries) d.id =
      (Entry.find? entries d.id).map fun _ => Entry.empty d :=
  find?_foldl_emptyEntry_of_mem hd h entries

theorem find?_override_of_notMem {other : String} (h : other ∉ schema.clearedBy id)
    (entries : List Entry) :
    Entry.find? (schema.override id entries) other = Entry.find? entries other :=
  find?_foldl_emptyEntry_of_notMem h entries

@[simp] theorem map_id_emptyEntry (schema : Schema) (entries : List Entry) (id : String) :
    (schema.emptyEntry entries id).map Entry.id = entries.map Entry.id := by
  unfold emptyEntry
  split
  · rename_i d hd
    apply Entry.map_id_modifyFirst
    intro e
    rw [Entry.validate_id, id_of_get? hd]
  · rfl

@[simp] theorem map_id_override (schema : Schema) (id : String) (entries : List Entry) :
    (schema.override id entries).map Entry.id = entries.map Entry.id := by
  unfold override
  induction schema.clearedBy id generalizing entries with
  | nil => rfl
  | cons first rest ih => rw [List.foldl_cons, ih, map_id_emptyEntry]

theorem Each.override (hQ : Entry.Invariant Q) (h : schema.Each Q entries) (id : String) :
    schema.Each Q (schema.override id entries) := by
  intro d hd e he
  by_cases hmem : d.id ∈ schema.clearedBy id
  · rw [find?_override_of_mem hd hmem] at he
    obtain ⟨e₀, -, rfl⟩ := Option.map_eq_some_iff.mp he
    rw [← Entry.validate_of_isEmpty d Value.isEmpty_null]
    exact hQ.validate d .null
  · rw [find?_override_of_notMem hmem] at he
    exact h d hd e he

theorem Each.modifyFirst (h : schema.Each Q entries) (hd : d ∈ schema.definitions) {e : Entry}
    (hid : e.id = d.id) (he : Q d e) :
    schema.Each Q (Entry.modifyFirst d.id (fun _ => e) entries) := by
  intro d' hd' f hf
  by_cases heq : d'.id = d.id
  · obtain rfl : d' = d := eq_of_id_eq hd' hd heq
    rw [Entry.find?_modifyFirst (fun _ => hid)] at hf
    obtain ⟨e₀, -, rfl⟩ := Option.map_eq_some_iff.mp hf
    exact he
  · rw [Entry.find?_modifyFirst_of_ne (fun _ => hid) heq] at hf
    exact h d' hd' f hf

theorem Fits.override (h : schema.Fits entries) (id : String) :
    schema.Fits (schema.override id entries) where
  ids := (map_id_override _ _ _).trans h.ids
  regular := Each.override Entry.invariant_regular h.regular id

theorem Fits.modifyFirst (h : schema.Fits entries) (hd : d ∈ schema.definitions) {e : Entry}
    (he : Entry.Regular d e) : schema.Fits (Entry.modifyFirst d.id (fun _ => e) entries) where
  ids := (Entry.map_id_modifyFirst (fun _ => he.id_eq) entries).trans h.ids
  regular := Each.modifyFirst h.regular hd he.id_eq he

theorem Fits.find?_override (h : schema.Fits entries) (hd : d ∈ schema.derived)
    (hcleared : d.id ∈ schema.clearedBy id) :
    Entry.find? (schema.override id entries) d.id = some (.valid d.id .null) := by
  obtain ⟨hmem, hderived⟩ := mem_derived.mp hd
  obtain ⟨e, he, -⟩ := h.exists_find? hmem
  rw [find?_override_of_mem hmem hcleared, he, Option.map_some, Entry.empty_of_isDerived hderived]

theorem Settled.fresh (h : schema.Fits entries) (hsettled : schema.Settled focused entries) :
    schema.Fresh entries := by
  intro d hd hfixed
  have hheld : d.isHeld focused = false := by simp [FieldDefinition.isHeld, hfixed]
  have hfind := find?_of_settled h hsettled hd hheld
  refine ⟨_, hfind, ?_⟩
  rcases SettledAt.yields_or (hsettled d hd hheld) hfind with hyields | ⟨hnull, -⟩
  · exact Or.inr hyields
  · exact Or.inl hnull

/-- A value that is not emptied by an override was computed from inputs that it leaves alone. -/
theorem Fresh.override (hreads : schema.ReadsOnlyInputs) (h : schema.Fits entries)
    (hfresh : schema.Fresh entries) (hsource : source ∈ schema.derived)
    (hoverridable : source.isOverridable = true) (hinputs : source.inputs ≠ []) {e : Entry}
    (he : Entry.Regular source e) :
    schema.Fresh
      (schema.override source.id (Entry.modifyFirst source.id (fun _ => e) entries)) := by
  have htyped := h.modifyFirst (mem_derived.mp hsource).1 he
  have hout := htyped.override source.id
  set out := schema.override source.id (Entry.modifyFirst source.id (fun _ => e) entries)
    with hdef
  have hframe : ∀ id, id ≠ source.id → id ∉ schema.clearedBy source.id →
      Entry.find? out id = Entry.find? entries id := by
    intro id hne hmem
    rw [hdef, find?_override_of_notMem hmem,
      Entry.find?_modifyFirst_of_ne (fun _ => he.id_eq) hne]
  intro d hd hfixed
  have hmem := (mem_derived.mp hd).1
  have hne : d.id ≠ source.id := by
    intro heq
    obtain rfl : d = source := eq_of_id_eq hmem (mem_derived.mp hsource).1 heq
    rw [hfixed] at hoverridable
    cases hoverridable
  -- an emptied field holds nothing; any other one still has the inputs that it was computed from
  by_cases hcleared : d.id ∈ schema.clearedBy source.id
  · exact ⟨.null, htyped.find?_override hd hcleared, Or.inl rfl⟩
  · obtain ⟨v, hfind, hv⟩ := hfresh d hd hfixed
    refine ⟨v, (hframe d.id hne hcleared).trans hfind, hv.imp_right fun hyields => ?_⟩
    have hcompute : d.compute? (Entry.bindings out) = d.compute? (Entry.bindings entries) := by
      apply FieldDefinition.compute?_congr hreads hmem hout.lists.over h.lists.over
      intro id hid
      apply Bindings.alike_of_operand?_eq
      apply operand?_eq_of_find?_eq hout.lists.nodup h.lists.nodup
      apply hframe id
      · rintro rfl
        exact hcleared
          (mem_clearedBy_of_reads hsource hoverridable hinputs hd hne hid (Or.inl rfl))
      · intro hread
        exact hcleared
          (mem_clearedBy_of_reads hsource hoverridable hinputs hd hne hid (Or.inr hread))
    rw [← FieldDefinition.compute?_eq_some_iff, hcompute, FieldDefinition.compute?_eq_some_iff]
    exact hyields

end Schema

end DerivedForm
