import DerivedForm.Proofs.Form.Baseline
import DerivedForm.Proofs.Value.Refused

/-!
# How a form represents its state

A form keeps several things in step by hand: the list of entries, the flags, the snapshot and the focus.
Whatever happens to it, the list is that of the definitions, a plain entry is what validation makes of its
own value, only an overridable field can be computed and hold refused text, the flags say what the entries
are like, and the focus is on an overridable field.
-/

namespace DerivedForm

namespace Entry

/-- The state that the entry of a field can be in. -/
structure Represents (d : FieldDefinition) (e : Entry) : Prop where
  id : e.id = d.id
  plain : d.isDerived = false → validate d e.value = e
  derived : d.isDerived = true → e.isValid = false →
    d.isOverridable = true ∧ (∃ s, e.value = .text s) ∧ e.value.isEmpty = false

variable {d : FieldDefinition} {e : Entry}

def Refusing (d : FieldDefinition) (e : Entry) : Prop :=
  d.isDerived = true → e.isValid = false → (∃ s, e.value = .text s) ∧ e.value.isEmpty = false

theorem refusing_validate (d : FieldDefinition) (input : Value) : Refusing d (validate d input) := by
  intro hderived hinvalid
  rcases validate_cases d input with
    ⟨-, heq⟩ | ⟨v, -, -, heq⟩ | ⟨error, hempty, -, heq⟩ <;> rw [heq] at hinvalid ⊢
  · rw [empty_of_isDerived hderived] at hinvalid
    cases hinvalid
  · cases hinvalid
  · exact ⟨⟨input.display, rfl⟩, Value.isEmpty_text_display hempty⟩

theorem invariant_refusing : Entry.Invariant Refusing where
  validate := refusing_validate
  withResult := by
    intro d e values hderived h _ hinvalid
    cases hcompute : d.compute? values with
    | some v =>
      rw [hcompute] at hinvalid
      cases hinvalid
    | none =>
      rw [hcompute] at hinvalid
      by_cases hnull : e.value = .null
      · have hsame : e.withResult none = e := by simp [withResult, hnull]
        rw [hsame] at hinvalid ⊢
        exact h hderived hinvalid
      · have hclear : e.withResult none = e.clear := by simp [withResult, hnull]
        rw [hclear] at hinvalid
        cases hinvalid

end Entry

namespace Schema

variable {schema : Schema} {Q : FieldDefinition → Entry → Prop} {entries : List Entry}

theorem Each.forall₂ (h : schema.Each Q entries)
    (hids : entries.map Entry.id = schema.definitions.map FieldDefinition.id) :
    List.Forall₂ Q schema.definitions entries := by
  have hlength : schema.definitions.length = entries.length := by
    simpa using (congrArg List.length hids).symm
  refine List.forall₂_iff_get.mpr ⟨hlength, fun i hd he => ?_⟩
  have hid : entries[i].id = schema.definitions[i].id := by
    have hplace := congrArg (fun ids => ids[i]?) hids
    simpa [List.getElem?_eq_getElem, hd, he] using hplace
  have hfind := Entry.find?_of_mem (hids ▸ schema.distinct) (List.getElem_mem he)
  exact h _ (List.getElem_mem hd) _ (hid ▸ hfind)

end Schema

namespace Form

variable {schema : Schema} {options : Options} {form : Form} {d : FieldDefinition}

def FixedValid (schema : Schema) (entries : List Entry) : Prop :=
  ∀ d ∈ schema.derived, d.isOverridable = false →
    ∃ v, Entry.find? entries d.id = some (.valid d.id v)

theorem fixedValid_recalculate {entries : List Entry} (h : schema.Fits entries) (order : VisitOrder)
    (focused : Option String) (maxPasses : Nat) :
    FixedValid schema (schema.recalculate order focused maxPasses entries).entries := by
  intro d hd hfixed
  exact h.exists_find?_recalculate order maxPasses hd (by simp [FieldDefinition.isHeld, hfixed])

theorem FixedValid.override {entries : List Entry} (h : FixedValid schema entries) (id : String) :
    FixedValid schema (schema.override id entries) := by
  intro d hd hfixed
  obtain ⟨hmem, hderived⟩ := Schema.mem_derived.mp hd
  obtain ⟨v, hv⟩ := h d hd hfixed
  by_cases hcleared : d.id ∈ schema.clearedBy id
  · refine ⟨.null, ?_⟩
    rw [Schema.find?_override_of_mem hmem hcleared, hv, Option.map_some,
      Entry.empty_of_isDerived hderived]
  · refine ⟨v, ?_⟩
    rw [Schema.find?_override_of_notMem hcleared, hv]

theorem fixedValid_entriesAfter (h : FixedValid schema form.entries)
    (hform : form.WellFormed schema options) (hd : d ∈ schema.definitions) (input : Value) :
    FixedValid schema (form.entriesAfter d input) := by
  obtain ⟨rfl, rfl, hfits⟩ := hform
  have htyped := hfits.modifyFirst hd (Entry.regular_validate d input)
  simp only [entriesAfter]
  split
  · rename_i hoverridable
    refine FixedValid.override (fun d' hd' hfixed => ?_) d.id
    have hne : d'.id ≠ d.id := by
      intro heq
      obtain rfl : d' = d := Schema.eq_of_id_eq (Schema.mem_derived.mp hd').1 hd heq
      rw [hfixed] at hoverridable
      cases hoverridable
    rw [Entry.find?_modifyFirst_of_ne (fun _ => Entry.validate_id d input) hne]
    exact h d' hd' hfixed
  · exact fixedValid_recalculate htyped _ _ _

theorem Reached.fixedValid (h : form.Reached schema options) : FixedValid schema form.entries := by
  apply h.induction (P := fun form => FixedValid schema form.entries)
  · rintro form rfl rfl
    exact fixedValid_recalculate form.fits_baselineEntries _ _ _
  · exact fun form d input hform hd h => fixedValid_entriesAfter h hform hd input
  · exact fun form id h => h
  · intro form id hform hfixed
    obtain ⟨rfl, rfl, hfits⟩ := hform
    rw [blur_eq]
    split
    · split
      · exact fixedValid_recalculate hfits _ _ _
      · exact hfixed
    · exact hfixed
  · exact fun form isLoading h => h
  · exact fun form hform h => h

def FocusedOverridable (schema : Schema) (form : Form) : Prop :=
  form.schema = schema ∧ ∀ id, form.focused = some id → schema.isOverridable id = true

theorem FocusedOverridable.focus (h : form.FocusedOverridable schema) (id : String) :
    (form.focus id).FocusedOverridable schema := by
  obtain ⟨rfl, hfocused⟩ := h
  refine ⟨rfl, fun other hother => ?_⟩
  simp only [Form.focus, Schema.focus] at hother
  split at hother
  · rename_i hid
    cases hother
    exact hid
  · exact hfocused other hother

theorem FocusedOverridable.blur (h : form.FocusedOverridable schema) (id : String) :
    (form.blur id).FocusedOverridable schema := by
  obtain ⟨rfl, hfocused⟩ := h
  rw [blur_eq]
  split
  · split <;> exact ⟨rfl, fun other hother => by cases hother⟩
  · exact ⟨rfl, hfocused⟩

theorem Reached.focusedOverridable (h : form.Reached schema options) :
    form.FocusedOverridable schema := by
  apply h.induction (P := FocusedOverridable schema)
  · exact fun form hschema _ => ⟨hschema, fun id hid => by cases hid⟩
  · exact fun form d input _ _ h => h
  · exact fun form id h => h.focus id
  · exact fun form id _ h => h.blur id
  · exact fun form isLoading h => h
  · exact fun form _ h => h

theorem Coherent.isValid_iff (h : form.Coherent) :
    form.isValid = true ↔ ∀ e ∈ form.entries, e.isValid = true := by
  rw [h.isValid, List.all_eq_true]

theorem Coherent.isValid_iff_invalidFields (h : form.Coherent) :
    form.isValid = true ↔ form.invalidFields = [] := by
  simp [h.isValid_iff, invalidFields, List.filter_eq_nil_iff]

theorem Coherent.hasChanges_iff (h : form.Coherent) :
    form.hasChanges = true ↔ ∃ (i : Nat) (e : Entry) (v : Value), form.entries[i]? = some e ∧
      form.snapshot[i]? = some v ∧ e.value.agrees v = false := by
  rw [h.hasChanges, Entry.differ, List.any_eq_true]
  constructor
  · rintro ⟨⟨e, v⟩, hmem, hdiffer⟩
    obtain ⟨i, hi⟩ := List.mem_iff_getElem?.mp hmem
    obtain ⟨he, hv⟩ := List.getElem?_zip_eq_some.mp hi
    exact ⟨i, e, v, he, hv, by simpa using hdiffer⟩
  · rintro ⟨i, e, v, he, hv, hdiffer⟩
    refine ⟨(e, v), List.mem_iff_getElem?.mpr ⟨i, List.getElem?_zip_eq_some.mpr ⟨he, hv⟩⟩, ?_⟩
    simp [hdiffer]

theorem Reached.length_snapshot (h : form.Reached schema options) :
    form.snapshot.length = form.entries.length := by
  obtain ⟨entries, hids, -, hsnapshot⟩ := h.remembers Entry.invariant_regular
  have hlength := congrArg List.length (hids.trans h.wellFormed.fits.ids.symm)
  simpa [hsnapshot] using hlength

theorem Reached.each_represents (h : form.Reached schema options) :
    schema.Each Entry.Represents form.entries := by
  intro d hd e he
  refine ⟨Entry.id_of_find? he, fun hplain => ?_, fun hderived hinvalid => ⟨?_, ?_⟩⟩
  · obtain ⟨input, rfl⟩ := h.each Entry.invariant_validated d hd e he hplain
    exact Entry.validate_validate d input
  · by_contra hfixed
    obtain ⟨v, hv⟩ := h.fixedValid d (Schema.mem_derived.mpr ⟨hd, hderived⟩)
      (Bool.not_eq_true _ ▸ hfixed)
    rw [he] at hv
    cases hv
    cases hinvalid
  · exact h.each Entry.invariant_refusing d hd e he hderived hinvalid

structure Represents (schema : Schema) (form : Form) : Prop where
  fields : List.Forall₂ Entry.Represents schema.definitions form.entries
  isValid : form.isValid = true ↔ ∀ e ∈ form.entries, e.isValid = true
  invalidFields : form.isValid = true ↔ form.invalidFields = []
  snapshot : form.snapshot.length = form.entries.length
  hasChanges : form.hasChanges = true ↔ ∃ (i : Nat) (e : Entry) (v : Value),
    form.entries[i]? = some e ∧ form.snapshot[i]? = some v ∧ e.value.agrees v = false
  focused : ∀ id, form.focused = some id → schema.isOverridable id = true

theorem Reached.represents (h : form.Reached schema options) : form.Represents schema where
  fields := h.each_represents.forall₂ h.wellFormed.fits.ids
  isValid := h.coherent.isValid_iff
  invalidFields := h.coherent.isValid_iff_invalidFields
  snapshot := h.length_snapshot
  hasChanges := h.coherent.hasChanges_iff
  focused := h.focusedOverridable.2

/-- Whatever happens in a session, with whatever schema, baseline and options, the parts of its form
stay in step. -/
theorem represents_run (schema : Schema) (baseline : Bindings) (options : Options) (store : Store)
    (actions : List Action) :
    ((Session.mk (create schema baseline options) store).run actions).2.form.Represents schema := by
  have h : ((Session.mk (create schema baseline options) store).run actions).2.form.Reached
      schema options := ⟨baseline, store, actions, rfl⟩
  exact h.represents

end Form

end DerivedForm
