import DerivedForm.Proofs.Form.Reached

/-!
# What is true of every reached form

A form is made or reset by loading a baseline, and all else that happens to it is an edit, a change of
the focus, the mark of a save under way, or the end of a successful save. Whatever loading establishes
and these four keep is true of every form that a session reaches: the flags are those of its entries,
and its entries and its snapshot have the properties that validation establishes and computation keeps.
-/

namespace DerivedForm

theorem Value.agrees_self (v : Value) : v.agrees v = true := by
  cases v with
  | null => rfl
  | text s => simp [agrees]
  | integer n =>
    have hsame : (Value.integer n).sameNumber (.integer n) = true := by
      unfold sameNumber
      cases (Value.integer n).number? with
      | none => rfl
      | some x => exact x.same_refl
    simpa [agrees, isEmpty] using hsame
  | decimal x =>
    have hsame : (Value.decimal x).sameNumber (.decimal x) = true := by
      unfold sameNumber
      cases (Value.decimal x).number? with
      | none => rfl
      | some y => exact y.same_refl
    simpa [agrees, isEmpty] using hsame
  | date d => simp [agrees, isEmpty]

theorem Entry.differ_own_values (entries : List Entry) :
    differ entries (entries.map Entry.value) = false := by
  unfold differ
  induction entries with
  | nil => rfl
  | cons e rest ih =>
    rw [List.map_cons, List.zip_cons_cons, List.any_cons, ih]
    simp [Value.agrees_self]

namespace Schema

variable {schema : Schema} {Q : FieldDefinition → Entry → Prop}

theorem Each.of_mem {entries : List Entry} (h : schema.Each Q entries)
    (hids : entries.map Entry.id = schema.definitions.map FieldDefinition.id) {e : Entry}
    (he : e ∈ entries) : ∃ d ∈ schema.definitions, schema.get? e.id = some d ∧ Q d e := by
  have hmem : e.id ∈ schema.definitions.map FieldDefinition.id := hids ▸ List.mem_map_of_mem he
  obtain ⟨d, hd, hid⟩ := List.mem_map.mp hmem
  have hfind := Entry.find?_of_mem (hids ▸ schema.distinct) he
  exact ⟨d, hd, hid ▸ get?_of_mem hd, h d hd e (hid ▸ hfind)⟩

end Schema

namespace Form

variable {schema : Schema} {options : Options} {form : Form} {d : FieldDefinition}
  {Q : FieldDefinition → Entry → Prop}

theorem Reached.induction {P : Form → Prop} (h : form.Reached schema options)
    (hload : ∀ form : Form, form.schema = schema → form.options = options → P form.load)
    (hedit : ∀ form d input, form.WellFormed schema options → d ∈ schema.definitions → P form →
      P (refreshFlags { form with entries := form.entriesAfter d input }))
    (hfocus : ∀ form id, P form → P (form.focus id))
    (hblur : ∀ form id, form.WellFormed schema options → P form → P (form.blur id))
    (hloading : ∀ form isLoading, P form → P { form with isLoading })
    (hsaved : ∀ form, form.WellFormed schema options → P form → P form.completeSave) : P form := by
  obtain ⟨baseline, store, actions, rfl⟩ := h
  refine (Session.run_induction
    (P := fun session => session.form.WellFormed schema options ∧ P session.form)
    (fun session action h => ⟨h.1.perform action, ?_⟩) _
    ⟨wellFormed_create schema baseline options, hload _ rfl rfl⟩ actions).2
  obtain ⟨hform, hP⟩ := h
  apply Session.perform_cases session action hP
  · intro id input next hedited
    have hform' := hform
    obtain ⟨rfl, rfl, hfits⟩ := hform'
    obtain ⟨d, hd, -, -, rfl⟩ := (edit_eq_ok_iff hfits).mp hedited
    exact hedit session.form d input hform hd hP
  · exact fun id => hfocus session.form id hP
  · exact fun id => hblur session.form id hform hP
  · exact hload session.form hform.schema_eq hform.options_eq
  · exact fun isLoading => hloading session.form isLoading hP
  · exact hsaved session.form hform hP

/-- The flags say what the entries and the snapshot are like. -/
structure Coherent (form : Form) : Prop where
  isValid : form.isValid = form.entries.all Entry.isValid
  hasChanges : form.hasChanges = Entry.differ form.entries form.snapshot

theorem coherent_refreshFlags (form : Form) : (refreshFlags form).Coherent := ⟨rfl, rfl⟩

theorem Coherent.blur (form : Form) (id : String) : (form.blur id).Coherent := ⟨rfl, rfl⟩

theorem Coherent.completeSave (h : form.Coherent) : form.completeSave.Coherent :=
  ⟨h.isValid, (Entry.differ_own_values form.entries).symm⟩

theorem Reached.coherent (h : form.Reached schema options) : form.Coherent := by
  apply h.induction (P := Coherent)
  · exact fun form _ _ => coherent_refreshFlags _
  · exact fun form d input _ _ _ => coherent_refreshFlags _
  · exact fun form id h => ⟨h.isValid, h.hasChanges⟩
  · exact fun form id _ _ => Coherent.blur form id
  · exact fun form isLoading h => ⟨h.isValid, h.hasChanges⟩
  · exact fun form _ h => h.completeSave

theorem hasChanges_load (form : Form) : form.load.hasChanges = false :=
  Entry.differ_own_values form.load.entries

theorem each_load (hQ : Entry.Invariant Q) (hschema : form.schema = schema) :
    schema.Each Q form.load.entries := by
  subst hschema
  exact Schema.Each.recalculate hQ form.fits_baselineEntries.lists
    (Schema.each_map (fun d => Entry.validate_id d _) fun d => hQ.validate d _) _ _ _

theorem each_entriesAfter (hQ : Entry.Invariant Q) (hform : form.WellFormed schema options)
    (hd : d ∈ schema.definitions) (h : schema.Each Q form.entries) (input : Value) :
    schema.Each Q (form.entriesAfter d input) := by
  obtain ⟨rfl, rfl, hfits⟩ := hform
  have htyped := h.modifyFirst hd (Entry.validate_id d input) (hQ.validate d input)
  simp only [entriesAfter]
  split
  · exact htyped.override hQ d.id
  · exact htyped.recalculate hQ (hfits.modifyFirst hd (Entry.regular_validate d input)).lists _ _ _

theorem each_blur (hQ : Entry.Invariant Q) (hform : form.WellFormed schema options)
    (h : schema.Each Q form.entries) (id : String) : schema.Each Q (form.blur id).entries := by
  obtain ⟨rfl, rfl, hfits⟩ := hform
  rw [blur_eq]
  split
  · split
    · exact h.recalculate hQ hfits.lists _ _ _
    · exact h
  · exact h

theorem Reached.each (hQ : Entry.Invariant Q) (h : form.Reached schema options) :
    schema.Each Q form.entries := by
  apply h.induction (P := fun form => schema.Each Q form.entries)
  · exact fun form hschema _ => each_load hQ hschema
  · exact fun form d input hform hd h => each_entriesAfter hQ hform hd h input
  · exact fun form id h => h
  · exact fun form id hform h => each_blur hQ hform h id
  · exact fun form isLoading h => h
  · exact fun form _ h => h

def Remembers (schema : Schema) (Q : FieldDefinition → Entry → Prop) (form : Form) : Prop :=
  ∃ entries : List Entry, entries.map Entry.id = schema.definitions.map FieldDefinition.id ∧
    schema.Each Q entries ∧ form.snapshot = entries.map Entry.value

theorem Remembers.of_snapshot_eq {form' : Form} (h : form.Remembers schema Q)
    (heq : form'.snapshot = form.snapshot) : form'.Remembers schema Q := by
  obtain ⟨entries, hids, heach, hsnapshot⟩ := h
  exact ⟨entries, hids, heach, heq.trans hsnapshot⟩

theorem remembers_load (hQ : Entry.Invariant Q) (hschema : form.schema = schema)
    (hoptions : form.options = options) : form.load.Remembers schema Q :=
  ⟨form.load.entries, (wellFormed_load hschema hoptions).fits.ids, each_load hQ hschema, rfl⟩

theorem Reached.remembers (hQ : Entry.Invariant Q) (h : form.Reached schema options) :
    form.Remembers schema Q := by
  refine (h.induction (P := fun form => form.Remembers schema Q ∧ schema.Each Q form.entries)
    ?_ ?_ ?_ ?_ ?_ ?_).1
  · exact fun form hschema hoptions => ⟨remembers_load hQ hschema hoptions, each_load hQ hschema⟩
  · exact fun form d input hform hd h =>
      ⟨h.1.of_snapshot_eq rfl, each_entriesAfter hQ hform hd h.2 input⟩
  · exact fun form id h => ⟨h.1.of_snapshot_eq rfl, h.2⟩
  · exact fun form id hform h => ⟨h.1.of_snapshot_eq rfl, each_blur hQ hform h.2 id⟩
  · exact fun form isLoading h => ⟨h.1.of_snapshot_eq rfl, h.2⟩
  · exact fun form hform h => ⟨⟨form.entries, hform.fits.ids, h.2, rfl⟩, h.2⟩

end Form

end DerivedForm
