import DerivedForm.Proofs.Form.Reached

/-!
# Answers to edits

An edit is refused because no field has the id or because the field is not to be edited, and for no other
reason: whatever happened before, the entry of every field stands at the place of its definition. A
refused edit leaves the whole session as it was.
-/

namespace DerivedForm

variable {schema : Schema} {options : Options} {id : String}

theorem Schema.get?_eq_none_iff :
    schema.get? id = none ↔ ∀ d ∈ schema.definitions, d.id ≠ id := by
  simp [Schema.get?, List.find?_eq_none]

namespace Form

variable {form : Form}

def Locates (form : Form) (id : String) : Prop :=
  ∃ i e, form.position? id = some i ∧ form.entries[i]? = some e ∧ e.id = id

theorem WellFormed.locates (h : form.WellFormed schema options) {d : FieldDefinition}
    (hd : d ∈ schema.definitions) : form.Locates d.id := by
  obtain ⟨rfl, rfl, hfits⟩ := h
  obtain ⟨e, he, -⟩ := hfits.exists_find? hd
  have hentry : (form.position? d.id).bind (fun i => form.entries[i]?) = some e :=
    (entry?_of_fits hfits d.id).trans he
  obtain ⟨i, hi, hplace⟩ := Option.bind_eq_some_iff.mp hentry
  exact ⟨i, e, hi, hplace, Entry.id_of_find? he⟩

end Form

namespace Session

variable {session : Session}

theorem perform_edit (h : session.form.WellFormed schema options) (id : String) (input : Value) :
    session.perform (.edit id input) =
      match schema.get? id with
      | none => (.edited (.error (.unknownField id)), session)
      | some d =>
        if d.isEditable then
          (.edited (.ok ()), session.withForm (Form.refreshFlags
            { session.form with entries := session.form.entriesAfter d input }))
        else (.edited (.error (.readOnlyField id)), session) := by
  obtain ⟨rfl, rfl, hfits⟩ := h
  simp only [perform, edit, Form.edit_of_fits hfits]
  cases hd : session.form.schema.get? id with
  | none => rfl
  | some d => cases heditable : d.isEditable <;> simp [heditable]

structure AnswersEdit (schema : Schema) (session : Session) (id : String) (input : Value) :
    Prop where
  unknown : (session.perform (.edit id input)).1 = .edited (.error (.unknownField id)) ↔
    ∀ d ∈ schema.definitions, d.id ≠ id
  readOnly : (session.perform (.edit id input)).1 = .edited (.error (.readOnlyField id)) ↔
    ∃ d ∈ schema.definitions, d.id = id ∧ d.isEditable = false
  accepted : (session.perform (.edit id input)).1 = .edited (.ok ()) ↔
    ∃ d ∈ schema.definitions, d.id = id ∧ d.isEditable = true
  located : ∀ d ∈ schema.definitions, session.form.Locates d.id
  refused : ∀ error, (session.perform (.edit id input)).1 = .edited (.error error) →
    (session.perform (.edit id input)).2 = session

theorem answersEdit_of_unknown (h : session.form.WellFormed schema options)
    (hid : schema.get? id = none) (input : Value) : AnswersEdit schema session id input := by
  have hanswer : session.perform (.edit id input) =
      (.edited (.error (.unknownField id)), session) := by rw [perform_edit h, hid]
  have hnone := Schema.get?_eq_none_iff.mp hid
  refine ⟨?_, ?_, ?_, fun d hd => h.locates hd, ?_⟩
  · simpa [hanswer] using hnone
  · simpa [hanswer] using fun d hd heq => absurd heq (hnone d hd)
  · simpa [hanswer] using fun d hd heq => absurd heq (hnone d hd)
  · simp [hanswer]

theorem answersEdit_of_mem (h : session.form.WellFormed schema options) {d : FieldDefinition}
    (hd : d ∈ schema.definitions) (input : Value) : AnswersEdit schema session d.id input := by
  have hanswer := perform_edit h d.id input
  rw [Schema.get?_of_mem hd] at hanswer
  have hfield : ∀ editable, (∃ d' ∈ schema.definitions, d'.id = d.id ∧ d'.isEditable = editable) ↔
      d.isEditable = editable := by
    refine fun editable => ⟨?_, fun heditable => ⟨d, hd, rfl, heditable⟩⟩
    rintro ⟨d', hd', hid, heditable⟩
    exact Schema.eq_of_id_eq hd' hd hid ▸ heditable
  refine ⟨?_, ?_, ?_, fun d hd => h.locates hd, ?_⟩
  · have hknown : ¬ ∀ d' ∈ schema.definitions, d'.id ≠ d.id := fun hall => hall d hd rfl
    cases heditable : d.isEditable <;> simp [hanswer, heditable, hknown]
  · rw [hfield]
    cases heditable : d.isEditable <;> simp [hanswer, heditable]
  · rw [hfield]
    cases heditable : d.isEditable <;> simp [hanswer, heditable]
  · cases heditable : d.isEditable <;> simp [hanswer, heditable]

/-- After any actions on a new form, an edit is answered by the definition of its field alone. -/
theorem answersEdit_run (schema : Schema) (baseline : Bindings) (options : Options) (store : Store)
    (actions : List Action) (id : String) (input : Value) :
    AnswersEdit schema ((Session.mk (Form.create schema baseline options) store).run actions).2
      id input := by
  have h := Form.wellFormed_run schema baseline options store actions
  cases hid : schema.get? id with
  | none => exact answersEdit_of_unknown h hid input
  | some d =>
    obtain rfl : d.id = id := Schema.id_of_get? hid
    exact answersEdit_of_mem h (Schema.mem_of_get? hid) input

end Session

end DerivedForm
