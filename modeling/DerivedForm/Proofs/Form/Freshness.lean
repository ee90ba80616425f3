import DerivedForm.Proofs.Form.Reached

/-!
# No stale values

With inputs first, whatever the user does, a computed field that cannot be overridden holds nothing or
the value that the present entries yield for it. Three routes lead to this: a recalculation settles
everything, an override empties what it makes stale, and a field that is left with its value in place
changes no entry.
-/

namespace DerivedForm

namespace Schema

/-- There are no cycles, formulas read only their inputs, and what can be overridden has an input. -/
structure Sound (schema : Schema) : Prop where
  acyclic : schema.graph.hasCycle = false
  reads : schema.ReadsOnlyInputs
  inputs_ne_nil : ∀ d ∈ schema.definitions, d.isOverridable = true → d.inputs ≠ []

theorem sound_invoice : invoice.Sound :=
  ⟨by decide, readsOnlyInputs_invoice, by decide⟩

end Schema

namespace Form

variable {schema : Schema} {options : Options} {form next : Form} {id : String} {input : Value}

theorem fresh_recalculate (hsound : form.schema.Sound)
    (horder : form.options.order = .inputsFirst) {entries : List Entry}
    (h : form.schema.Fits entries) (focused : Option String) :
    form.schema.Fresh (form.recalculate focused entries) := by
  rw [recalculate_of_acyclic horder hsound.acyclic]
  exact (Schema.settled_pass hsound.reads hsound.acyclic h.lists focused).fresh (h.pass _ _)

theorem fresh_load (hsound : schema.Sound) (hschema : form.schema = schema)
    (horder : form.options.order = .inputsFirst) : schema.Fresh form.load.entries := by
  subst hschema
  exact fresh_recalculate hsound horder form.fits_baselineEntries none

theorem fresh_create (hsound : schema.Sound) (baseline : Bindings)
    (horder : options.order = .inputsFirst) :
    schema.Fresh (create schema baseline options).entries :=
  fresh_load hsound rfl horder

theorem fresh_edit (hsound : form.schema.Sound) (horder : form.options.order = .inputsFirst)
    (hfits : form.schema.Fits form.entries) (hfresh : form.schema.Fresh form.entries)
    (hedit : form.edit id input = .ok next) : form.schema.Fresh next.entries := by
  obtain ⟨d, hd, -, -, rfl⟩ := (edit_eq_ok_iff hfits).mp hedit
  change form.schema.Fresh (form.entriesAfter d input)
  simp only [entriesAfter]
  split
  · rename_i hoverridable
    have hderived := FieldDefinition.isDerived_of_isOverridable hoverridable
    exact hfresh.override hsound.reads hfits (Schema.mem_derived.mpr ⟨hd, hderived⟩) hoverridable
      (hsound.inputs_ne_nil d hd hoverridable) (Entry.regular_validate d input)
  · have htyped := hfits.modifyFirst hd (Entry.regular_validate d input)
    exact fresh_recalculate hsound horder htyped form.focused

theorem fresh_blur (hsound : form.schema.Sound) (horder : form.options.order = .inputsFirst)
    (hfits : form.schema.Fits form.entries) (hfresh : form.schema.Fresh form.entries)
    (id : String) : form.schema.Fresh (form.blur id).entries := by
  rw [blur_eq]
  split
  · split
    · exact fresh_recalculate hsound horder hfits none
    · exact hfresh
  · exact hfresh

theorem fresh_perform (hsound : schema.Sound) (horder : options.order = .inputsFirst)
    {session : Session} (h : session.form.WellFormed schema options)
    (hfresh : schema.Fresh session.form.entries) (action : Action) :
    schema.Fresh (session.perform action).2.form.entries := by
  obtain ⟨hschema, rfl, hfits⟩ := h
  subst hschema
  apply Session.perform_cases (P := fun form => session.form.schema.Fresh form.entries)
    session action hfresh
  · exact fun id input next hedit => fresh_edit hsound horder hfits hfresh hedit
  · exact fun id => hfresh
  · exact fun id => fresh_blur hsound horder hfits hfresh id
  · exact fresh_load hsound rfl horder
  · exact fun isLoading => hfresh
  · exact hfresh

/-- After any actions on a new form, a computed field that cannot be overridden is valid, and it holds
nothing or the value that the valid entries yield. -/
theorem fresh_run (schema : Schema) (hsound : schema.Sound) (baseline : Bindings)
    (options : Options) (horder : options.order = .inputsFirst) (store : Store)
    (actions : List Action) :
    let form := ((Session.mk (create schema baseline options) store).run actions).2.form
    ∀ d ∈ schema.derived, d.isOverridable = false →
      ∃ e, form.entry? d.id = some e ∧ e.isValid = true ∧ e.error = none ∧
        (e.value = .null ∨ d.Yields (Entry.bindings form.entries) e.value) := by
  intro form d hd hfixed
  obtain ⟨hform, hfresh⟩ := Session.run_induction
    (P := fun session => session.form.WellFormed schema options ∧ schema.Fresh session.form.entries)
    (fun session action h =>
      ⟨h.1.perform action, fresh_perform hsound horder h.1 h.2 action⟩)
    ⟨create schema baseline options, store⟩
    ⟨wellFormed_create schema baseline options, fresh_create hsound baseline horder⟩ actions
  obtain ⟨v, hfind, hv⟩ := hfresh d hd hfixed
  refine ⟨.valid d.id v, ?_, rfl, rfl, hv⟩
  rw [hform.entry?_eq]
  exact hfind

theorem fresh_run_invoice :
    let session := Session.mk (create .invoice [("net", .integer 100)] {}) .empty
    let form := (session.run [.focus "gross", .edit "gross" (.text "240"),
      .edit "gross" (.text ""), .blur "gross", .edit "net" (.text "50")]).2.form
    Schema.invoice.Sound ∧ form.entry? "total" = some (.valid "total" (.decimal 65)) ∧
      ∀ d ∈ Schema.invoice.derived, d.id = "total" →
        ∃ e, form.entry? d.id = some e ∧ e.isValid = true ∧ e.error = none ∧
          (e.value = .null ∨ d.Yields (Entry.bindings form.entries) e.value) := by
  intro session form
  refine ⟨Schema.sound_invoice, by decide +kernel, fun d hd hid => ?_⟩
  apply fresh_run .invoice Schema.sound_invoice _ {} rfl .empty _ d hd
  revert d
  decide

end Form

end DerivedForm
