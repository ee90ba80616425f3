import DerivedForm.Proofs.Form.VisitOrders
import DerivedForm.Proofs.Recalculation.Frame

/-!
# What an edit of a plain field leaves alone

An edit of a plain field recalculates everything, and nothing remembers which values were typed over a
computed field. So a field that is out of reach of the edited one is given what a recalculation without
the edit gives it. This is what it held before if it was settled with all that it depends on. A value
that was typed in over the computed one survives only if the formula yields it again.
-/

namespace DerivedForm

namespace Form

variable {schema : Schema} {options : Options} {form next : Form} {d v : FieldDefinition}
  {input : Value} {e : Entry}

theorem edit_outOfReach (hreads : schema.ReadsOnlyInputs) (hform : form.WellFormed schema options)
    (hd : d ∈ schema.definitions) (hplain : d.isDerived = false)
    (hedit : form.edit d.id input = .ok next) :
    Entry.AgreeOn (schema.OutOfReach d.id) next.entries
      (form.recalculate form.focused form.entries) := by
  have hnext := hform.edit_of_plain hd hplain hedit
  obtain ⟨rfl, rfl, hfits⟩ := hform
  subst hnext
  apply Schema.recalculate_agreeOn hreads (form.schema.closed_outOfReach d.id)
    (hfits.modifyFirst hd (Entry.regular_validate d input)) hfits
  intro id hid
  exact Entry.find?_modifyFirst_of_ne (fun _ => Entry.validate_id d input) hid.1 form.entries

theorem recalculate_upstream (hreads : schema.ReadsOnlyInputs)
    (hform : form.WellFormed schema options) (focused : Option String)
    (hsettled : schema.SettledOn (schema.Upstream v.id) focused form.entries) :
    Entry.find? (form.recalculate focused form.entries) v.id = Entry.find? form.entries v.id := by
  obtain ⟨rfl, rfl, hfits⟩ := hform
  exact Schema.recalculate_of_settledOn hreads (form.schema.closed_upstream v.id) hfits.lists
    hsettled _ _ v.id (Or.inl rfl)

theorem settled_edit (hreads : schema.ReadsOnlyInputs) (hacyclic : schema.graph.hasCycle = false)
    (hsuffice : options.Suffice schema) (hform : form.WellFormed schema options)
    (hd : d ∈ schema.definitions) (hplain : d.isDerived = false)
    (hedit : form.edit d.id input = .ok next) : schema.Settled form.focused next.entries := by
  have hnext := hform.edit_of_plain hd hplain hedit
  subst hnext
  exact hform.settled_recalculate hreads hacyclic hsuffice
    (hform.fits.modifyFirst hd (Entry.regular_validate d input)) form.focused

theorem find?_eq_iff_yields {entries : List Entry} (hfits : schema.Fits entries)
    (hv : v ∈ schema.derived) (hsettled : Schema.SettledAt entries v) (hregular : Entry.Regular v e)
    (hvalid : e.isValid = true) (hvalue : e.value ≠ .null) :
    Entry.find? entries v.id = some e ↔ v.Yields (Entry.bindings entries) e.value := by
  have hfind := Schema.find?_of_settledAt hfits hsettled hv
  have he : e = .valid v.id e.value := by
    cases hregular with
    | accepted hne => rfl
    | refused text error => cases hvalid
    | missing hplain => cases hvalid
  rw [← FieldDefinition.compute?_eq_some_iff, hfind]
  constructor
  · intro hsame
    rw [he] at hsame
    have hresult : (v.compute? (Entry.bindings entries)).getD .null = e.value :=
      congrArg Entry.value (Option.some.inj hsame)
    cases hcompute : v.compute? (Entry.bindings entries) with
    | none =>
      rw [hcompute] at hresult
      exact absurd hresult.symm hvalue
    | some w =>
      rw [hcompute] at hresult
      exact congrArg some hresult
  · intro hcompute
    rw [hcompute, Option.getD_some, ← he]

/-- An edit of a plain field that an overridable field does not depend on, while no field has the focus,
does to the overridable field what a recalculation of the form as it stands does to it: nothing, if
the field and all computed fields that it depends on are settled. With enough passes its value stays
exactly if its formula yields this value from the entries after the edit, and the field is empty if
its formula yields nothing. -/
theorem Reached.edit_unrelated (hreads : schema.ReadsOnlyInputs)
    (hacyclic : schema.graph.hasCycle = false) (h : form.Reached schema options)
    (hfocused : form.focused = none) (hv : v ∈ schema.definitions)
    (hoverridable : v.isOverridable = true) (he : form.entry? v.id = some e)
    (hvalid : e.isValid = true) (hvalue : e.value.isEmpty = false) (hd : d ∈ schema.definitions)
    (hplain : d.isDerived = false) (hunrelated : v.id ∉ schema.graph.downstream d.id)
    (hedit : form.edit d.id input = .ok next) :
    next.entry? v.id = Entry.find? (form.recalculate none form.entries) v.id ∧
      ((∀ u ∈ schema.derived, schema.Upstream v.id u.id → Schema.SettledAt form.entries u) →
        next.entry? v.id = some e) ∧
      (options.Suffice schema →
        (next.entry? v.id = some e ↔ v.Yields (Entry.bindings next.entries) e.value) ∧
          ((∀ w, ¬ v.Yields (Entry.bindings next.entries) w) →
            next.entry? v.id = some (.valid v.id .null))) := by
  have hform := h.wellFormed
  have hnext := hform.edit hedit
  have hderived : v ∈ schema.derived :=
    Schema.mem_derived.mpr ⟨hv, FieldDefinition.isDerived_of_isOverridable hoverridable⟩
  rw [hform.entry?_eq] at he
  rw [hnext.entry?_eq]
  have hreach : schema.OutOfReach d.id v.id := by
    refine ⟨fun heq => ?_, hunrelated⟩
    obtain rfl : v = d := Schema.eq_of_id_eq hv hd heq
    rw [(Schema.mem_derived.mp hderived).2] at hplain
    cases hplain
  have hsame : Entry.find? next.entries v.id =
      Entry.find? (form.recalculate none form.entries) v.id :=
    hfocused ▸ edit_outOfReach hreads hform hd hplain hedit v.id hreach
  refine ⟨hsame, fun hsettled => ?_, fun hsuffice => ?_⟩
  · rw [hsame, recalculate_upstream hreads hform none fun u hu hup _ => hsettled u hu hup, he]
  · have hsettled := settled_edit hreads hacyclic hsuffice hform hd hplain hedit v hderived
      (by simp [hfocused, FieldDefinition.isHeld])
    have hne : e.value ≠ .null := by
      intro hnull
      rw [hnull] at hvalue
      cases hvalue
    refine ⟨find?_eq_iff_yields hnext.fits hderived hsettled (hform.fits.regular v hv e he)
      hvalid hne, fun hnone => ?_⟩
    have hcompute : v.compute? (Entry.bindings next.entries) = none :=
      Option.eq_none_iff_forall_ne_some.mpr fun w hw =>
        hnone w (FieldDefinition.compute?_eq_some_iff.mp hw)
    rw [Schema.find?_of_settledAt hnext.fits hsettled hderived, hcompute, Option.getD_none]

theorem Reached.edit_unrelated_quotation :
    let form := ((Session.mk (create .quotation [("net", .integer 100)] {}) .empty).run
      [.focus "gross", .edit "gross" (.text "240"), .blur "gross",
        .edit "net" (.text "50")]).2.form
    form.entry? "gross" = some (.valid "gross" (.decimal 60)) ∧
      ∃ next, form.edit "note" (.text "gift") = .ok next ∧
        next.entry? "gross" = some (.valid "gross" (.decimal 60)) ∧
        invoiceFields[3].Yields (Entry.bindings next.entries) (.decimal 60) := by
  intro form
  have h : form.Reached .quotation {} := ⟨_, _, _, rfl⟩
  have he : form.entry? "gross" = some (.valid "gross" (.decimal 60)) := by decide +kernel
  obtain ⟨next, hnext⟩ := exists_edit h.wellFormed (d := invoiceFields[0]) (by decide) (by decide)
    (.text "gift")
  have hkept : (form.edit "note" (.text "gift")).map (fun next => next.entry? "gross") =
      .ok (some (.valid "gross" (.decimal 60))) := by decide +kernel
  have hentry : next.entry? "gross" = some (.valid "gross" (.decimal 60)) := by
    rw [show form.edit "note" (.text "gift") = .ok next from hnext] at hkept
    exact Except.ok.inj hkept
  obtain ⟨-, -, hyields⟩ := Reached.edit_unrelated (v := invoiceFields[3]) (d := invoiceFields[0])
    Schema.readsOnlyInputs_quotation (by decide) h (by decide +kernel) (by decide) rfl he rfl rfl
    (by decide) rfl (by decide) hnext
  exact ⟨he, next, hnext, hentry, (hyields (Or.inl rfl)).1.mp hentry⟩

/-- The same price is emptied by the note as long as there is no net price to compute it from. -/
theorem Reached.override_emptied_quotation :
    let form := ((Session.mk (create .quotation [("net", .integer 100)] {}) .empty).run
      [.focus "gross", .edit "gross" (.text "240"), .blur "gross"]).2.form
    Schema.quotation.graph.hasCycle = false ∧ Schema.quotation.ReadsOnlyInputs ∧
      form.Reached .quotation {} ∧ form.focused = none ∧
      Schema.quotation.isOverridable "gross" = true ∧
      form.entry? "gross" = some (.valid "gross" (.decimal 240)) ∧
      (Schema.quotation.get? "note").any (fun d => d.isEditable && !d.isDerived) = true ∧
      "gross" ∉ Schema.quotation.graph.downstream "note" ∧
      (form.edit "note" (.text "gift")).map (fun next => next.entry? "gross") =
        .ok (some (.valid "gross" .null)) := by
  intro form
  exact ⟨by decide, Schema.readsOnlyInputs_quotation, ⟨_, _, _, rfl⟩, by decide +kernel, by decide,
    by decide +kernel, by decide, by decide, by decide +kernel⟩

end Form

end DerivedForm
