import DerivedForm.Proofs.Form.Reached

/-!
# Independence of the history

What an edit of a plain field makes of the entries depends on the plain entries, on the focus and on
the entry that has it, but on nothing else that was there before. So two forms that agree in these
respects agree in everything after the same edit, whatever has happened to them, and edits of
different plain fields may be made in either order.
-/

namespace DerivedForm

namespace Form

variable {schema : Schema} {options other : Options} {form form' next : Form} {id : String}
  {d e : FieldDefinition} {input : Value}

/-- The forms agree in what feeds a recalculation: the entries of the plain fields, the focus, and the
entry that has it. -/
structure Agree (form form' : Form) : Prop where
  plain : ∀ d ∈ form.schema.definitions, d.isDerived = false →
    Option.Rel Entry.Equal (form.entry? d.id) (form'.entry? d.id)
  focused : form.focused = form'.focused
  held : ∀ id, form.focused = some id →
    Option.Rel Entry.Equal (form.entry? id) (form'.entry? id)

theorem source_cases {focused : Option String} (hsource : schema.IsSource focused id) :
    id ∉ schema.definitions.map FieldDefinition.id ∨
      (∃ d ∈ schema.definitions, d.id = id ∧ d.isDerived = false) ∨ focused = some id := by
  by_cases hid : id ∈ schema.definitions.map FieldDefinition.id
  · right
    obtain ⟨d, hd, rfl⟩ := List.mem_map.mp hid
    cases hderived : d.isDerived with
    | false => exact Or.inl ⟨d, hd, rfl, hderived⟩
    | true =>
      right
      have hheld := hsource d (Schema.mem_derived.mpr ⟨hd, hderived⟩) rfl
      simp only [FieldDefinition.isHeld, Bool.and_eq_true, beq_iff_eq] at hheld
      exact hheld.2
  · exact Or.inl hid

theorem Agree.sources (h : form.Agree form') (hfits : form.schema.Fits form.entries)
    (hschema : form'.schema = form.schema) (hfits' : form.schema.Fits form'.entries)
    (hsource : form.schema.IsSource form.focused id) :
    Option.Rel Entry.Equal (Entry.find? form.entries id) (Entry.find? form'.entries id) := by
  have hentry : Option.Rel Entry.Equal (form.entry? id) (form'.entry? id) →
      Option.Rel Entry.Equal (Entry.find? form.entries id) (Entry.find? form'.entries id) := by
    intro hequal
    rwa [entry?_of_fits hfits, entry?_of_fits (hschema ▸ hfits')] at hequal
  rcases source_cases hsource with hunknown | ⟨d, hd, rfl, hplain⟩ | hheld
  · rw [hfits.find?_eq_none hunknown, hfits'.find?_eq_none hunknown]
    exact .none
  · exact hentry (h.plain d hd hplain)
  · exact hentry (h.held id hheld)

theorem entries_edit_plain (hform : form.WellFormed schema options)
    (horder : options.order = .inputsFirst) (hacyclic : schema.graph.hasCycle = false)
    (hd : d ∈ schema.definitions) (hplain : d.isDerived = false)
    (hedit : form.edit d.id input = .ok next) :
    next = refreshFlags { form with
      entries := (schema.pass .inputsFirst form.focused
        (Entry.modifyFirst d.id (fun _ => Entry.validate d input) form.entries)).entries } := by
  have hnext := hform.edit_of_plain hd hplain hedit
  obtain ⟨rfl, rfl, -⟩ := hform
  rwa [recalculate_of_acyclic horder hacyclic] at hnext

theorem Agree.edit (hreads : schema.ReadsOnlyInputs) (hacyclic : schema.graph.hasCycle = false)
    (horder : options.order = .inputsFirst) (horder' : other.order = .inputsFirst)
    (hform : form.WellFormed schema options) (hform' : form'.WellFormed schema other)
    (h : form.Agree form') (hd : d ∈ schema.definitions) (hplain : d.isDerived = false)
    (hedit : form.edit d.id input = .ok next) :
    ∃ next', form'.edit d.id input = .ok next' ∧
      List.Forall₂ Entry.Equal next.entries next'.entries := by
  obtain ⟨next', hedit'⟩ := exists_edit hform' hd (isEditable_of_edit hform hd hedit) input
  refine ⟨next', hedit', ?_⟩
  rw [entries_edit_plain hform horder hacyclic hd hplain hedit,
    entries_edit_plain hform' horder' hacyclic hd hplain hedit', ← h.focused]
  have hregular := Entry.regular_validate d input
  apply Schema.pass_equal hreads hacyclic (hform.fits.modifyFirst hd hregular)
    (hform'.fits.modifyFirst hd hregular)
  intro id hsource
  by_cases hid : id = d.id
  · subst hid
    obtain ⟨e, he, -⟩ := hform.fits.exists_find? hd
    obtain ⟨e', he', -⟩ := hform'.fits.exists_find? hd
    rw [Entry.find?_modifyFirst (fun _ => Entry.validate_id d input),
      Entry.find?_modifyFirst (fun _ => Entry.validate_id d input), he, he']
    exact .some (Entry.equal_self hregular.ne_nan)
  · rw [Entry.find?_modifyFirst_of_ne (fun _ => Entry.validate_id d input) hid,
      Entry.find?_modifyFirst_of_ne (fun _ => Entry.validate_id d input) hid]
    obtain ⟨rfl, rfl, hfits⟩ := hform
    exact h.sources hfits hform'.schema_eq hform'.fits hsource

theorem find?_two_edits {focused : Option String} {entries : List Entry} {v w : Value}
    (hne : d.id ≠ e.id) (hsource : schema.IsSource focused id) :
    Entry.find? (Entry.modifyFirst e.id (fun _ => Entry.validate e w)
      (schema.pass .inputsFirst focused
        (Entry.modifyFirst d.id (fun _ => Entry.validate d v) entries)).entries) id =
      if id = d.id then (Entry.find? entries id).map fun _ => Entry.validate d v
      else if id = e.id then (Entry.find? entries id).map fun _ => Entry.validate e w
      else Entry.find? entries id := by
  by_cases hid : id = e.id
  · subst hid
    rw [Entry.find?_modifyFirst (fun _ => Entry.validate_id e w), Schema.find?_pass hsource,
      Entry.find?_modifyFirst_of_ne (fun _ => Entry.validate_id d v) hne.symm,
      if_neg hne.symm, if_pos rfl]
  · rw [Entry.find?_modifyFirst_of_ne (fun _ => Entry.validate_id e w) hid,
      Schema.find?_pass hsource, if_neg hid]
    by_cases hid' : id = d.id
    · subst hid'
      rw [Entry.find?_modifyFirst (fun _ => Entry.validate_id d v), if_pos rfl]
    · rw [Entry.find?_modifyFirst_of_ne (fun _ => Entry.validate_id d v) hid', if_neg hid']

theorem edit_comm (hreads : schema.ReadsOnlyInputs) (hacyclic : schema.graph.hasCycle = false)
    (horder : options.order = .inputsFirst) (hform : form.WellFormed schema options)
    (hd : d ∈ schema.definitions) (he : e ∈ schema.definitions) (hplain : d.isDerived = false)
    (hplain' : e.isDerived = false) (hne : d.id ≠ e.id) {v w : Value} {left right : Form}
    (hleft : form.edit d.id v = .ok left) (hright : form.edit e.id w = .ok right) :
    ∃ last, left.edit e.id w = .ok last ∧ right.edit d.id v = .ok last := by
  have hform₁ := hform.edit hleft
  have hform₂ := hform.edit hright
  obtain ⟨last, hlast⟩ := exists_edit hform₁ he (isEditable_of_edit hform he hright) w
  obtain ⟨last', hlast'⟩ := exists_edit hform₂ hd (isEditable_of_edit hform hd hleft) v
  have hdef := entries_edit_plain hform horder hacyclic hd hplain hleft
  have hdef' := entries_edit_plain hform horder hacyclic he hplain' hright
  have hsame : last = last' := by
    rw [entries_edit_plain hform₁ horder hacyclic he hplain' hlast,
      entries_edit_plain hform₂ horder hacyclic hd hplain hlast']
    have hentries : (schema.pass .inputsFirst form.focused
        (Entry.modifyFirst e.id (fun _ => Entry.validate e w) left.entries)).entries =
        (schema.pass .inputsFirst form.focused
          (Entry.modifyFirst d.id (fun _ => Entry.validate d v) right.entries)).entries := by
      apply Schema.pass_eq hreads hacyclic
        (hform₁.fits.modifyFirst he (Entry.regular_validate e w))
        (hform₂.fits.modifyFirst hd (Entry.regular_validate d v))
      intro id hsource
      -- both lists hold the two inputs, and what was there before under the other sources
      rw [hdef, hdef']
      change Entry.find? (Entry.modifyFirst e.id _ (schema.pass _ _ _).entries) id =
        Entry.find? (Entry.modifyFirst d.id _ (schema.pass _ _ _).entries) id
      rw [find?_two_edits hne hsource, find?_two_edits hne.symm hsource]
      by_cases hid : id = d.id
      · rw [if_pos hid, if_neg (hid ▸ hne), if_pos hid]
      · rw [if_neg hid, if_neg hid]
    subst hdef hdef'
    exact congrArg (fun entries => refreshFlags { form with entries }) hentries
  exact ⟨last, hlast, hsame ▸ hlast'⟩

/-- Whatever has happened to two forms over a schema: if they agree in the plain fields, the focus and
the field that has it, then an accepted edit of a plain field leaves both with equal entries. Edits
of different plain fields commute. -/
theorem Reached.edit_plain (hreads : schema.ReadsOnlyInputs)
    (hacyclic : schema.graph.hasCycle = false) (horder : options.order = .inputsFirst)
    (horder' : other.order = .inputsFirst) (h : form.Reached schema options)
    (h' : form'.Reached schema other) :
    (form.Agree form' → ∀ d ∈ schema.definitions, d.isDerived = false → ∀ input next,
      form.edit d.id input = .ok next →
        ∃ next', form'.edit d.id input = .ok next' ∧
          List.Forall₂ Entry.Equal next.entries next'.entries) ∧
      ∀ d ∈ schema.definitions, ∀ e ∈ schema.definitions, d.isDerived = false →
        e.isDerived = false → d.id ≠ e.id → ∀ v w left right,
          form.edit d.id v = .ok left → form.edit e.id w = .ok right →
            ∃ last, left.edit e.id w = .ok last ∧ right.edit d.id v = .ok last := by
  constructor
  · intro hagree d hd hplain input next hedit
    exact hagree.edit hreads hacyclic horder horder' h.wellFormed h'.wellFormed hd hplain hedit
  · intro d hd e he hplain hplain' hne v w left right hleft hright
    exact edit_comm hreads hacyclic horder h.wellFormed hd he hplain hplain' hne hleft hright

theorem Reached.edit_plain_invoice :
    let form := ((Session.mk (create .invoice [("net", .integer 100)] {}) .empty).run
      [.focus "gross", .edit "gross" (.text "240"), .blur "gross", .edit "note" (.text "x"),
        .edit "net" (.text "7")]).2.form
    let form' := ((Session.mk (create .invoice [("note", .text "x")] {}) .empty).run
      [.edit "net" (.text "7")]).2.form
    form.Agree form' ∧ ∃ next next', form.edit "net" (.text "9") = .ok next ∧
      form'.edit "net" (.text "9") = .ok next' ∧
        List.Forall₂ Entry.Equal next.entries next'.entries := by
  intro form form'
  have h : form.Reached .invoice {} := ⟨_, _, _, rfl⟩
  have h' : form'.Reached .invoice {} := ⟨_, _, _, rfl⟩
  have hsame : ∀ id, form.entry? id = form'.entry? id →
      Option.Rel Entry.Equal (form.entry? id) (form'.entry? id) := by
    intro id hid
    rw [hid, h'.wellFormed.entry?_eq]
    cases hfind : Entry.find? form'.entries id with
    | none => exact .none
    | some e =>
      exact .some (Entry.equal_self (h'.wellFormed.fits.ne_nan (Entry.mem_of_find? hfind)))
  have hagree : form.Agree form' := by
    refine ⟨fun d hd hplain => hsame d.id ?_, by decide +kernel, fun id hid => ?_⟩
    · rw [h.wellFormed.schema_eq] at hd
      simp only [Schema.invoice, invoiceFields, List.mem_cons, List.not_mem_nil, or_false] at hd
      rcases hd with rfl | rfl | rfl | rfl
      · decide +kernel
      · decide +kernel
      · cases hplain
      · cases hplain
    · have hnone : form.focused = none := by decide +kernel
      rw [hnone] at hid
      cases hid
  obtain ⟨hedit, -⟩ := Reached.edit_plain Schema.readsOnlyInputs_invoice (by decide) rfl rfl h h'
  obtain ⟨next, hnext⟩ := exists_edit h.wellFormed (d := invoiceFields[1]) (by decide) (by decide)
    (.text "9")
  obtain ⟨next', hnext', hequal⟩ :=
    hedit hagree invoiceFields[1] (by decide) (by decide) (.text "9") next hnext
  exact ⟨hagree, next, next', hnext, hnext', hequal⟩

end Form

end DerivedForm
