import DerivedForm.Proofs.Form.Invariants
import DerivedForm.Proofs.Form.Frame

/-!
# The baseline after a save

A successful save makes the values of the form its baseline, and nothing but another successful save
changes it. A reset validates these values again, which leaves the plain entries as they were saved, and
recalculates. So a computed value comes back as it was saved if it was settled then; one that was typed
over the computed value gives way to it.
-/

namespace DerivedForm

def Outcome.isSaved : Outcome → Bool
  | .saved (.ok _) => true
  | _ => false

namespace Session

variable {schema : Schema} {options : Options} {session : Session} {action : Action}

theorem baseline_perform (h : session.form.WellFormed schema options)
    (hunsaved : (session.perform action).1.isSaved = false) :
    (session.perform action).2.form.baseline = session.form.baseline := by
  apply perform_cases_of_answer (P := fun form => form.baseline = session.form.baseline)
    session action rfl
  · intro id input next hedit
    obtain ⟨rfl, rfl, hfits⟩ := h
    obtain ⟨d, -, -, -, rfl⟩ := (Form.edit_eq_ok_iff hfits).mp hedit
    rfl
  · exact fun id => rfl
  · exact fun id => rfl
  · rfl
  · exact fun isLoading => rfl
  · intro payload hanswer
    rw [hanswer] at hunsaved
    cases hunsaved

theorem baseline_run {actions : List Action} (h : session.form.WellFormed schema options)
    (hunsaved : ∀ outcome ∈ (session.run actions).1, outcome.isSaved = false) :
    (session.run actions).2.form.baseline = session.form.baseline := by
  induction actions generalizing session with
  | nil => rfl
  | cons action rest ih =>
    obtain ⟨hfirst, hrest⟩ := List.forall_mem_cons.mp hunsaved
    exact (ih (h.perform action) hrest).trans (baseline_perform h hfirst)

end Session

namespace Entry

def Validated (d : FieldDefinition) (e : Entry) : Prop :=
  d.isDerived = false → ∃ input, e = validate d input

theorem invariant_validated : Entry.Invariant Validated where
  validate := fun _ input _ => ⟨input, rfl⟩
  withResult := by
    intro d e values hderived _ hplain
    rw [hderived] at hplain
    cases hplain

theorem Validated.validate_value {d : FieldDefinition} {e : Entry} (h : Validated d e)
    (hplain : d.isDerived = false) (hvalid : e.isValid = true) :
    Entry.validate d e.value = e := by
  obtain ⟨input, rfl⟩ := h hplain
  exact validate_of_isValid hvalid

end Entry

namespace Form

variable {schema : Schema} {options : Options} {form other : Form} {d v : FieldDefinition}
  {e : Entry}

/-- A form that can be saved: all its entries are valid, the plain ones come from validation. -/
structure Savable (schema : Schema) (options : Options) (form : Form) : Prop where
  wellFormed : form.WellFormed schema options
  validated : schema.Each Entry.Validated form.entries
  valid : ∀ e ∈ form.entries, e.isValid = true

theorem Reached.savable (h : form.Reached schema options) (hvalid : form.isValid = true) :
    form.Savable schema options where
  wellFormed := h.wellFormed
  validated := h.each Entry.invariant_validated
  valid := by
    rw [h.coherent.isValid] at hvalid
    exact List.all_eq_true.mp hvalid

theorem find?_baselineEntries (hschema : form.schema = schema) (hd : d ∈ schema.definitions) :
    Entry.find? form.baselineEntries d.id = some (baselineEntry form.baseline d) := by
  subst hschema
  have hid : (baselineEntry form.baseline d).id = d.id := Entry.validate_id d _
  rw [← hid]
  exact Entry.find?_of_mem form.fits_baselineEntries.lists.nodup (List.mem_map_of_mem hd)

theorem WellFormed.find?_load (h : form.WellFormed schema options) (hd : d ∈ schema.definitions)
    (hplain : d.isDerived = false) :
    Entry.find? form.load.entries d.id = some (baselineEntry form.baseline d) := by
  have hsource := Schema.isSource_of_plain hd hplain none
  obtain ⟨rfl, rfl, -⟩ := h
  change Entry.find? (form.recalculate none form.baselineEntries) d.id = _
  rw [recalculate, Schema.find?_recalculate hsource, find?_baselineEntries rfl hd]

theorem Savable.baselineEntry_eq (h : form.Savable schema options)
    (hbaseline : other.baseline = form.completeSave.baseline) (hd : d ∈ schema.definitions)
    (hplain : d.isDerived = false) (he : Entry.find? form.entries d.id = some e) :
    baselineEntry other.baseline d = e := by
  have hall : form.entries.filter Entry.isValid = form.entries := List.filter_eq_self.mpr h.valid
  have hvalid := h.valid e (Entry.mem_of_find? he)
  have hbindings : other.baseline = Entry.bindings form.entries := by
    rw [hbaseline, Entry.bindings, hall]
    rfl
  have hget : other.baseline.get? d.id = some e.value := by
    rw [hbindings, Entry.get?_bindings h.wellFormed.fits.lists.nodup, he]
    simp [Option.filter, hvalid]
  rw [baselineEntry, hget]
  exact (h.validated d hd e he).validate_value hplain hvalid

theorem Savable.find?_load (h : form.Savable schema options)
    (hother : other.WellFormed schema options)
    (hbaseline : other.baseline = form.completeSave.baseline) (hd : d ∈ schema.definitions)
    (hplain : d.isDerived = false) :
    Entry.find? other.load.entries d.id = Entry.find? form.entries d.id := by
  obtain ⟨e, he, -⟩ := h.wellFormed.fits.exists_find? hd
  rw [hother.find?_load hd hplain, h.baselineEntry_eq hbaseline hd hplain he, he]

theorem Savable.isValid_load (h : form.Savable schema options)
    (hother : other.WellFormed schema options)
    (hbaseline : other.baseline = form.completeSave.baseline) : other.load.isValid = true := by
  have hload := wellFormed_load hother.schema_eq hother.options_eq
  change other.load.entries.all Entry.isValid = true
  rw [List.all_eq_true]
  intro e he
  have hid : e.id ∈ schema.definitions.map FieldDefinition.id :=
    hload.fits.ids ▸ List.mem_map_of_mem he
  obtain ⟨d, hd, hid⟩ := List.mem_map.mp hid
  have hfind : Entry.find? other.load.entries d.id = some e :=
    hid ▸ Entry.find?_of_mem hload.fits.lists.nodup he
  cases hderived : d.isDerived with
  | false =>
    rw [h.find?_load hother hbaseline hd hderived] at hfind
    exact h.valid e (Entry.mem_of_find? hfind)
  | true =>
    obtain ⟨rfl, rfl, -⟩ := hother
    have hheld : d.isHeld none = false := by simp [FieldDefinition.isHeld]
    obtain ⟨v, hv⟩ := other.fits_baselineEntries.exists_find?_recalculate other.options.order
      other.maxPasses (Schema.mem_derived.mpr ⟨hd, hderived⟩) hheld
    change Entry.find? other.load.entries d.id = _ at hv
    rw [hfind] at hv
    rw [Option.some.inj hv]
    rfl

theorem Savable.entries_load (hreads : schema.ReadsOnlyInputs)
    (hacyclic : schema.graph.hasCycle = false) (hsuffice : options.Suffice schema)
    (h : form.Savable schema options) (hother : other.WellFormed schema options)
    (hbaseline : other.baseline = form.completeSave.baseline) :
    other.load.entries = form.recalculate none form.entries := by
  have hload := wellFormed_load hother.schema_eq hother.options_eq
  have hplain : ∀ d ∈ schema.definitions, d.isDerived = false →
      Entry.find? other.load.entries d.id = Entry.find? form.entries d.id :=
    fun d hd hd' => h.find?_load hother hbaseline hd hd'
  have hsettled := hother.settled_load hreads hacyclic hsuffice
  have hsettled' :=
    h.wellFormed.settled_recalculate hreads hacyclic hsuffice h.wellFormed.fits none
  obtain ⟨rfl, rfl, hfits⟩ := h.wellFormed
  apply Schema.eq_of_settled hreads hacyclic hload.fits (hfits.recalculate _ _ _) hsettled hsettled'
  intro id hsource
  exact (hload.fits.find?_eq_of_plain hfits hplain hsource).trans
    (Schema.find?_recalculate hsource _ _ _).symm

/-- A reset gives the saved entries themselves exactly if these were settled. -/
theorem Savable.entries_load_eq_iff (hreads : schema.ReadsOnlyInputs)
    (hacyclic : schema.graph.hasCycle = false) (hsuffice : options.Suffice schema)
    (h : form.Savable schema options) (hother : other.WellFormed schema options)
    (hbaseline : other.baseline = form.completeSave.baseline) :
    other.load.entries = form.entries ↔ schema.Settled none form.entries := by
  have hload := wellFormed_load hother.schema_eq hother.options_eq
  have hfresh := hother.settled_load hreads hacyclic hsuffice
  constructor
  · intro hsame
    exact hsame ▸ hfresh
  · intro hsettled
    apply Schema.eq_of_settled hreads hacyclic hload.fits h.wellFormed.fits hfresh hsettled
    intro id hsource
    exact hload.fits.find?_eq_of_plain h.wellFormed.fits
      (fun d hd hplain => h.find?_load hother hbaseline hd hplain) hsource

/-- A reset after a successful save, whatever has been done in between short of another successful
save: the form is valid and without changes, and the plain fields are as they were saved. With enough
passes the computed fields hold what a recalculation of the saved entries gives them. So everything is
as it was saved exactly if the saved entries were settled, and so is at least a computed field that was
settled with all computed fields that it depends on. -/
theorem Reached.reset_after_save (hreads : schema.ReadsOnlyInputs)
    (hacyclic : schema.graph.hasCycle = false) {session saved : Session} {identifier : String}
    {payload : Payload} (h : session.form.Reached schema options)
    (hsave : session.save identifier = (.ok payload, saved)) (actions : List Action)
    (hunsaved : ∀ outcome ∈ (saved.run actions).1, outcome.isSaved = false) :
    let form := session.form
    let restored := (saved.run actions).2.form.reset
    restored.isValid = true ∧ restored.hasChanges = false ∧
      (∀ d ∈ schema.definitions, d.isDerived = false → restored.entry? d.id = form.entry? d.id) ∧
      (options.Suffice schema →
        restored.entries = form.recalculate none form.entries ∧
        (restored.entries = form.entries ↔ schema.Settled none form.entries) ∧
        ∀ v ∈ schema.derived,
          (∀ u ∈ schema.derived, schema.Upstream v.id u.id → Schema.SettledAt form.entries u) →
            restored.entry? v.id = form.entry? v.id) := by
  intro form restored
  obtain ⟨hvalid, hsaved⟩ := Session.save_eq_ok hsave
  have hsavable := h.savable hvalid
  have hform := hsavable.wellFormed
  have hstart : saved.form.WellFormed schema options :=
    hsaved ▸ ⟨hform.schema_eq, hform.options_eq, hform.fits⟩
  have hlast : (saved.run actions).2.form.WellFormed schema options :=
    Session.run_induction (P := fun session => session.form.WellFormed schema options)
      (fun _ action h => h.perform action) saved hstart actions
  have hbaseline : (saved.run actions).2.form.baseline = form.completeSave.baseline :=
    (Session.baseline_run hstart hunsaved).trans (congrArg Form.baseline hsaved)
  have hrestored : restored.WellFormed schema options :=
    wellFormed_load hlast.schema_eq hlast.options_eq
  refine ⟨hsavable.isValid_load hlast hbaseline, hasChanges_load _, fun d hd hplain => ?_,
    fun hsuffice => ?_⟩
  · rw [hrestored.entry?_eq, hform.entry?_eq]
    exact hsavable.find?_load hlast hbaseline hd hplain
  · have hentries : restored.entries = form.recalculate none form.entries :=
      hsavable.entries_load hreads hacyclic hsuffice hlast hbaseline
    refine ⟨hentries, hsavable.entries_load_eq_iff hreads hacyclic hsuffice hlast hbaseline,
      fun v hv hsettled => ?_⟩
    rw [hrestored.entry?_eq, hform.entry?_eq, hentries]
    exact recalculate_upstream hreads hform none fun u hu hup _ => hsettled u hu hup

theorem Reached.reset_after_save_quotation :
    let session := Session.mk (create .quotation [("net", .integer 100)] {}) .empty
    let saved := (session.save "a").2
    let restored := (saved.run [.focus "gross", .edit "gross" (.text "240"), .blur "gross",
      .rejectUpdates "full", .save "b", .edit "note" (.text "gift")]).2.form.reset
    session.form.entry? "gross" = some (.valid "gross" (.decimal 120)) ∧
      restored.isValid = true ∧ restored.hasChanges = false ∧
      restored.entries = session.form.entries := by
  have h : (create .quotation [("net", .integer 100)] {}).Reached .quotation {} :=
    ⟨[("net", .integer 100)], .empty, [], rfl⟩
  have hsave : (Session.mk (create .quotation [("net", .integer 100)] {}) .empty).save "a" =
      (.ok (create .quotation [("net", .integer 100)] {}).payload,
        ((Session.mk (create .quotation [("net", .integer 100)] {}) .empty).save "a").2) := by
    refine Prod.ext ?_ rfl
    decide +kernel
  obtain ⟨hvalid, hchanges, -, hrest⟩ := Reached.reset_after_save
    Schema.readsOnlyInputs_quotation (by decide) h hsave
    [.focus "gross", .edit "gross" (.text "240"), .blur "gross", .rejectUpdates "full", .save "b",
      .edit "note" (.text "gift")] (by decide +kernel)
  obtain ⟨-, hsame, -⟩ := hrest (Or.inl rfl)
  exact ⟨by decide +kernel, hvalid, hchanges, hsame.mpr
    (settled_create Schema.readsOnlyInputs_quotation (by decide) (Or.inl rfl) _)⟩

/-- A price with tax that was typed in and saved is emptied by the reset. -/
theorem Reached.reset_empties_quotation :
    let session := ((Session.mk (create .quotation [("net", .integer 100)] {}) .empty).run
      [.edit "gross" (.text "240")]).2
    let saved := (session.save "a").2
    Schema.quotation.graph.hasCycle = false ∧ Schema.quotation.ReadsOnlyInputs ∧
      session.form.Reached .quotation {} ∧
      (session.save "a").1 = .ok session.form.payload ∧
      session.form.entry? "gross" = some (.valid "gross" (.decimal 240)) ∧
      saved.form.reset.entry? "gross" = some (.valid "gross" .null) :=
  ⟨by decide, Schema.readsOnlyInputs_quotation, ⟨_, _, _, rfl⟩, by decide +kernel,
    by decide +kernel, by decide +kernel⟩

end Form

end DerivedForm
