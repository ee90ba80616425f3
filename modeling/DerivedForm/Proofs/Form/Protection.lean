import DerivedForm.Proofs.Form.Reached

/-!
# A held field

While an overridable field has the focus, no recalculation touches its entry, and edits of plain fields,
saves and visits to other fields do not move the focus. So its entry is the one of its last accepted
edit. When it is left, an entry that is empty or invalid gives way to the computed value.
-/

namespace DerivedForm

/-- The action neither moves the focus away from the field nor overrides another one. -/
def Action.Spares (schema : Schema) (id : String) : Action → Prop
  | .edit other _ | .focus other => other = id ∨ schema.isOverridable other = false
  | .blur other => other ≠ id
  | .reset => False
  | .rejectUpdates _ | .acceptUpdates | .save _ | .abandonSave => True

def Session.Step.accepted? (id : String) (s : Session.Step) : Option Value :=
  match s.action, s.outcome with
  | .edit other input, .edited (.ok ()) => if other = id then some input else none
  | _, _ => none

namespace Form

variable {schema : Schema} {options : Options} {form next : Form} {d : FieldDefinition}

/-- The field has the focus, and the entry stands in it. -/
structure Keeps (schema : Schema) (options : Options) (d : FieldDefinition) (held : Entry)
    (form : Form) : Prop where
  wellFormed : form.WellFormed schema options
  focused : form.focused = some d.id
  entry : Entry.find? form.entries d.id = some held

variable {held : Entry}

theorem find?_entriesAfter_self (hd : d ∈ schema.definitions) (hoverridable : d.isOverridable = true)
    (hform : form.WellFormed schema options) (input : Value) :
    Entry.find? (form.entriesAfter d input) d.id = some (Entry.validate d input) := by
  obtain ⟨rfl, rfl, hfits⟩ := hform
  obtain ⟨e, he, -⟩ := hfits.exists_find? hd
  have hderived : d ∈ form.schema.derived :=
    Schema.mem_derived.mpr ⟨hd, FieldDefinition.isDerived_of_isOverridable hoverridable⟩
  -- the fields that the override empties are others than the one it stands in
  have hspared : d.id ∉ form.schema.clearedBy d.id := fun hmem =>
    ((Schema.mem_clearedBy hderived hoverridable).mp hmem).2.1 rfl
  simp only [entriesAfter, hoverridable, if_true]
  rw [Schema.find?_override_of_notMem hspared,
    Entry.find?_modifyFirst (fun _ => Entry.validate_id d input), he]
  rfl

theorem Keeps.find?_entriesAfter (h : form.Keeps schema options d held)
    (hd : d ∈ schema.definitions) (hoverridable : d.isOverridable = true) {other : FieldDefinition}
    (hmem : other ∈ schema.definitions) (hother : other.isOverridable = false) (input : Value) :
    Entry.find? (form.entriesAfter other input) d.id = some held := by
  have hne : d.id ≠ other.id := by
    intro heq
    obtain rfl : d = other := Schema.eq_of_id_eq hd hmem heq
    rw [hother] at hoverridable
    cases hoverridable
  obtain ⟨⟨rfl, rfl, hfits⟩, hfocused, hentry⟩ := h
  simp only [entriesAfter, hother, recalculate, hfocused, Bool.false_eq_true, if_false]
  rw [Schema.find?_recalculate (Schema.isSource_some hd hoverridable),
    Entry.find?_modifyFirst_of_ne (fun _ => Entry.validate_id other input) hne, hentry]

theorem isOverridable_eq_false (hd : d ∈ schema.definitions)
    (h : schema.isOverridable d.id = false) : d.isOverridable = false := by
  simpa [Schema.isOverridable, Schema.get?_of_mem hd] using h

theorem Keeps.edit (h : form.Keeps schema options d held) (hd : d ∈ schema.definitions)
    (hoverridable : d.isOverridable = true) {id : String} {input : Value}
    (hspares : id = d.id ∨ schema.isOverridable id = false)
    (hedit : form.edit id input = .ok next) :
    next.Keeps schema options d (if id = d.id then Entry.validate d input else held) := by
  have hform := h.wellFormed
  refine ⟨hform.edit hedit, ?_, ?_⟩
  all_goals
    obtain ⟨rfl, rfl, hfits⟩ := hform
    obtain ⟨other, hother, rfl, -, rfl⟩ := (edit_eq_ok_iff hfits).mp hedit
  · exact h.focused
  · split
    · rename_i heq
      obtain rfl : other = d := Schema.eq_of_id_eq hother hd heq
      exact find?_entriesAfter_self hd hoverridable h.wellFormed input
    · rename_i hne
      exact h.find?_entriesAfter hd hoverridable hother
        (isOverridable_eq_false hother (hspares.resolve_left hne)) input

theorem Keeps.focus (h : form.Keeps schema options d held) {id : String}
    (hspares : id = d.id ∨ schema.isOverridable id = false) :
    (form.focus id).Keeps schema options d held := by
  obtain ⟨⟨rfl, rfl, hfits⟩, hfocused, hentry⟩ := h
  refine ⟨⟨rfl, rfl, hfits⟩, ?_, hentry⟩
  simp only [Form.focus, Schema.focus]
  rcases hspares with rfl | hother
  · split
    · rfl
    · exact hfocused
  · simpa [hother] using hfocused

theorem Keeps.blur (h : form.Keeps schema options d held) {id : String} (hne : id ≠ d.id) :
    (form.blur id).Keeps schema options d held := by
  have hother : form.focused ≠ some id := by
    rw [h.focused]
    exact fun heq => hne (Option.some.inj heq).symm
  rw [blur_eq, if_neg hother]
  obtain ⟨⟨rfl, rfl, hfits⟩, hfocused, hentry⟩ := h
  exact ⟨⟨rfl, rfl, hfits⟩, hfocused, hentry⟩

end Form

namespace Session

variable {schema : Schema} {options : Options} {d : FieldDefinition} {session : Session}
  {held : Entry} {action : Action}

theorem keeps_save (h : session.form.Keeps schema options d held) (identifier : String) :
    (session.save identifier).2.form.Keeps schema options d held := by
  obtain ⟨⟨hschema, hoptions, hfits⟩, hfocused, hentry⟩ := h
  rcases session.save_cases identifier with
    ⟨-, hsave⟩ | ⟨-, ⟨-, hsave⟩ | ⟨message, -, hsave⟩⟩ <;>
    rw [hsave] <;> exact ⟨⟨hschema, hoptions, hfits⟩, hfocused, hentry⟩

theorem keeps_abandonSave (h : session.form.Keeps schema options d held) :
    session.abandonSave.2.form.Keeps schema options d held := by
  obtain ⟨⟨hschema, hoptions, hfits⟩, hfocused, hentry⟩ := h
  rcases session.abandonSave_cases with ⟨-, hsave⟩ | ⟨-, hsave⟩ <;>
    rw [hsave] <;> exact ⟨⟨hschema, hoptions, hfits⟩, hfocused, hentry⟩

theorem keeps_perform (h : session.form.Keeps schema options d held)
    (hd : d ∈ schema.definitions) (hoverridable : d.isOverridable = true)
    (hspares : action.Spares schema d.id) :
    (session.perform action).2.form.Keeps schema options d
      ((((session.step action).accepted? d.id).map (Entry.validate d)).getD held) := by
  cases action with
  | edit id input =>
    simp only [step, perform, Session.edit]
    cases hresult : session.form.edit id input with
    | error error => exact h
    | ok next =>
      have hnext := h.edit hd hoverridable hspares hresult
      by_cases hid : id = d.id <;> simpa [Step.accepted?, withForm, hid] using hnext
  | focus id => exact h.focus hspares
  | blur id => exact h.blur hspares
  | reset => exact hspares.elim
  | rejectUpdates message => exact h
  | acceptUpdates => exact h
  | save identifier => exact keeps_save h identifier
  | abandonSave => exact keeps_abandonSave h

def lastAccepted? (session : Session) (id : String) (actions : List Action) : Option Value :=
  ((session.steps actions).filterMap (Step.accepted? id)).getLast?

theorem keeps_run (h : session.form.Keeps schema options d held) (hd : d ∈ schema.definitions)
    (hoverridable : d.isOverridable = true) {actions : List Action}
    (hspares : ∀ action ∈ actions, action.Spares schema d.id) :
    (session.run actions).2.form.Keeps schema options d
      (((session.lastAccepted? d.id actions).map (Entry.validate d)).getD held) := by
  obtain ⟨⟨last, hlast⟩, hsteps⟩ := invariant_steps
    (P := fun session => ∃ held, session.form.Keeps schema options d held)
    (fun _ _ ⟨_, h⟩ hspares => ⟨_, keeps_perform h hd hoverridable hspares⟩) ⟨held, h⟩ hspares
  -- an accepted edit of the field is the mark that a step leaves on its entry
  have hmarks : ∀ s ∈ session.steps actions, Entry.find? s.after.form.entries d.id =
      ((s.accepted? d.id).map fun input => some (Entry.validate d input)).getD
        (Entry.find? s.before.form.entries d.id) := by
    intro s hs
    obtain ⟨⟨held, h⟩, hspares⟩ := hsteps s hs
    have hnext := keeps_perform h hd hoverridable hspares
    have hafter : s.after = (s.before.perform s.action).2 := congrArg Step.after (eq_step_of_mem hs)
    rw [hafter, hnext.entry, h.entry, ← eq_step_of_mem hs]
    cases s.accepted? d.id <;> rfl
  have hentry := run_last_mark (v := fun session => Entry.find? session.form.entries d.id) hmarks
  refine ⟨hlast.wellFormed, hlast.focused, hentry.trans ?_⟩
  rw [h.entry, lastAccepted?]
  cases List.getLast? _ <;> rfl

end Session

namespace Schema

variable {schema : Schema} {d : FieldDefinition} {entries : List Entry}

def passes (schema : Schema) (order : VisitOrder) (focused : Option String) :
    Nat → List Entry → List Entry
  | 0, entries => entries
  | n + 1, entries => (schema.pass order focused (schema.passes order focused n entries)).entries

theorem Fits.passes (h : schema.Fits entries) (order : VisitOrder) (focused : Option String)
    (n : Nat) : schema.Fits (schema.passes order focused n entries) := by
  induction n with
  | zero => exact h
  | succ n ih => exact ih.pass order focused

theorem exists_passes (schema : Schema) (order : VisitOrder) (focused : Option String)
    (maxPasses : Nat) (entries : List Entry) :
    ∃ n, (schema.recalculate order focused maxPasses entries).entries =
      schema.passes order focused (n + 1) entries := by
  apply recalculate_induction
    (P := fun others => ∃ n, others = schema.passes order focused (n + 1) entries)
  · rintro _ ⟨n, rfl⟩
    exact ⟨n + 1, rfl⟩
  · exact ⟨0, rfl⟩

/-- After some passes without a focus the field is valid. It holds what it yields from the values known at
its visit in the last pass, or nothing if it yields nothing from them. -/
def Recomputed (schema : Schema) (order : VisitOrder) (d : FieldDefinition)
    (entries next : List Entry) : Prop :=
  ∃ (n : Nat) (s : PassState) (v : Value), next = schema.passes order none (n + 1) entries ∧
    schema.VisitedAt order none (schema.passes order none n entries) d s ∧
    Entry.find? next d.id = some (.valid d.id v) ∧
    (d.Yields s.values v ∨ v = .null ∧ ∀ w, ¬ d.Yields s.values w)

theorem yields_or_null (d : FieldDefinition) (values : Bindings) :
    d.Yields values ((d.compute? values).getD .null) ∨
      (d.compute? values).getD .null = .null ∧ ∀ w, ¬ d.Yields values w := by
  cases hcompute : d.compute? values with
  | some v => exact Or.inl (FieldDefinition.compute?_eq_some_iff.mp hcompute)
  | none =>
    refine Or.inr ⟨rfl, fun w hw => ?_⟩
    rw [FieldDefinition.compute?_eq_some_iff.mpr hw] at hcompute
    cases hcompute

theorem recomputed_recalculate (h : schema.Fits entries) (hd : d ∈ schema.derived)
    (order : VisitOrder) (maxPasses : Nat) :
    schema.Recomputed order d entries
      (schema.recalculate order none maxPasses entries).entries := by
  obtain ⟨n, hn⟩ := schema.exists_passes order none maxPasses entries
  have hfits := h.passes order none n
  obtain ⟨hmem, hderived⟩ := mem_derived.mp hd
  obtain ⟨s, hs⟩ : ∃ s, schema.VisitedAt order none (schema.passes order none n entries) d s :=
    exists_visit hfits.lists order hd (by simp [FieldDefinition.isHeld])
  obtain ⟨e, he, hregular⟩ := hfits.exists_find? hmem
  refine ⟨n, s, _, hn, hs, ?_, yields_or_null d s.values⟩
  rw [hn, passes, hs.computed, he, Option.map_some, hregular.withResult_eq hderived]

end Schema

namespace Form

variable {schema : Schema} {options : Options} {form : Form} {d : FieldDefinition} {e : Entry}

theorem Keeps.focused_blur (h : form.Keeps schema options d e) :
    (form.blur d.id).focused = none := by
  rw [blur_eq, if_pos h.focused]
  split <;> rfl

theorem Keeps.entries_blur (h : form.Keeps schema options d e) (hvalid : e.isValid = true)
    (hempty : e.value.isEmpty = false) : (form.blur d.id).entries = form.entries := by
  have hkept : ((Entry.find? form.entries d.id).any Entry.isAbandoned) = false := by
    simp [h.entry, Entry.isAbandoned, hvalid, hempty]
  rw [blur_eq, if_pos h.focused, hkept]
  rfl

theorem Keeps.recomputed_blur (h : form.Keeps schema options d e) (hd : d ∈ schema.derived)
    (habandoned : e.isValid = false ∨ e.value.isEmpty = true) :
    schema.Recomputed options.order d form.entries (form.blur d.id).entries := by
  have hgiven : ((Entry.find? form.entries d.id).any Entry.isAbandoned) = true := by
    rcases habandoned with hinvalid | hempty
    · simp [h.entry, Entry.isAbandoned, hinvalid]
    · simp [h.entry, Entry.isAbandoned, hempty]
  rw [blur_eq, if_pos h.focused, if_pos hgiven]
  obtain ⟨⟨rfl, rfl, hfits⟩, -, -⟩ := h
  exact Schema.recomputed_recalculate hfits hd _ _

/-- From the moment an overridable field has taken the focus, and as long as no reset, no edit or
visit of another overridable field and no blur of the field comes in between, its entry is that of its last
accepted edit, or the one that it had. Left with a valid value, it leaves all entries alone; otherwise
it ends valid with its computed value, if there is one. -/
theorem Reached.focus_protects (h : form.Reached schema options) (store : Store) {id : String}
    (htakes : form.takesFocus id = true) {actions : List Action}
    (hspares : ∀ action ∈ actions, action.Spares schema id) :
    let start := Session.mk (form.focus id) store
    let last := (start.run actions).2.form
    let left := last.blur id
    ∃ d ∈ schema.definitions, d.id = id ∧ ∃ held e, form.entry? id = some held ∧
      last.entry? id = some e ∧
      e = ((start.lastAccepted? id actions).map (Entry.validate d)).getD held ∧
      left.focused = none ∧
      (e.isValid = true → e.value.isEmpty = false → left.entries = last.entries) ∧
      (e.isValid = false ∨ e.value.isEmpty = true →
        schema.Recomputed options.order d last.entries left.entries) := by
  intro start last left
  have hform := h.wellFormed
  have hid : schema.isOverridable id = true := hform.schema_eq ▸ htakes
  obtain ⟨d, hd, hoverridable⟩ : ∃ d, schema.get? id = some d ∧ d.isOverridable = true := by
    simpa [Schema.isOverridable, Option.any_eq_true] using hid
  obtain rfl : d.id = id := Schema.id_of_get? hd
  have hmem := Schema.mem_of_get? hd
  have hderived : d ∈ schema.derived :=
    Schema.mem_derived.mpr ⟨hmem, FieldDefinition.isDerived_of_isOverridable hoverridable⟩
  obtain ⟨held, hheld, -⟩ := hform.fits.exists_find? hmem
  have hstart : start.form.Keeps schema options d held := by
    refine ⟨⟨hform.schema_eq, hform.options_eq, hform.fits⟩, ?_, hheld⟩
    simp [start, Form.focus, Schema.focus, hform.schema_eq, hid]
  have hlast := Session.keeps_run hstart hmem hoverridable hspares
  refine ⟨d, hmem, rfl, held, _, (hform.entry?_eq d.id).trans hheld,
    (hlast.wellFormed.entry?_eq d.id).trans hlast.entry, rfl, hlast.focused_blur,
    hlast.entries_blur, hlast.recomputed_blur hderived⟩

theorem Reached.focus_protects_quotation :
    let form := create .quotation [("net", .integer 100)] {}
    let actions := [Action.edit "gross" (.text "abc"), .edit "net" (.text "50"), .save "quote",
      .focus "note", .blur "note"]
    let last := ((Session.mk (form.focus "gross") .empty).run actions).2.form
    form.takesFocus "gross" = true ∧ (∀ action ∈ actions, action.Spares .quotation "gross") ∧
      last.entry? "gross" = some (.refused "gross" "abc" (.notANumber "abc")) ∧
      Form.entry? (last.blur "gross") "gross" = some (.valid "gross" (.decimal 60)) ∧
      ∃ d ∈ Schema.quotation.definitions, d.id = "gross" ∧
        Schema.quotation.Recomputed .inputsFirst d last.entries (last.blur "gross").entries := by
  intro form actions last
  have htakes : form.takesFocus "gross" = true := by decide +kernel
  have hspares : ∀ action ∈ actions, action.Spares .quotation "gross" := by
    have hnet : Schema.quotation.isOverridable "net" = false := by decide
    have hnote : Schema.quotation.isOverridable "note" = false := by decide
    simp [actions, Action.Spares, hnet, hnote]
  have hlast : last.entry? "gross" = some (.refused "gross" "abc" (.notANumber "abc")) := by
    decide +kernel
  have hform : form.Reached .quotation {} := ⟨_, .empty, [], rfl⟩
  obtain ⟨d, hd, hid, held, e, -, he, -, -, -, hrecomputed⟩ :=
    hform.focus_protects .empty htakes hspares
  refine ⟨htakes, hspares, hlast, by decide +kernel, d, hd, hid, hrecomputed (Or.inl ?_)⟩
  cases he.symm.trans hlast
  rfl

end Form

end DerivedForm
