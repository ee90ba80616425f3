import DerivedForm.Proofs.Form.Frame

/-!
# The focus without typing

A field that has the focus is left alone by every recalculation, and when the focus is released it is
recomputed only if it is empty or invalid. So a visit to a field, during which other fields are edited,
leaves the field with the value that it was visited with. Two sessions go in lockstep, with and without
the visit: they have the same plain entries, and they differ only in the visited field and downstream
of it.
-/

namespace DerivedForm

def Action.edits (inputs : List (String × Value)) : List Action :=
  inputs.map fun (id, input) => .edit id input

namespace Form

variable {schema : Schema} {options : Options} {form next plain visited : Form}
  {d v : FieldDefinition} {input : Value} {id : String}

theorem find?_edit_of_isSource (hform : form.WellFormed schema options)
    (hd : d ∈ schema.definitions) (hplain : d.isDerived = false)
    (hedit : form.edit d.id input = .ok next) (hsource : schema.IsSource form.focused id) :
    Entry.find? next.entries id =
      if id = d.id then (Entry.find? form.entries id).map fun _ => Entry.validate d input
      else Entry.find? form.entries id := by
  have hnext := hform.edit_of_plain hd hplain hedit
  obtain ⟨rfl, rfl, -⟩ := hform
  subst hnext
  refine (Schema.find?_recalculate hsource _ _ _).trans ?_
  by_cases hid : id = d.id
  · subst hid
    rw [Entry.find?_modifyFirst (fun _ => Entry.validate_id d input), if_pos rfl]
  · rw [Entry.find?_modifyFirst_of_ne (fun _ => Entry.validate_id d input) hid, if_neg hid]

/-- Two forms with the same plain entries. One has no focus; in the other a field has the focus and
still has the entry that it was visited with. -/
structure InStep (schema : Schema) (options : Options) (v : FieldDefinition)
    (held : Option Entry) (plain visited : Form) : Prop where
  plain_wellFormed : plain.WellFormed schema options
  visited_wellFormed : visited.WellFormed schema options
  plain_focused : plain.focused = none
  visited_focused : visited.focused = some v.id
  plain_settled : schema.Settled none plain.entries
  visited_settled : schema.Settled (some v.id) visited.entries
  sources : ∀ id, schema.IsSource none id →
    Entry.find? visited.entries id = Entry.find? plain.entries id
  held_eq : Entry.find? visited.entries v.id = held

variable {held : Option Entry}

theorem InStep.edit (hreads : schema.ReadsOnlyInputs) (hacyclic : schema.graph.hasCycle = false)
    (hsuffice : options.Suffice schema) (hv : v ∈ schema.definitions)
    (hoverridable : v.isOverridable = true) (h : InStep schema options v held plain visited)
    (hd : d ∈ schema.definitions) (hplain : d.isDerived = false) {next' : Form}
    (hedit : plain.edit d.id input = .ok next) (hedit' : visited.edit d.id input = .ok next') :
    InStep schema options v held next next' := by
  have hne : v.id ≠ d.id := by
    intro heq
    obtain rfl : v = d := Schema.eq_of_id_eq hv hd heq
    rw [FieldDefinition.isDerived_of_isOverridable hoverridable] at hplain
    cases hplain
  refine ⟨h.plain_wellFormed.edit hedit, h.visited_wellFormed.edit hedit', ?_, ?_, ?_, ?_,
    fun id hsource => ?_, ?_⟩
  · rw [h.plain_wellFormed.edit_of_plain hd hplain hedit]
    exact h.plain_focused
  · rw [h.visited_wellFormed.edit_of_plain hd hplain hedit']
    exact h.visited_focused
  · exact h.plain_focused ▸
      settled_edit hreads hacyclic hsuffice h.plain_wellFormed hd hplain hedit
  · exact h.visited_focused ▸
      settled_edit hreads hacyclic hsuffice h.visited_wellFormed hd hplain hedit'
  · rw [find?_edit_of_isSource h.plain_wellFormed hd hplain hedit (hsource.mono _),
      find?_edit_of_isSource h.visited_wellFormed hd hplain hedit' (hsource.mono _),
      h.sources id hsource]
  · have hsource : schema.IsSource visited.focused v.id :=
      h.visited_focused ▸ Schema.isSource_some hv hoverridable
    rw [find?_edit_of_isSource h.visited_wellFormed hd hplain hedit' hsource, if_neg hne,
      h.held_eq]

theorem InStep.entries_eq (hreads : schema.ReadsOnlyInputs)
    (hacyclic : schema.graph.hasCycle = false) (h : InStep schema options v held plain visited)
    (hsame : Entry.find? plain.entries v.id = held) : visited.entries = plain.entries := by
  apply Schema.eq_of_settled hreads hacyclic h.visited_wellFormed.fits h.plain_wellFormed.fits
    h.visited_settled (h.plain_settled.mono _)
  intro id hsource
  rcases Schema.isSource_some_cases hsource with rfl | hsource
  · rw [h.held_eq, hsame]
  · exact h.sources id hsource

theorem InStep.agreeOn (hreads : schema.ReadsOnlyInputs)
    (hacyclic : schema.graph.hasCycle = false) (h : InStep schema options v held plain visited) :
    Entry.AgreeOn (schema.OutOfReach v.id) visited.entries plain.entries := by
  apply Schema.agreeOn_of_settled hreads hacyclic (schema.closed_outOfReach v.id)
    h.visited_wellFormed.fits h.plain_wellFormed.fits _ (fun d hd _ => h.plain_settled.at hd)
    h.sources
  intro d hd hreach
  apply h.visited_settled d hd
  simp [FieldDefinition.isHeld, hreach.1.symm]

theorem InStep.recalculate_eq (hreads : schema.ReadsOnlyInputs)
    (hacyclic : schema.graph.hasCycle = false) (hsuffice : options.Suffice schema)
    (h : InStep schema options v held plain visited) :
    visited.recalculate none visited.entries = plain.entries := by
  have hsettled := h.visited_wellFormed.settled_recalculate hreads hacyclic hsuffice
    h.visited_wellFormed.fits none
  obtain ⟨rfl, rfl, hfits⟩ := h.visited_wellFormed
  apply Schema.eq_of_settled hreads hacyclic (hfits.recalculate _ _ _) h.plain_wellFormed.fits
    hsettled h.plain_settled
  intro id hsource
  exact (Schema.find?_recalculate hsource _ _ _).trans (h.sources id hsource)

theorem InStep.perform (hreads : schema.ReadsOnlyInputs)
    (hacyclic : schema.graph.hasCycle = false) (hsuffice : options.Suffice schema)
    (hv : v ∈ schema.definitions) (hoverridable : v.isOverridable = true) {session visit : Session}
    (h : InStep schema options v held session.form visit.form)
    (hplain : ∀ d ∈ schema.derived, d.id ≠ id) (input : Value) :
    InStep schema options v held (session.perform (.edit id input)).2.form
      (visit.perform (.edit id input)).2.form := by
  rcases perform_edit_cases h.plain_wellFormed id input with
    ⟨hrefused, hsame⟩ | ⟨d, hd, rfl, heditable, hedit⟩
  · rcases perform_edit_cases h.visited_wellFormed id input with
      ⟨-, hsame'⟩ | ⟨d, hd, hid, heditable, -⟩
    · rw [hsame, hsame']
      exact h
    · rw [hrefused d hd hid] at heditable
      cases heditable
  · rcases perform_edit_cases h.visited_wellFormed d.id input with
      ⟨hrefused, -⟩ | ⟨d', hd', hid, -, hedit'⟩
    · rw [hrefused d hd rfl] at heditable
      cases heditable
    · exact h.edit hreads hacyclic hsuffice hv hoverridable hd
        ((Schema.isSource_none.mpr hplain).isDerived_eq_false hd) hedit hedit'

theorem InStep.run (hreads : schema.ReadsOnlyInputs) (hacyclic : schema.graph.hasCycle = false)
    (hsuffice : options.Suffice schema) (hv : v ∈ schema.definitions)
    (hoverridable : v.isOverridable = true) (session visit : Session)
    (h : InStep schema options v held session.form visit.form) {inputs : List (String × Value)}
    (hplain : ∀ i ∈ inputs, ∀ d ∈ schema.derived, d.id ≠ i.1) :
    InStep schema options v held (session.run (Action.edits inputs)).2.form
      (visit.run (Action.edits inputs)).2.form := by
  induction inputs generalizing session visit with
  | nil => exact h
  | cons first rest ih =>
    obtain ⟨hfirst, hrest⟩ := List.forall_mem_cons.mp hplain
    exact ih _ _ (h.perform hreads hacyclic hsuffice hv hoverridable hfirst first.2) hrest

theorem find?_run_edits (hreads : schema.ReadsOnlyInputs)
    (hacyclic : schema.graph.hasCycle = false) (hsuffice : options.Suffice schema)
    (hv : v ∈ schema.derived) (session : Session) (hform : session.form.WellFormed schema options)
    (hfocused : session.form.focused = none) (hsettled : schema.Settled none session.form.entries)
    {inputs : List (String × Value)}
    (hinputs : ∀ i ∈ inputs, (∀ d ∈ schema.derived, d.id ≠ i.1) ∧
      v.id ∉ schema.graph.downstream i.1) :
    Entry.find? (session.run (Action.edits inputs)).2.form.entries v.id =
      Entry.find? session.form.entries v.id := by
  induction inputs generalizing session with
  | nil => rfl
  | cons first rest ih =>
    obtain ⟨id, input⟩ := first
    obtain ⟨⟨hplain, hunrelated⟩, hrest⟩ := List.forall_mem_cons.mp hinputs
    change Entry.find? ((session.perform (.edit id input)).2.run (Action.edits rest)).2.form.entries
      v.id = _
    rcases perform_edit_cases hform id input with ⟨-, hsame⟩ | ⟨d, hd, rfl, -, hedit⟩
    · rw [hsame]
      exact ih session hform hfocused hsettled hrest
    · have hd' := (Schema.isSource_none.mpr hplain).isDerived_eq_false hd
      have hsettled' := settled_edit hreads hacyclic hsuffice hform hd hd' hedit
      have hfocused' : (session.perform (.edit d.id input)).2.form.focused = none := by
        rw [hform.edit_of_plain hd hd' hedit]
        exact hfocused
      rw [hfocused] at hsettled'
      rw [ih _ (hform.edit hedit) hfocused' hsettled' hrest,
        edit_outOfReach hreads hform hd hd' hedit v.id ⟨hplain v hv, hunrelated⟩]
      exact recalculate_upstream hreads hform _ ((hsettled.mono _).on _)

theorem inStep_create (hreads : schema.ReadsOnlyInputs)
    (hacyclic : schema.graph.hasCycle = false) (baseline : Bindings)
    (hsuffice : options.Suffice schema) (hv : v ∈ schema.definitions)
    (hoverridable : v.isOverridable = true) :
    InStep schema options v ( Form.entry? (create schema baseline options) v.id)
      (create schema baseline options) ((create schema baseline options).focus v.id) := by
  set start := create schema baseline options with hstart
  have hform : start.WellFormed schema options := wellFormed_create schema baseline options
  have hsettled : schema.Settled none start.entries :=
    settled_create hreads hacyclic hsuffice baseline
  have hfocused : (start.focus v.id).focused = some v.id := by
    have htakes : schema.isOverridable v.id = true := by
      simp [Schema.isOverridable, Schema.get?_of_mem hv, hoverridable]
    change start.schema.focus start.focused v.id = some v.id
    rw [hform.schema_eq]
    exact if_pos htakes
  exact ⟨hform, ⟨hform.schema_eq, hform.options_eq, hform.fits⟩, rfl, hfocused, hsettled,
    hsettled.mono _, fun _ _ => rfl, (hform.entry?_eq v.id).symm⟩

theorem isAbandoned_iff {entries : List Entry} (hfits : schema.Fits entries)
    (hsettled : schema.Settled none entries) (hv : v ∈ schema.derived) :
    (Entry.find? entries v.id).any Entry.isAbandoned = true ↔
      Entry.find? entries v.id = some (.valid v.id .null) := by
  rw [Schema.find?_of_settledAt hfits (hsettled.at hv) hv]
  cases hcompute : v.compute? (Entry.bindings entries) with
  | none => simp [Entry.isAbandoned, Entry.valid]
  | some w =>
    rcases (FieldDefinition.compute?_eq_some_iff.mp hcompute).isNumber with
      ⟨-, n, rfl⟩ | ⟨x, rfl, -⟩
    · simp [Entry.isAbandoned, Entry.valid, Value.isEmpty]
    · simp [Entry.isAbandoned, Entry.valid, Value.isEmpty]

theorem InStep.entries_blur (hreads : schema.ReadsOnlyInputs)
    (hacyclic : schema.graph.hasCycle = false) (hsuffice : options.Suffice schema)
    (h : InStep schema options v held plain visited)
    (habandoned : held.any Entry.isAbandoned = true ↔ held = some (.valid v.id .null)) :
    (visited.blur v.id).entries =
      if held = some (.valid v.id .null) then plain.entries else visited.entries := by
  rw [blur_eq, if_pos h.visited_focused, h.held_eq]
  by_cases hempty : held = some (.valid v.id .null)
  · rw [if_pos (habandoned.mpr hempty), if_pos hempty]
    exact h.recalculate_eq hreads hacyclic hsuffice
  · rw [if_neg (fun hab => hempty (habandoned.mp hab)), if_neg hempty]
    rfl

/-- The two forms end with the same entries exactly if the visited field was empty, or if the other form
has it as it was when it was turned to. -/
theorem InStep.entries_blur_eq_iff (hreads : schema.ReadsOnlyInputs)
    (hacyclic : schema.graph.hasCycle = false) (hsuffice : options.Suffice schema)
    (h : InStep schema options v held plain visited)
    (habandoned : held.any Entry.isAbandoned = true ↔ held = some (.valid v.id .null)) :
    (visited.blur v.id).entries = plain.entries ↔
      held = some (.valid v.id .null) ∨ Entry.find? plain.entries v.id = held := by
  rw [h.entries_blur hreads hacyclic hsuffice habandoned]
  by_cases hempty : held = some (.valid v.id .null)
  · rw [if_pos hempty]
    exact iff_of_true rfl (Or.inl hempty)
  · rw [if_neg hempty]
    constructor
    · intro hsame
      exact Or.inr (hsame ▸ h.held_eq)
    · intro hcases
      exact h.entries_eq hreads hacyclic (hcases.resolve_left hempty)

theorem InStep.find?_blur (hreads : schema.ReadsOnlyInputs)
    (hacyclic : schema.graph.hasCycle = false) (hsuffice : options.Suffice schema)
    (h : InStep schema options v held plain visited)
    (habandoned : held.any Entry.isAbandoned = true ↔ held = some (.valid v.id .null)) :
    held = some (.valid v.id .null) ∨ Entry.find? (visited.blur v.id).entries v.id = held := by
  rw [h.entries_blur hreads hacyclic hsuffice habandoned]
  by_cases hempty : held = some (.valid v.id .null)
  · exact Or.inl hempty
  · rw [if_neg hempty]
    exact Or.inr h.held_eq

theorem InStep.blur_agreeOn (hreads : schema.ReadsOnlyInputs)
    (hacyclic : schema.graph.hasCycle = false) (hsuffice : options.Suffice schema)
    (h : InStep schema options v held plain visited)
    (habandoned : held.any Entry.isAbandoned = true ↔ held = some (.valid v.id .null)) :
    Entry.AgreeOn (schema.OutOfReach v.id) (visited.blur v.id).entries plain.entries := by
  rw [h.entries_blur hreads hacyclic hsuffice habandoned]
  split
  · exact Entry.AgreeOn.refl _ _
  · exact h.agreeOn hreads hacyclic

theorem run_visit (form : Form) (store : Store) (id : String) (actions : List Action) :
    ((Session.mk form store).run (.focus id :: actions ++ [.blur id])).2.form =
      ((Session.mk (form.focus id) store).run actions).2.form.blur id := by
  change ((Session.mk (form.focus id) store).run (actions ++ [.blur id])).2.form = _
  rw [Session.run_append]
  rfl

/-- Some plain fields of a new form are edited, alone or during a visit to a field that can be
overridden. Both runs end with the same entries exactly if the visited field was empty or the edits
alone leave it with the entry that it had, as they do if it depends on none of the edited fields.
Otherwise the visited field keeps the entry that it had, and no other field differs unless it is
downstream of it. -/
theorem entries_visit (schema : Schema) (hreads : schema.ReadsOnlyInputs)
    (hacyclic : schema.graph.hasCycle = false) (baseline : Bindings) (options : Options)
    (hsuffice : options.Suffice schema) (store : Store) (id : String)
    (hid : schema.isOverridable id = true) (inputs : List (String × Value))
    (hplain : ∀ i ∈ inputs, ∀ d ∈ schema.derived, d.id ≠ i.1) :
    let start := create schema baseline options
    let plain := ((Session.mk start store).run (Action.edits inputs)).2.form
    let visited := ((Session.mk start store).run
      (.focus id :: Action.edits inputs ++ [.blur id])).2.form
    (visited.entries = plain.entries ↔
        start.entry? id = some (.valid id .null) ∨ plain.entry? id = start.entry? id) ∧
      ((∀ i ∈ inputs, id ∉ schema.graph.downstream i.1) → visited.entries = plain.entries) ∧
      (start.entry? id = some (.valid id .null) ∨ visited.entry? id = start.entry? id) ∧
      ∀ d ∈ schema.definitions, d.id ≠ id → d.id ∉ schema.graph.downstream id →
        visited.entry? d.id = plain.entry? d.id := by
  intro start plain visited
  obtain ⟨v, hv, hoverridable⟩ := (Option.any_eq_true _ _).mp hid
  obtain rfl : v.id = id := Schema.id_of_get? hv
  replace hv := Schema.mem_of_get? hv
  have hderived : v ∈ schema.derived :=
    Schema.mem_derived.mpr ⟨hv, FieldDefinition.isDerived_of_isOverridable hoverridable⟩
  have hstart := inStep_create hreads hacyclic baseline hsuffice hv hoverridable
  have hnew : start.WellFormed schema options := hstart.plain_wellFormed
  set typed := ((Session.mk (start.focus v.id) store).run (Action.edits inputs)).2.form
  have h : InStep schema options v (start.entry? v.id) plain typed :=
    InStep.run hreads hacyclic hsuffice hv hoverridable ⟨start, store⟩ ⟨start.focus v.id, store⟩
      hstart hplain
  have hvisited : visited = typed.blur v.id := run_visit start store v.id _
  have hlast : visited.WellFormed schema options := hvisited ▸ h.visited_wellFormed.blur v.id
  have habandoned : (start.entry? v.id).any Entry.isAbandoned = true ↔
      start.entry? v.id = some (.valid v.id .null) := by
    rw [hnew.entry?_eq]
    exact isAbandoned_iff hnew.fits hstart.plain_settled hderived
  have hiff := h.entries_blur_eq_iff hreads hacyclic hsuffice habandoned
  have hkept := h.find?_blur hreads hacyclic hsuffice habandoned
  have hagree := h.blur_agreeOn hreads hacyclic hsuffice habandoned
  rw [← hvisited] at hiff hkept hagree
  simp only [hlast.entry?_eq, h.plain_wellFormed.entry?_eq]
  refine ⟨hiff, fun hunrelated => hiff.mpr (Or.inr ?_), hkept, fun d _ hne hdown =>
    hagree d.id ⟨hne, hdown⟩⟩
  rw [hnew.entry?_eq]
  exact find?_run_edits hreads hacyclic hsuffice hderived ⟨start, store⟩ hnew rfl
    hstart.plain_settled fun i hi => ⟨hplain i hi, hunrelated i hi⟩

theorem entries_visit_quotation :
    let start := create .quotation [] {}
    let inputs := [("note", .text "gift"), ("net", .text "50")]
    let plain := ((Session.mk start .empty).run (Action.edits inputs)).2.form
    let visited := ((Session.mk start .empty).run
      (.focus "gross" :: Action.edits inputs ++ [.blur "gross"])).2.form
    start.entry? "gross" = some (.valid "gross" .null) ∧
      plain.entry? "gross" = some (.valid "gross" (.decimal 60)) ∧
      visited.entries = plain.entries := by
  obtain ⟨hiff, -⟩ := entries_visit .quotation Schema.readsOnlyInputs_quotation (by decide) [] {}
    (Or.inl rfl) .empty "gross" (by decide) [("note", .text "gift"), ("net", .text "50")]
    (by decide)
  have hempty : Form.entry? (create .quotation [] {}) "gross" = some (.valid "gross" .null) := by
    decide +kernel
  exact ⟨hempty, by decide +kernel, hiff.mpr (Or.inl hempty)⟩

/-- A price with tax that was there before keeps its old value when it has been visited during the
edit of the net price. -/
theorem entries_visit_stale_quotation :
    let start := Session.mk (create .quotation [("net", .integer 100)] {}) .empty
    let inputs := [("net", .text "50")]
    let plain := (start.run (Action.edits inputs)).2.form
    let visited := (start.run (.focus "gross" :: Action.edits inputs ++ [.blur "gross"])).2.form
    Schema.quotation.graph.hasCycle = false ∧ Schema.quotation.ReadsOnlyInputs ∧
      Schema.quotation.isOverridable "gross" = true ∧
      (∀ d ∈ Schema.quotation.derived, d.id ≠ "net") ∧
      plain.entry? "gross" = some (.valid "gross" (.decimal 60)) ∧
      visited.entry? "gross" = some (.valid "gross" (.decimal 120)) ∧
      visited.entries ≠ plain.entries := by
  intro start inputs plain visited
  exact ⟨by decide, Schema.readsOnlyInputs_quotation, by decide, by decide, by decide +kernel,
    by decide +kernel, by decide +kernel⟩

end Form

end DerivedForm
