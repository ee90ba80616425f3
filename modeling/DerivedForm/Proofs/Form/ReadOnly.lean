import DerivedForm.Proofs.Dependency.Downstream
import DerivedForm.Proofs.Form.Baseline
import DerivedForm.Proofs.Form.Reached

/-!
# Read-only fields

A plain field that is read-only holds what its form was built with, whatever is typed elsewhere,
with one exception: an accepted override empties the declared inputs of its field, the read-only
ones among them. A reset takes this back, unless the emptied field has been saved in between.
-/

namespace DerivedForm

namespace Session

def Reached (schema : Schema) (options : Options) (session : Session) : Prop :=
  ∃ (baseline : Bindings) (store : Store) (actions : List Action),
    ((Session.mk (Form.create schema baseline options) store).run actions).2 = session

def Step.Overrides (schema : Schema) (id : String) (s : Step) : Prop :=
  ∃ v ∈ schema.definitions, v.isOverridable = true ∧ id ∈ v.inputs ∧
    ∃ input, s.action = .edit v.id input ∧ s.outcome = .edited (.ok ())

/-- A reset comes before the next successful save. -/
def TakenBack (steps : List Step) : Prop :=
  ∃ before s after, steps = before ++ s :: after ∧ s.action = .reset ∧
    ∀ t ∈ before, t.outcome.isSaved = false

def Lost (schema : Schema) (id : String) (steps : List Step) : Prop :=
  ∃ before s after, steps = before ++ s :: after ∧ s.Overrides schema id ∧ ¬ TakenBack after

variable {schema : Schema} {options : Options} {session : Session} {action : Action} {id : String}
  {s : Step} {rest : List Step}

theorem Reached.form (h : session.Reached schema options) :
    session.form.Reached schema options := by
  obtain ⟨baseline, store, actions, rfl⟩ := h
  exact ⟨baseline, store, actions, rfl⟩

theorem Reached.perform (h : session.Reached schema options) (action : Action) :
    (session.perform action).2.Reached schema options := by
  obtain ⟨baseline, store, actions, rfl⟩ := h
  exact ⟨baseline, store, actions ++ [action], run_append _ actions [action]⟩

theorem not_takenBack_nil : ¬ TakenBack [] := by
  rintro ⟨before, s, after, hsplit, -⟩
  simp at hsplit

theorem takenBack_cons :
    TakenBack (s :: rest) ↔ s.action = .reset ∨ s.outcome.isSaved = false ∧ TakenBack rest := by
  constructor
  · rintro ⟨before, t, after, hsplit, hreset, hunsaved⟩
    cases before with
    | nil =>
      obtain ⟨rfl, rfl⟩ := List.cons.inj hsplit
      exact Or.inl hreset
    | cons first others =>
      obtain ⟨rfl, rfl⟩ := List.cons.inj hsplit
      obtain ⟨hfirst, hothers⟩ := List.forall_mem_cons.mp hunsaved
      exact Or.inr ⟨hfirst, others, t, after, rfl, hreset, hothers⟩
  · rintro (hreset | ⟨hfirst, before, t, after, rfl, hreset, hunsaved⟩)
    · exact ⟨[], s, rest, rfl, hreset, by simp⟩
    · exact ⟨s :: before, t, after, rfl, hreset, List.forall_mem_cons.mpr ⟨hfirst, hunsaved⟩⟩

theorem not_lost_nil : ¬ Lost schema id [] := by
  rintro ⟨before, s, after, hsplit, -⟩
  simp at hsplit

theorem lost_cons :
    Lost schema id (s :: rest) ↔
      s.Overrides schema id ∧ ¬ TakenBack rest ∨ Lost schema id rest := by
  constructor
  · rintro ⟨before, t, after, hsplit, hoverrides, hkept⟩
    cases before with
    | nil =>
      obtain ⟨rfl, rfl⟩ := List.cons.inj hsplit
      exact Or.inl ⟨hoverrides, hkept⟩
    | cons first others =>
      obtain ⟨rfl, rfl⟩ := List.cons.inj hsplit
      exact Or.inr ⟨others, t, after, rfl, hoverrides, hkept⟩
  · rintro (⟨hoverrides, hkept⟩ | ⟨before, t, after, rfl, hoverrides, hkept⟩)
    · exact ⟨[], s, rest, rfl, hoverrides, hkept⟩
    · exact ⟨s :: before, t, after, rfl, hoverrides, hkept⟩

theorem not_lost_of_reset {steps : List Step} (hunsaved : ∀ t ∈ steps, t.outcome.isSaved = false)
    (hreset : s.action = .reset) : ¬ Lost schema id (steps ++ [s]) := by
  induction steps with
  | nil =>
    rw [List.nil_append, lost_cons]
    rintro (⟨⟨v, -, -, -, input, haction, -⟩, -⟩ | hlost)
    · rw [hreset] at haction
      cases haction
    · exact not_lost_nil hlost
  | cons first others ih =>
    obtain ⟨-, hothers⟩ := List.forall_mem_cons.mp hunsaved
    rw [List.cons_append, lost_cons]
    rintro (⟨-, hkept⟩ | hlost)
    · exact hkept ⟨others, s, [], rfl, hreset, hothers⟩
    · exact ih hothers hlost

end Session

namespace Form

variable {schema : Schema} {options : Options} {form : Form} {d v : FieldDefinition} {e k : Entry}

/-- The field has the entry `e`, and a reset gives it the entry `k`. -/
structure Shows (d : FieldDefinition) (e k : Entry) (form : Form) : Prop where
  entry : Entry.find? form.entries d.id = some e
  kept : baselineEntry form.baseline d = k

theorem find?_recalculate_of_plain (hform : form.WellFormed schema options)
    (hd : d ∈ schema.definitions) (hplain : d.isDerived = false) (focused : Option String)
    (entries : List Entry) :
    Entry.find? (form.recalculate focused entries) d.id = Entry.find? entries d.id := by
  obtain ⟨rfl, rfl, -⟩ := hform
  exact Schema.find?_recalculate (Schema.isSource_of_plain hd hplain focused) _ _ _

theorem Shows.load (h : form.Shows d e k) (hform : form.WellFormed schema options)
    (hd : d ∈ schema.definitions) (hplain : d.isDerived = false) : form.load.Shows d k k :=
  ⟨(hform.find?_load hd hplain).trans (congrArg some h.kept), h.kept⟩

theorem Shows.blur (h : form.Shows d e k) (hform : form.WellFormed schema options)
    (hd : d ∈ schema.definitions) (hplain : d.isDerived = false) (id : String) :
    (form.blur id).Shows d e k := by
  refine ⟨?_, h.kept⟩
  rw [blur_eq]
  split
  · split
    · exact (find?_recalculate_of_plain hform hd hplain _ _).trans h.entry
    · exact h.entry
  · exact h.entry

theorem Shows.completeSave (h : form.Shows d e k) (hreached : form.Reached schema options)
    (hvalid : form.isValid = true) (hd : d ∈ schema.definitions) (hplain : d.isDerived = false) :
    form.completeSave.Shows d e e :=
  ⟨h.entry, (hreached.savable hvalid).baselineEntry_eq rfl hd hplain h.entry⟩

theorem Shows.entriesAfter (h : form.Shows d e k) (hform : form.WellFormed schema options)
    (hd : d ∈ schema.definitions) (hplain : d.isDerived = false) (hv : v ∈ schema.definitions)
    (hne : d.id ≠ v.id) (input : Value) :
    (v.isOverridable = true → d.id ∈ v.inputs →
      Entry.find? (form.entriesAfter v input) d.id = some (Entry.validate d .null)) ∧
    (¬ (v.isOverridable = true ∧ d.id ∈ v.inputs) →
      Entry.find? (form.entriesAfter v input) d.id = some e) := by
  have htyped : Entry.find?
      (Entry.modifyFirst v.id (fun _ => Entry.validate v input) form.entries) d.id = some e := by
    rw [Entry.find?_modifyFirst_of_ne (fun _ => Entry.validate_id v input) hne, h.entry]
  simp only [Form.entriesAfter]
  cases hoverridable : v.isOverridable with
  | false =>
    refine ⟨fun h => (Bool.false_ne_true h).elim, fun _ => ?_⟩
    exact (find?_recalculate_of_plain hform hd hplain _ _).trans htyped
  | true =>
    obtain ⟨rfl, rfl, -⟩ := hform
    have hcleared := Schema.mem_clearedBy_of_plain hv hoverridable hd hplain
    simp only [if_true, true_and]
    refine ⟨fun _ hinput => ?_, fun hinput => ?_⟩
    · rw [Schema.find?_override_of_mem hd (hcleared.mpr hinput), htyped, Option.map_some,
        Entry.validate_of_isEmpty d Value.isEmpty_null]
    · rw [Schema.find?_override_of_notMem (hcleared.not.mpr hinput), htyped]

end Form

namespace Session

variable {schema : Schema} {options : Options} {session : Session} {action : Action}
  {d : FieldDefinition} {e k : Entry}

inductive Moves (schema : Schema) (d : FieldDefinition) (e k : Entry) (s : Step) : Prop
  | emptied (overrides : s.Overrides schema d.id) (reset : s.action ≠ .reset)
      (saved : s.outcome.isSaved = false) (shows : s.after.form.Shows d (Entry.validate d .null) k)
  | restored (overrides : ¬ s.Overrides schema d.id) (reset : s.action = .reset)
      (shows : s.after.form.Shows d k k)
  | saved (overrides : ¬ s.Overrides schema d.id) (reset : s.action ≠ .reset)
      (saved : s.outcome.isSaved = true) (shows : s.after.form.Shows d e e)
  | kept (overrides : ¬ s.Overrides schema d.id) (reset : s.action ≠ .reset)
      (saved : s.outcome.isSaved = false) (shows : s.after.form.Shows d e k)

theorem Step.not_overrides {s : Step} {id : String}
    (h : ∀ other input, s.action ≠ .edit other input) : ¬ s.Overrides schema id := by
  rintro ⟨v, -, -, -, input, haction, -⟩
  exact h _ _ haction

theorem moves_edit (hform : session.form.WellFormed schema options) (hd : d ∈ schema.definitions)
    (hreadOnly : d.readOnly = true) (hplain : d.isDerived = false) (h : session.form.Shows d e k)
    (id : String) (input : Value) : Moves schema d e k (session.step (.edit id input)) := by
  simp only [step, perform, Session.edit]
  cases hresult : session.form.edit id input with
  | error error =>
    refine .kept ?_ (by simp) rfl h
    rintro ⟨v, -, -, -, value, -, hanswer⟩
    cases hanswer
  | ok next =>
    have hfits := hform.schema_eq ▸ hform.fits
    obtain ⟨v, hv, rfl, heditable, rfl⟩ := (Form.edit_eq_ok_iff hfits).mp hresult
    rw [hform.schema_eq] at hv
    have hne : d.id ≠ v.id := by
      intro heq
      obtain rfl : d = v := Schema.eq_of_id_eq hd hv heq
      simp [FieldDefinition.isEditable, hreadOnly] at heditable
    -- what is typed goes to another field, so only an override of a reader can empty this one
    obtain ⟨hemptied, hleft⟩ := h.entriesAfter hform hd hplain hv hne input
    by_cases hreads : v.isOverridable = true ∧ d.id ∈ v.inputs
    · obtain ⟨hoverridable, hinput⟩ := hreads
      exact .emptied ⟨v, hv, hoverridable, hinput, input, rfl, rfl⟩ (by simp) rfl
        ⟨hemptied hoverridable hinput, h.kept⟩
    · refine .kept ?_ (by simp) rfl ⟨hleft hreads, h.kept⟩
      rintro ⟨w, hw, hoverridable, hinput, value, haction, -⟩
      obtain rfl : v = w := Schema.eq_of_id_eq hv hw (Action.edit.inj haction).1
      exact hreads ⟨hoverridable, hinput⟩

theorem moves_save (hreached : session.Reached schema options) (hd : d ∈ schema.definitions)
    (hplain : d.isDerived = false) (h : session.form.Shows d e k) (identifier : String) :
    Moves schema d e k (session.step (.save identifier)) := by
  have hnot : ¬ (session.step (.save identifier)).Overrides schema d.id :=
    Step.not_overrides (by simp [step])
  simp only [step, perform] at hnot ⊢
  rcases session.save_cases identifier with
    ⟨-, hsave⟩ | ⟨hvalid, ⟨-, hsave⟩ | ⟨message, -, hsave⟩⟩
  all_goals rw [hsave] at hnot ⊢
  · exact .kept hnot (by simp) rfl h
  · exact .saved hnot (by simp) rfl (h.completeSave hreached.form hvalid hd hplain)
  · exact .kept hnot (by simp) rfl ⟨h.entry, h.kept⟩

theorem shows_abandonSave (h : session.form.Shows d e k) :
    session.abandonSave.2.form.Shows d e k := by
  rcases session.abandonSave_cases with ⟨-, hsave⟩ | ⟨-, hsave⟩
  · rw [hsave]
    exact h
  · rw [hsave]
    exact ⟨h.entry, h.kept⟩

theorem moves_step (hreached : session.Reached schema options) (hd : d ∈ schema.definitions)
    (hreadOnly : d.readOnly = true) (hplain : d.isDerived = false) (h : session.form.Shows d e k)
    (action : Action) : Moves schema d e k (session.step action) := by
  have hform := hreached.form.wellFormed
  cases action with
  | edit id input => exact moves_edit hform hd hreadOnly hplain h id input
  | save identifier => exact moves_save hreached hd hplain h identifier
  | reset =>
    exact .restored (Step.not_overrides (by simp [step])) rfl (h.load hform hd hplain)
  | blur id =>
    exact .kept (Step.not_overrides (by simp [step])) (by simp [step]) rfl
      (h.blur hform hd hplain id)
  | focus id =>
    exact .kept (Step.not_overrides (by simp [step])) (by simp [step]) rfl ⟨h.entry, h.kept⟩
  | rejectUpdates message =>
    exact .kept (Step.not_overrides (by simp [step])) (by simp [step]) rfl h
  | acceptUpdates =>
    exact .kept (Step.not_overrides (by simp [step])) (by simp [step]) rfl h
  | abandonSave =>
    exact .kept (Step.not_overrides (by simp [step])) (by simp [step]) rfl (shows_abandonSave h)

/-- After a run the field is empty if an override of a reader was not taken back. Otherwise it has
what a reset gives, if there is one before the first successful save, or else what it had. -/
theorem shows_run (hreached : session.Reached schema options) (hd : d ∈ schema.definitions)
    (hreadOnly : d.readOnly = true) (hplain : d.isDerived = false) (h : session.form.Shows d e k)
    (actions : List Action) :
    let steps := session.steps actions
    let found := Entry.find? (session.run actions).2.form.entries d.id
    (Lost schema d.id steps → found = some (Entry.validate d .null)) ∧
      (¬ Lost schema d.id steps → TakenBack steps → found = some k) ∧
      (¬ Lost schema d.id steps → ¬ TakenBack steps → found = some e) := by
  induction actions generalizing session e k with
  | nil =>
    exact ⟨fun hlost => (not_lost_nil hlost).elim, fun _ hback => (not_takenBack_nil hback).elim,
      fun _ _ => h.entry⟩
  | cons action rest ih =>
    have hnext := hreached.perform action
    have hrun : (session.run (action :: rest)).2 = ((session.perform action).2.run rest).2 := rfl
    have haction : (session.step action).action = action := rfl
    simp only [steps, hrun, lost_cons, takenBack_cons, haction]
    -- a step that overrides, resets or saves decides what the rest of the run starts from
    rcases moves_step hreached hd hreadOnly hplain h action with
      ⟨hoverrides, hreset, hsaved, hshows⟩ | ⟨hoverrides, hreset, hshows⟩ |
      ⟨hoverrides, hreset, hsaved, hshows⟩ | ⟨hoverrides, hreset, hsaved, hshows⟩
    all_goals
      rw [haction] at hreset
      obtain ⟨hlost, hback, hkept⟩ := ih hnext hshows
      grind

/-- A read-only plain field always has the entry that the form was built with, except that after an
accepted override of a field that declares it among its inputs it is empty, until a reset takes the
override back. -/
theorem readOnly_run (schema : Schema) (baseline : Bindings) (options : Options) (store : Store)
    (actions : List Action) {d : FieldDefinition} (hd : d ∈ schema.definitions)
    (hreadOnly : d.readOnly = true) (hplain : d.isDerived = false) :
    let start := Session.mk (Form.create schema baseline options) store
    let last := (start.run actions).2.form
    ∃ given, start.form.entry? d.id = some given ∧
      (Lost schema d.id (start.steps actions) →
        last.entry? d.id = some (Entry.validate d .null)) ∧
      (¬ Lost schema d.id (start.steps actions) → last.entry? d.id = some given) := by
  intro start last
  have hstart : start.Reached schema options := ⟨baseline, store, [], rfl⟩
  have hlast : last.WellFormed schema options :=
    Form.wellFormed_run schema baseline options store actions
  have hform := hstart.form.wellFormed
  have hgiven : Entry.find? start.form.entries d.id = some (Form.baselineEntry baseline d) :=
    hform.find?_load hd hplain
  obtain ⟨hlost, hback, hkept⟩ := shows_run hstart hd hreadOnly hplain ⟨hgiven, rfl⟩ actions
  refine ⟨_, (hform.entry?_eq d.id).trans hgiven, fun h => ?_, fun h => ?_⟩
  · exact (hlast.entry?_eq d.id).trans (hlost h)
  · by_cases htaken : TakenBack (start.steps actions)
    · exact (hlast.entry?_eq d.id).trans (hback h htaken)
    · exact (hlast.entry?_eq d.id).trans (hkept h htaken)

end Session

namespace Schema

def contract : Schema where
  definitions :=
    [⟨"price", "Agreed price", .decimal, false, true, none⟩,
      ⟨"total", "Total", .decimal, false, false,
        some ⟨"\x7bprice\x7d * 2", ["price"], 2, true⟩⟩]
  distinct := by decide

end Schema

namespace Session

theorem readOnly_run_contract :
    let start := Session.mk (Form.create .contract [("price", .integer 100)] {}) .empty
    let actions := [Action.edit "price" (.integer 7), .edit "total" (.integer 300),
      .rejectUpdates "full", .save "a", .reset]
    let last := (start.run actions).2.form
    Schema.contract.definitions[0].readOnly = true ∧
      Schema.contract.definitions[0].isDerived = false ∧
      start.form.entry? "price" = some (.valid "price" (.decimal 100)) ∧
      last.entry? "price" = some (.valid "price" (.decimal 100)) := by
  intro start actions last
  have hstart : start.form.entry? "price" = some (.valid "price" (.decimal 100)) := by
    decide +kernel
  obtain ⟨given, hgiven, -, hkept⟩ := readOnly_run .contract [("price", .integer 100)] {} .empty
    actions (d := Schema.contract.definitions[0]) (List.getElem_mem _) rfl rfl
  have hunsaved : ∀ s ∈ start.steps (actions.take 4), s.outcome.isSaved = false := by
    decide +kernel
  have hback := hkept (not_lost_of_reset (s := (start.run (actions.take 4)).2.step .reset) hunsaved
    rfl)
  exact ⟨rfl, rfl, hstart, hback.trans (hgiven.symm.trans hstart)⟩

/-- An override of the total empties the price, although the price is read-only. -/
theorem readOnly_emptied_contract :
    let start := Session.mk (Form.create .contract [("price", .integer 100)] {}) .empty
    let last := (start.run [.edit "total" (.integer 300)]).2.form
    Schema.contract.definitions[0].readOnly = true ∧
      Schema.contract.definitions[0].isDerived = false ∧
      last.Reached .contract {} ∧
      start.form.entry? "price" = some (.valid "price" (.decimal 100)) ∧
      last.entry? "price" = some (Entry.validate Schema.contract.definitions[0] .null) ∧
      last.entry? "price" ≠ start.form.entry? "price" := by
  refine ⟨rfl, rfl, ⟨_, _, _, rfl⟩, ?_, ?_, ?_⟩ <;> decide +kernel

end Session

end DerivedForm
