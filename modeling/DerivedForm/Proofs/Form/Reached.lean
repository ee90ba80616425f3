import DerivedForm.Form.Session
import DerivedForm.Proofs.Recalculation.Override

/-!
# Forms that a session reaches

A form that comes out of any sequence of actions still has the schema and the options that it was made
with, and one regular entry for every field in the order of the definitions. So the place of a field
in the schema is the place of its entry, and an edit replaces the one entry of its field before it
recalculates or empties others.
-/

namespace DerivedForm

namespace Schema

theorem Fits.position?_eq {schema : Schema} {entries : List Entry} (h : schema.Fits entries)
    (id : String) : schema.position? id = entries.findIdx? fun e => e.id == id := by
  have hmap := congrArg (List.findIdx? fun other => other == id) h.ids
  rw [List.findIdx?_map, List.findIdx?_map] at hmap
  exact hmap.symm

theorem each_map {schema : Schema} {Q : FieldDefinition → Entry → Prop}
    {f : FieldDefinition → Entry} (hid : ∀ d, (f d).id = d.id) (h : ∀ d, Q d (f d)) :
    schema.Each Q (schema.definitions.map f) := by
  intro d hd e he
  obtain ⟨d', hd', rfl⟩ := List.mem_map.mp (Entry.mem_of_find? he)
  have hsame : d'.id = d.id := (hid d').symm.trans (Entry.id_of_find? he)
  exact eq_of_id_eq hd' hd hsame ▸ h d'

theorem fits_map {schema : Schema} {f : FieldDefinition → Entry}
    (h : ∀ d, Entry.Regular d (f d)) : schema.Fits (schema.definitions.map f) where
  ids := by
    rw [List.map_map]
    exact List.map_congr_left fun d _ => (h d).id_eq
  regular := each_map (fun d => (h d).id_eq) h

end Schema

namespace Form

variable {schema : Schema} {options : Options} {form next : Form} {id : String} {input : Value}
  {d : FieldDefinition}

theorem position?_of_fits (h : form.schema.Fits form.entries) (id : String) :
    form.position? id = form.entries.findIdx? fun e => e.id == id := by
  unfold position?
  rw [h.position?_eq]
  cases hi : form.entries.findIdx? fun e => e.id == id with
  | none => rfl
  | some i =>
    obtain ⟨hlt, hid, -⟩ := List.findIdx?_eq_some_iff_getElem.mp hi
    have hany : (form.entries[i]?.any fun e => e.id == id) = true := by
      rw [List.getElem?_eq_getElem hlt, Option.any_some]
      exact hid
    simp [Option.filter, hany]

theorem entry?_of_fits (h : form.schema.Fits form.entries) (id : String) :
    form.entry? id = Entry.find? form.entries id := by
  unfold entry?
  rw [position?_of_fits h]
  cases hi : form.entries.findIdx? fun e => e.id == id with
  | none =>
    symm
    rw [List.findIdx?_eq_none_iff] at hi
    simpa [Entry.find?, List.find?_eq_none] using hi
  | some i => exact Entry.getElem?_of_findIdx? hi

def entriesAfter (form : Form) (d : FieldDefinition) (input : Value) : List Entry :=
  let typed := Entry.modifyFirst d.id (fun _ => Entry.validate d input) form.entries
  if d.isOverridable then form.schema.override d.id typed
  else form.recalculate form.focused typed

theorem edit_of_fits (h : form.schema.Fits form.entries) (id : String) (input : Value) :
    form.edit id input =
      match form.schema.get? id with
      | none => .error (.unknownField id)
      | some d =>
        if d.isEditable then
          .ok (refreshFlags { form with entries := form.entriesAfter d input })
        else .error (.readOnlyField id) := by
  unfold edit
  cases hd : form.schema.get? id with
  | none => rfl
  | some d =>
    dsimp only
    cases hedit : d.isEditable with
    | false => rfl
    | true =>
      obtain rfl : d.id = id := Schema.id_of_get? hd
      obtain ⟨e, he, -⟩ := h.exists_find? (Schema.mem_of_get? hd)
      have hplace : (form.entries.findIdx? fun e => e.id == d.id).isSome = true := by
        rw [List.findIdx?_isSome, List.any_eq_true]
        exact ⟨e, Entry.mem_of_find? he, beq_iff_eq.mpr (Entry.id_of_find? he)⟩
      obtain ⟨i, hi⟩ := Option.isSome_iff_exists.mp hplace
      rw [position?_of_fits h, hi]
      simp only [Bool.not_true, Bool.false_eq_true, if_false, if_true, editedEntries,
        entriesAfter, Entry.set_of_findIdx? hi]

theorem edit_eq_ok_iff (h : form.schema.Fits form.entries) :
    form.edit id input = .ok next ↔
      ∃ d ∈ form.schema.definitions, d.id = id ∧ d.isEditable = true ∧
        next = refreshFlags { form with entries := form.entriesAfter d input } := by
  rw [edit_of_fits h]
  constructor
  · intro hedit
    split at hedit
    · cases hedit
    · rename_i d hd
      split at hedit
      · rename_i heditable
        cases hedit
        exact ⟨d, Schema.mem_of_get? hd, Schema.id_of_get? hd, heditable, rfl⟩
      · cases hedit
  · rintro ⟨d, hd, rfl, heditable, rfl⟩
    rw [Schema.get?_of_mem hd]
    simp only [heditable, if_true]

theorem entriesAfter_of_plain (hd : d.isDerived = false) (input : Value) :
    form.entriesAfter d input = form.recalculate form.focused
      (Entry.modifyFirst d.id (fun _ => Entry.validate d input) form.entries) := by
  apply if_neg
  intro hoverridable
  rw [FieldDefinition.isDerived_of_isOverridable hoverridable] at hd
  cases hd

theorem recalculate_of_acyclic (horder : form.options.order = .inputsFirst)
    (hacyclic : form.schema.graph.hasCycle = false) (focused : Option String)
    (entries : List Entry) :
    form.recalculate focused entries =
      (form.schema.pass .inputsFirst focused entries).entries := by
  unfold recalculate
  rw [horder, Schema.recalculate_of_hasCycle_eq_false hacyclic]

theorem entriesAfter_fits (h : form.schema.Fits form.entries) (hd : d ∈ form.schema.definitions)
    (input : Value) : form.schema.Fits (form.entriesAfter d input) := by
  have htyped := h.modifyFirst hd (Entry.regular_validate d input)
  simp only [entriesAfter]
  split
  · exact htyped.override d.id
  · exact htyped.recalculate _ _ _

theorem blur_eq (form : Form) (id : String) :
    form.blur id =
      if form.focused = some id then
        if (Entry.find? form.entries id).any Entry.isAbandoned then
          refreshFlags
            { form with focused := none, entries := form.recalculate none form.entries }
        else refreshFlags { form with focused := none }
      else refreshFlags form := by
  unfold blur Schema.blur
  by_cases hfocused : form.focused = some id
  · rw [if_pos hfocused, if_pos hfocused]
    by_cases habandoned : (Entry.find? form.entries id).any Entry.isAbandoned = true
    · rw [if_pos habandoned, if_pos habandoned]
      rfl
    · rw [if_neg habandoned, if_neg habandoned]
  · rw [if_neg hfocused, if_neg hfocused]

theorem beginSave_of_valid (h : form.isValid = true) :
    form.beginSave = .ok (form.payload, { form with isLoading := true }) := if_pos h

theorem beginSave_of_invalid (h : form.isValid = false) :
    form.beginSave = .error (.invalidForm form.invalidFields) :=
  if_neg (Bool.not_eq_true _ ▸ h)

structure WellFormed (schema : Schema) (options : Options) (form : Form) : Prop where
  schema_eq : form.schema = schema
  options_eq : form.options = options
  fits : schema.Fits form.entries

/-- The form comes out of a session with a new form. -/
def Reached (schema : Schema) (options : Options) (form : Form) : Prop :=
  ∃ (baseline : Bindings) (store : Store) (actions : List Action),
    ((Session.mk (create schema baseline options) store).run actions).2.form = form

def baselineEntries (form : Form) : List Entry :=
  form.schema.definitions.map (baselineEntry form.baseline)

theorem fits_baselineEntries (form : Form) : form.schema.Fits form.baselineEntries :=
  Schema.fits_map fun d => Entry.regular_validate d _

end Form

namespace Session

theorem run_induction {P : Session → Prop}
    (hstep : ∀ session action, P session → P (session.perform action).2) (session : Session)
    (h : P session) (actions : List Action) : P (session.run actions).2 := by
  induction actions generalizing session with
  | nil => exact h
  | cons action rest ih => exact ih _ (hstep session action h)

theorem run_append (session : Session) (actions more : List Action) :
    (session.run (actions ++ more)).2 = ((session.run actions).2.run more).2 := by
  rw [run_append_eq]

theorem save_cases (session : Session) (identifier : String) :
    (session.form.isValid = false ∧ session.save identifier =
        (.error (.invalidForm session.form.invalidFields), session)) ∨
      session.form.isValid = true ∧
        ((session.store.rejection = none ∧ session.save identifier =
            (.ok session.form.payload, ⟨session.form.completeSave, { session.store with
              saved := session.store.saved ++ [(identifier, session.form.payload)] }⟩)) ∨
          ∃ message, session.store.rejection = some message ∧ session.save identifier =
            (.error (.rejected identifier message), ⟨session.form.failSave, session.store⟩)) := by
  unfold save
  cases hvalid : session.form.isValid with
  | false =>
    rw [Form.beginSave_of_invalid hvalid]
    exact Or.inl ⟨rfl, rfl⟩
  | true =>
    rw [Form.beginSave_of_valid hvalid]
    right
    dsimp only [Store.update]
    cases session.store.rejection with
    | none => exact ⟨rfl, Or.inl ⟨rfl, rfl⟩⟩
    | some message => exact ⟨rfl, Or.inr ⟨message, rfl, rfl⟩⟩

theorem abandonSave_cases (session : Session) :
    (session.form.isValid = false ∧ session.abandonSave =
        (.error (.invalidForm session.form.invalidFields), session)) ∨
      session.form.isValid = true ∧ session.abandonSave =
        (.ok (), ⟨{ session.form with isLoading := true }, session.store⟩) := by
  unfold abandonSave
  cases hvalid : session.form.isValid with
  | false =>
    rw [Form.beginSave_of_invalid hvalid]
    exact Or.inl ⟨rfl, rfl⟩
  | true =>
    rw [Form.beginSave_of_valid hvalid]
    exact Or.inr ⟨rfl, rfl⟩

theorem save_eq_ok {session saved : Session} {identifier : String} {payload : Payload}
    (h : session.save identifier = (.ok payload, saved)) :
    session.form.isValid = true ∧ saved.form = session.form.completeSave := by
  rcases session.save_cases identifier with
    ⟨-, hanswer⟩ | ⟨hvalid, ⟨-, hanswer⟩ | ⟨message, -, hanswer⟩⟩
  · rw [hanswer] at h
    cases h
  · rw [hanswer] at h
    cases h
    exact ⟨hvalid, rfl⟩
  · rw [hanswer] at h
    cases h

/-- What is true of the form after an action, by what the action does to it and, of a save, by its
answer. -/
theorem perform_cases_of_answer {P : Form → Prop} (session : Session) (action : Action)
    (hsame : P session.form)
    (hedit : ∀ id input next, session.form.edit id input = .ok next → P next)
    (hfocus : ∀ id, P (session.form.focus id)) (hblur : ∀ id, P (session.form.blur id))
    (hreset : P session.form.reset)
    (hloading : ∀ isLoading, P { session.form with isLoading })
    (hsaved : ∀ payload, (session.perform action).1 = .saved (.ok payload) →
      P session.form.completeSave) : P (session.perform action).2.form := by
  cases action with
  | edit id input =>
    change P (session.edit id input).2.form
    unfold edit
    cases hresult : session.form.edit id input with
    | ok next => exact hedit id input next hresult
    | error error => exact hsame
  | focus id => exact hfocus id
  | blur id => exact hblur id
  | reset => exact hreset
  | rejectUpdates message => exact hsame
  | acceptUpdates => exact hsame
  | save identifier =>
    change P (session.save identifier).2.form
    rcases session.save_cases identifier with
      ⟨-, hsave⟩ | ⟨-, ⟨-, hsave⟩ | ⟨message, -, hsave⟩⟩
    · rw [hsave]
      exact hsame
    · have hanswer : (session.perform (.save identifier)).1 = .saved (.ok session.form.payload) := by
        change Outcome.saved (session.save identifier).1 = _
        rw [hsave]
      rw [hsave]
      exact hsaved _ hanswer
    · rw [hsave]
      exact hloading false
  | abandonSave =>
    change P session.abandonSave.2.form
    rcases session.abandonSave_cases with ⟨-, hsave⟩ | ⟨-, hsave⟩
    · rw [hsave]
      exact hsame
    · rw [hsave]
      exact hloading true

theorem perform_cases {P : Form → Prop} (session : Session) (action : Action)
    (hsame : P session.form)
    (hedit : ∀ id input next, session.form.edit id input = .ok next → P next)
    (hfocus : ∀ id, P (session.form.focus id)) (hblur : ∀ id, P (session.form.blur id))
    (hreset : P session.form.reset)
    (hloading : ∀ isLoading, P { session.form with isLoading })
    (hsaved : P session.form.completeSave) : P (session.perform action).2.form :=
  perform_cases_of_answer session action hsame hedit hfocus hblur hreset hloading
    fun _ _ => hsaved

end Session

namespace Form

variable {schema : Schema} {options : Options} {form next : Form} {d : FieldDefinition}

theorem wellFormed_load (hschema : form.schema = schema) (hoptions : form.options = options) :
    form.load.WellFormed schema options := by
  subst hschema hoptions
  exact ⟨rfl, rfl, form.fits_baselineEntries.recalculate _ _ _⟩

theorem wellFormed_create (schema : Schema) (baseline : Bindings) (options : Options) :
    (create schema baseline options).WellFormed schema options :=
  wellFormed_load rfl rfl

theorem WellFormed.entry?_eq (h : form.WellFormed schema options) (id : String) :
    form.entry? id = Entry.find? form.entries id :=
  entry?_of_fits (h.schema_eq ▸ h.fits) id

theorem WellFormed.edit (h : form.WellFormed schema options) {id : String} {input : Value}
    (hedit : form.edit id input = .ok next) : next.WellFormed schema options := by
  obtain ⟨rfl, rfl, hfits⟩ := h
  obtain ⟨d, hd, -, -, rfl⟩ := (edit_eq_ok_iff hfits).mp hedit
  exact ⟨rfl, rfl, entriesAfter_fits hfits hd input⟩

theorem WellFormed.blur (h : form.WellFormed schema options) (id : String) :
    (form.blur id).WellFormed schema options := by
  obtain ⟨rfl, rfl, hfits⟩ := h
  rw [blur_eq]
  split
  · split
    · exact ⟨rfl, rfl, hfits.recalculate _ _ _⟩
    · exact ⟨rfl, rfl, hfits⟩
  · exact ⟨rfl, rfl, hfits⟩

theorem WellFormed.perform {session : Session} (h : session.form.WellFormed schema options)
    (action : Action) : (session.perform action).2.form.WellFormed schema options := by
  apply Session.perform_cases session action h
  · exact fun id input next hedit => h.edit hedit
  · exact fun id => ⟨h.schema_eq, h.options_eq, h.fits⟩
  · exact fun id => h.blur id
  · exact wellFormed_load h.schema_eq h.options_eq
  · exact fun isLoading => ⟨h.schema_eq, h.options_eq, h.fits⟩
  · exact ⟨h.schema_eq, h.options_eq, h.fits⟩

theorem wellFormed_run (schema : Schema) (baseline : Bindings) (options : Options) (store : Store)
    (actions : List Action) :
    ((Session.mk (create schema baseline options) store).run actions).2.form.WellFormed
      schema options :=
  Session.run_induction (P := fun session => session.form.WellFormed schema options)
    (fun _ action h => h.perform action) _ (wellFormed_create schema baseline options) actions

theorem isEditable_of_edit (hform : form.WellFormed schema options) (hd : d ∈ schema.definitions)
    {input : Value} (hedit : form.edit d.id input = .ok next) : d.isEditable = true := by
  obtain ⟨rfl, rfl, hfits⟩ := hform
  obtain ⟨d', hd', hid, heditable, -⟩ := (edit_eq_ok_iff hfits).mp hedit
  exact Schema.eq_of_id_eq hd' hd hid ▸ heditable

theorem exists_edit (hform : form.WellFormed schema options) (hd : d ∈ schema.definitions)
    (heditable : d.isEditable = true) (input : Value) : ∃ next, form.edit d.id input = .ok next := by
  obtain ⟨rfl, rfl, hfits⟩ := hform
  exact ⟨_, (edit_eq_ok_iff hfits).mpr ⟨d, hd, rfl, heditable, rfl⟩⟩

theorem perform_edit_cases {session : Session} (h : session.form.WellFormed schema options)
    (id : String) (input : Value) :
    ((∀ d ∈ schema.definitions, d.id = id → d.isEditable = false) ∧
        (session.perform (.edit id input)).2 = session) ∨
      ∃ d ∈ schema.definitions, d.id = id ∧ d.isEditable = true ∧
        session.form.edit id input = .ok (session.perform (.edit id input)).2.form := by
  obtain ⟨rfl, rfl, hfits⟩ := h
  change (_ ∧ (session.edit id input).2 = session) ∨
    ∃ d ∈ _, _ ∧ _ ∧ _ = Except.ok (session.edit id input).2.form
  unfold Session.edit
  cases hresult : session.form.edit id input with
  | error error =>
    left
    refine ⟨fun d hd hid => ?_, rfl⟩
    rw [← Bool.not_eq_true]
    intro heditable
    have hok : session.form.edit id input = .ok (refreshFlags
        { session.form with entries := session.form.entriesAfter d input }) :=
      (edit_eq_ok_iff hfits).mpr ⟨d, hd, hid, heditable, rfl⟩
    rw [hresult] at hok
    cases hok
  | ok next =>
    right
    obtain ⟨d, hd, hid, heditable, -⟩ := (edit_eq_ok_iff hfits).mp hresult
    exact ⟨d, hd, hid, heditable, rfl⟩

theorem WellFormed.edit_of_plain (h : form.WellFormed schema options)
    (hd : d ∈ schema.definitions) (hplain : d.isDerived = false) {input : Value}
    (hedit : form.edit d.id input = .ok next) :
    next = refreshFlags { form with
      entries := form.recalculate form.focused
        (Entry.modifyFirst d.id (fun _ => Entry.validate d input) form.entries) } := by
  obtain ⟨rfl, rfl, hfits⟩ := h
  obtain ⟨d', hd', hid, -, rfl⟩ := (edit_eq_ok_iff hfits).mp hedit
  obtain rfl : d' = d := Schema.eq_of_id_eq hd' hd hid
  rw [entriesAfter_of_plain hplain]

theorem Reached.wellFormed (h : form.Reached schema options) : form.WellFormed schema options := by
  obtain ⟨baseline, store, actions, rfl⟩ := h
  exact wellFormed_run schema baseline options store actions

end Form

/-!
## Steps of a run

A run is a list of steps, each with its action, its answer and the sessions before and after it. What the
steps of a run leave behind is often the mark of the last step that leaves one.
-/

namespace Session

structure Step where
  before : Session
  action : Action
  outcome : Outcome
  after : Session

def step (session : Session) (action : Action) : Step :=
  ⟨session, action, (session.perform action).1, (session.perform action).2⟩

def steps (session : Session) : List Action → List Step
  | [] => []
  | action :: rest => session.step action :: (session.perform action).2.steps rest

variable {session : Session} {actions : List Action}

theorem trace_steps (session : Session) (actions : List Action) :
    (session.steps actions).map (fun s => (s.action, s.outcome)) =
      actions.zip (session.run actions).1 := by
  induction actions generalizing session with
  | nil => rfl
  | cons action rest ih =>
    simp only [steps, run, List.map_cons, List.zip_cons_cons, ih]
    rfl

theorem eq_step_of_mem {s : Step} (hs : s ∈ session.steps actions) :
    s = s.before.step s.action := by
  induction actions generalizing session with
  | nil => cases hs
  | cons action rest ih =>
    rcases List.mem_cons.mp hs with rfl | hrest
    · rfl
    · exact ih hrest

theorem invariant_steps {P : Session → Prop} {A : Action → Prop}
    (hstep : ∀ session action, P session → A action → P (session.perform action).2)
    (h : P session) (hactions : ∀ action ∈ actions, A action) :
    P (session.run actions).2 ∧ ∀ s ∈ session.steps actions, P s.before ∧ A s.action := by
  induction actions generalizing session with
  | nil => exact ⟨h, fun s hs => by cases hs⟩
  | cons action rest ih =>
    obtain ⟨hfirst, hrest⟩ := List.forall_mem_cons.mp hactions
    obtain ⟨hlast, hsteps⟩ := ih (hstep session action h hfirst) hrest
    exact ⟨hlast, List.forall_mem_cons.mpr ⟨⟨h, hfirst⟩, hsteps⟩⟩

/-- If `v` changes only where a step leaves a mark `m`, and then to what the mark says, then the last mark
of a run says what `v` is at its end. -/
theorem run_last_mark {α β : Type} {v : Session → β} {m : Step → Option α} {f : α → β}
    (h : ∀ s ∈ session.steps actions, v s.after = ((m s).map f).getD (v s.before)) :
    v (session.run actions).2 =
      ((((session.steps actions).filterMap m).getLast?).map f).getD (v session) := by
  induction actions generalizing session with
  | nil => rfl
  | cons action rest ih =>
    obtain ⟨hfirst, hrest⟩ := List.forall_mem_cons.mp h
    have hvalue : v (session.perform action).2 =
        ((m (session.step action)).map f).getD (v session) := hfirst
    -- the mark of the first action counts only if no later one leaves a mark
    refine (ih hrest).trans ?_
    rw [hvalue, steps, List.filterMap_cons]
    cases m (session.step action) with
    | none => rfl
    | some a =>
      rw [List.getLast?_cons]
      cases List.getLast? _ <;> rfl

theorem run_last_value {β : Type} {v : Session → β} {m : Step → Option β}
    (h : ∀ s ∈ session.steps actions, v s.after = (m s).getD (v s.before)) :
    v (session.run actions).2 = (((session.steps actions).filterMap m).getLast?).getD (v session) := by
  have hrun := run_last_mark (f := id) fun s hs => (h s hs).trans (by rw [Option.map_id]; rfl)
  rwa [Option.map_id] at hrun

end Session

end DerivedForm
