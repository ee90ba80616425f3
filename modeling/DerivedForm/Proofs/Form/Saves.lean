import DerivedForm.Proofs.Form.Reached
import DerivedForm.Proofs.Payload.Members

/-!
# Saves

A save ends in one of four ways. The form refuses it and stays as it is; the store takes it and adds one
update; the store refuses it and the form stops loading; or nobody looks at the answer and the form is
left loading. So the store holds the payloads of the successful saves and no others, a failed save changes
nothing but the mark of a save under way, and that mark is left by an abandoned save alone.
-/

namespace DerivedForm

namespace Session

namespace Step

def stored? (s : Step) : Option (String × Payload) :=
  match s.action, s.outcome with
  | .save identifier, .saved (.ok payload) => some (identifier, payload)
  | _, _ => none

/-- The mark of a save under way that a reset leaves, or a save that reached the store. -/
def loading? (s : Step) : Option Bool :=
  match s.action, s.outcome with
  | .reset, _ => some false
  | .save _, .saved (.ok _) => some false
  | .save _, .saved (.error (.rejected _ _)) => some false
  | .abandonSave, .abandoned (.ok _) => some true
  | _, _ => none

/-- The mark that a save leaves which is not answered with a payload. -/
def failed? (s : Step) : Option Bool :=
  match s.outcome with
  | .saved (.error (.invalidForm _)) => some s.before.form.isLoading
  | .saved (.error (.rejected _ _)) => some false
  | .abandoned (.error _) => some s.before.form.isLoading
  | .abandoned (.ok _) => some true
  | _ => none

def rejection? (s : Step) : Option (Option String) :=
  match s.action with
  | .rejectUpdates message => some (some message)
  | .acceptUpdates => some none
  | _ => none

end Step

/-- How a save ends: the form refuses it if it is invalid, and the store if it has a reason to. -/
def saveAnswer? (session : Session) : Action → Option Outcome
  | .save identifier =>
    if session.form.isValid then
      match session.store.rejection with
      | none => some (.saved (.ok session.form.payload))
      | some message => some (.saved (.error (.rejected identifier message)))
    else some (.saved (.error (.invalidForm session.form.invalidFields)))
  | .abandonSave =>
    if session.form.isValid then some (.abandoned (.ok ()))
    else some (.abandoned (.error (.invalidForm session.form.invalidFields)))
  | _ => none

variable {session : Session} {action : Action}

theorem outcome_of_saveAnswer? {outcome : Outcome} (h : session.saveAnswer? action = some outcome) :
    (session.perform action).1 = outcome := by
  cases action with
  | save identifier =>
    change Outcome.saved (session.save identifier).1 = outcome
    rcases session.save_cases identifier with
      ⟨hvalid, hsave⟩ | ⟨hvalid, ⟨hrejection, hsave⟩ | ⟨message, hrejection, hsave⟩⟩
    · rw [hsave]
      simpa [saveAnswer?, hvalid] using h
    · rw [hsave]
      simpa [saveAnswer?, hvalid, hrejection] using h
    · rw [hsave]
      simpa [saveAnswer?, hvalid, hrejection] using h
  | abandonSave =>
    change Outcome.abandoned session.abandonSave.1 = outcome
    rcases session.abandonSave_cases with ⟨hvalid, hsave⟩ | ⟨hvalid, hsave⟩ <;>
      rw [hsave] <;> simpa [saveAnswer?, hvalid] using h
  | edit | focus | blur | reset | rejectUpdates | acceptUpdates => cases h

theorem isLoading_edit {form next : Form} {id : String} {input : Value}
    (h : form.edit id input = .ok next) : next.isLoading = form.isLoading := by
  simp only [Form.edit] at h
  split at h
  · cases h
  · split at h
    · cases h
    · split at h
      · cases h
      · cases h
        rfl

/-- What a step does to the store, to the mark of a save under way and, if it is a failed save, to the
form. -/
structure Step.Sound (s : Step) : Prop where
  saved : s.after.store.saved = s.before.store.saved ++ s.stored?.toList
  payload : ∀ identifier payload, s.stored? = some (identifier, payload) →
    payload = s.before.form.payload
  loading : s.after.form.isLoading = s.loading?.getD s.before.form.isLoading
  failed : ∀ isLoading, s.failed? = some isLoading → s.after.form = { s.before.form with isLoading }
  rejection : s.after.store.rejection = s.rejection?.getD s.before.store.rejection

theorem Step.Sound.of_unsaved {s : Step} (hstored : s.stored? = none) (hfailed : s.failed? = none)
    (hsaved : s.after.store.saved = s.before.store.saved)
    (hloading : s.after.form.isLoading = s.loading?.getD s.before.form.isLoading)
    (hrejection : s.after.store.rejection = s.rejection?.getD s.before.store.rejection) :
    s.Sound where
  saved := by simp [hstored, hsaved]
  payload := by simp [hstored]
  loading := hloading
  failed := by simp [hfailed]
  rejection := hrejection

theorem Step.Sound.of_failed {s : Step} {isLoading : Bool} (hstored : s.stored? = none)
    (hfailed : s.failed? = some isLoading)
    (hloading : s.loading?.getD s.before.form.isLoading = isLoading)
    (hswitch : s.rejection? = none)
    (hafter : s.after = ⟨{ s.before.form with isLoading }, s.before.store⟩) : s.Sound where
  saved := by simp [hstored, hafter]
  payload := by simp [hstored]
  loading := by rw [hloading, hafter]
  failed := by
    intro other hother
    cases hfailed.symm.trans hother
    rw [hafter]
  rejection := by rw [hafter, hswitch, Option.getD_none]

theorem sound_save (session : Session) (identifier : String) :
    (session.step (.save identifier)).Sound := by
  have hstep : session.step (.save identifier) = ⟨session, .save identifier,
    .saved (session.save identifier).1, (session.save identifier).2⟩ := rfl
  rw [hstep]
  rcases session.save_cases identifier with
    ⟨-, hsave⟩ | ⟨-, ⟨-, hsave⟩ | ⟨message, -, hsave⟩⟩
  · rw [hsave]
    exact .of_failed rfl rfl rfl rfl rfl
  · rw [hsave]
    refine ⟨rfl, ?_, rfl, by simp [Step.failed?], rfl⟩
    rintro _ _ ⟨⟩
    rfl
  · rw [hsave]
    exact .of_failed rfl rfl rfl rfl rfl

theorem sound_abandonSave (session : Session) : (session.step .abandonSave).Sound := by
  have hstep : session.step .abandonSave = ⟨session, .abandonSave,
    .abandoned session.abandonSave.1, session.abandonSave.2⟩ := rfl
  rw [hstep]
  rcases session.abandonSave_cases with ⟨-, hsave⟩ | ⟨-, hsave⟩ <;>
    rw [hsave] <;> exact .of_failed rfl rfl rfl rfl rfl

theorem sound_edit (session : Session) (id : String) (input : Value) :
    (session.step (.edit id input)).Sound := by
  simp only [step, perform, Session.edit]
  cases hresult : session.form.edit id input with
  | error error => exact .of_unsaved rfl rfl rfl rfl rfl
  | ok next => exact .of_unsaved rfl rfl rfl (isLoading_edit hresult) rfl

theorem sound_step (session : Session) (action : Action) : (session.step action).Sound := by
  cases action with
  | edit id input => exact sound_edit session id input
  | focus id => exact .of_unsaved rfl rfl rfl rfl rfl
  | blur id => exact .of_unsaved rfl rfl rfl rfl rfl
  | reset => exact .of_unsaved rfl rfl rfl rfl rfl
  | rejectUpdates message => exact .of_unsaved rfl rfl rfl rfl rfl
  | acceptUpdates => exact .of_unsaved rfl rfl rfl rfl rfl
  | save identifier => exact sound_save session identifier
  | abandonSave => exact sound_abandonSave session

theorem sound_of_mem {actions : List Action} {s : Step} (hs : s ∈ session.steps actions) :
    s.Sound :=
  eq_step_of_mem hs ▸ s.before.sound_step s.action

theorem saved_run (session : Session) (actions : List Action) :
    (session.run actions).2.store.saved =
      session.store.saved ++ (session.steps actions).filterMap Step.stored? := by
  induction actions generalizing session with
  | nil => simp [run, steps]
  | cons action rest ih =>
    have hfirst : (session.perform action).2.store.saved =
        session.store.saved ++ (session.step action).stored?.toList := (session.sound_step action).saved
    change ((session.perform action).2.run rest).2.store.saved = _
    rw [ih, hfirst, List.append_assoc, steps, List.filterMap_cons]
    cases (session.step action).stored? <;> rfl

theorem isLoading_run (session : Session) (actions : List Action) :
    (session.run actions).2.form.isLoading =
      ((session.steps actions).filterMap Step.loading?).getLast?.getD session.form.isLoading :=
  run_last_value (v := fun session => session.form.isLoading) fun _ hs => (sound_of_mem hs).loading

theorem rejection_run (session : Session) (actions : List Action) :
    (session.run actions).2.store.rejection =
      ((session.steps actions).filterMap Step.rejection?).getLast?.getD session.store.rejection :=
  run_last_value (v := fun session => session.store.rejection) fun _ hs =>
    (sound_of_mem hs).rejection

theorem lastSaved?_eq (store : Store) (identifier : String) :
    store.lastSaved? identifier =
      ((store.saved.filter fun update => update.1 == identifier).getLast?).map Prod.snd := by
  rw [List.getLast?_filter]
  rfl

end Session

namespace Form

variable {schema : Schema} {options : Options} {form : Form}

/-- The payload has one member for every field, null exactly where the field is empty. -/
def Sends (schema : Schema) (form : Form) (payload : Payload) : Prop :=
  (payload.map Prod.fst).Perm (schema.definitions.map FieldDefinition.id) ∧
    ∀ d ∈ schema.definitions, ∃ e w, form.entry? d.id = some e ∧ payload.find? d.id = some w ∧
      (w = .null ↔ e.value.isEmpty = true)

theorem WellFormed.sends_payload (h : form.WellFormed schema options) :
    form.Sends schema form.payload := by
  refine ⟨h.keys_payload, fun d hd => ?_⟩
  obtain ⟨e, he, -⟩ := h.fits.exists_find? hd
  have hentry := (h.entry?_eq d.id).trans he
  exact ⟨e, _, hentry, h.find?_payload hd hentry, Value.wire_eq_null_iff d.type e.value⟩

end Form

def Schema.parcel : Schema where
  definitions :=
    [⟨"note", "Note", .text, false, false, none⟩,
      ⟨"boxes", "Boxes", .integer, true, false, none⟩,
      ⟨"weight", "Weight", .integer, false, false,
        some ⟨"\x7bboxes\x7d * 4", ["boxes"], 0, false⟩⟩]
  distinct := by decide

namespace Session

structure SavesAllOrNothing (schema : Schema) (start : Session) (actions : List Action) : Prop where
  trace : (start.steps actions).map (fun s => (s.action, s.outcome)) =
    actions.zip (start.run actions).1
  answered : ∀ s ∈ start.steps actions, ∀ outcome,
    s.before.saveAnswer? s.action = some outcome → s.outcome = outcome
  saved : (start.run actions).2.store.saved = (start.steps actions).filterMap Step.stored?
  payload : ∀ s ∈ start.steps actions, ∀ identifier payload,
    s.stored? = some (identifier, payload) → s.before.form.Sends schema payload
  lastSaved : ∀ identifier, (start.run actions).2.store.lastSaved? identifier =
    ((((start.steps actions).filterMap Step.stored?).filter
      fun update => update.1 == identifier).getLast?).map Prod.snd
  failed : ∀ s ∈ start.steps actions, ∀ isLoading, s.failed? = some isLoading →
    s.after.form = { s.before.form with isLoading }
  loading : (start.run actions).2.form.isLoading =
    ((start.steps actions).filterMap Step.loading?).getLast?.getD false
  rejection : (start.run actions).2.store.rejection =
    ((start.steps actions).filterMap Step.rejection?).getLast?.getD none

/-- Saves are all or nothing, in every run over a new form and an empty store. -/
theorem savesAllOrNothing (schema : Schema) (baseline : Bindings) (options : Options)
    (actions : List Action) :
    SavesAllOrNothing schema (Session.mk (Form.create schema baseline options) .empty) actions := by
  set start := Session.mk (Form.create schema baseline options) .empty
  have hsaved : (start.run actions).2.store.saved = (start.steps actions).filterMap Step.stored? :=
    saved_run start actions
  have hform : start.form.WellFormed schema options :=
    Form.wellFormed_create schema baseline options
  obtain ⟨-, hsteps⟩ := invariant_steps
    (P := fun session => session.form.WellFormed schema options) (A := fun _ => True)
    (fun _ action h _ => h.perform action) hform
    (fun (action : Action) (_ : action ∈ actions) => trivial)
  refine ⟨trace_steps start actions, ?_, hsaved, ?_, ?_, ?_, isLoading_run start actions,
    rejection_run start actions⟩
  · intro s hs outcome hanswer
    rw [eq_step_of_mem hs]
    exact outcome_of_saveAnswer? hanswer
  · intro s hs identifier payload hstored
    rw [(sound_of_mem hs).payload identifier payload hstored]
    exact (hsteps s hs).1.sends_payload
  · intro identifier
    rw [lastSaved?_eq, hsaved]
  · exact fun s hs => (sound_of_mem hs).failed

deriving instance DecidableEq for Outcome

/-- One save is accepted, one is refused for want of boxes, one is rejected and one is abandoned. -/
theorem savesAllOrNothing_parcel :
    let start := Session.mk (Form.create .parcel [("boxes", .integer 3)] {}) .empty
    let actions := [Action.save "first", .edit "boxes" .null, .save "empty", .reset,
      .edit "note" (.text "gift"), .rejectUpdates "closed", .save "second", .acceptUpdates,
      .abandonSave]
    let payload : Payload := [("boxes", .integer 3), ("note", .null), ("weight", .integer 12)]
    (start.run actions).1 = [.saved (.ok payload), .edited (.ok ()),
        .saved (.error (.invalidForm ["boxes"])), .done, .edited (.ok ()), .done,
        .saved (.error (.rejected "second" "closed")), .done, .abandoned (.ok ())] ∧
      (start.run actions).2.store.saved = [("first", payload)] ∧
      (start.run actions).2.form.isLoading = true ∧ SavesAllOrNothing .parcel start actions := by
  intro start actions payload
  exact ⟨by decide +kernel, by decide +kernel, by decide +kernel,
    savesAllOrNothing .parcel [("boxes", .integer 3)] {} actions⟩

end Session

end DerivedForm
