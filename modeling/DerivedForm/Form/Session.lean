import DerivedForm.Payload.Basic
import DerivedForm.Form.State

/-!
# Sessions

A session is a form together with the store that its payloads go to: a list of all accepted updates. A
store may be told to refuse updates until further notice.
-/

namespace DerivedForm

/-- The accepted updates, oldest first, and the reason why updates are refused at present, if they
are. -/
structure Store where
  saved : List (String × Payload)
  rejection : Option String

namespace Store

def empty : Store := ⟨[], none⟩

def reject (store : Store) (message : String) : Store := { store with rejection := some message }

def accept (store : Store) : Store := { store with rejection := none }

def update (store : Store) (identifier : String) (payload : Payload) : Except String Store :=
  match store.rejection with
  | some message => .error message
  | none => .ok { store with saved := store.saved ++ [(identifier, payload)] }

def lastSaved? (store : Store) (identifier : String) : Option Payload :=
  (store.saved.reverse.find? fun (id, _) => id == identifier).map Prod.snd

end Store

/-!
## Saving

A save has two halves. The first refuses an invalid form, or hands out the payload and marks the form as
loading; the second takes the answer of the store. If the second half never comes, the form stays
marked. A successful save makes the saved values the new baseline.
-/

inductive SaveError where
  | invalidForm (ids : List String)
  | rejected (identifier message : String)
  deriving DecidableEq

def SaveError.message : SaveError → String
  | .invalidForm ids =>
    let names := ", ".intercalate ids
    s!"The form has invalid fields: {names}"
  | .rejected identifier message => s!"The update for '{identifier}' was rejected: {message}"

namespace Form

def payload (form : Form) : Payload := Payload.ofEntries form.schema form.entries

def beginSave (form : Form) : Except SaveError (Payload × Form) :=
  if form.isValid then .ok (form.payload, { form with isLoading := true })
  else .error (.invalidForm form.invalidFields)

def completeSave (form : Form) : Form :=
  { takeSnapshot form with
    isLoading := false
    hasChanges := false
    baseline := Bindings.ofList (form.entries.map fun entry => (entry.id, entry.value)) }

def failSave (form : Form) : Form := { form with isLoading := false }

end Form

structure Session where
  form : Form
  store : Store

namespace Session

def save (session : Session) (identifier : String) : Except SaveError Payload × Session :=
  match session.form.beginSave with
  | .error error => (.error error, session)
  | .ok (payload, form) =>
    match session.store.update identifier payload with
    | .ok store => (.ok payload, ⟨form.completeSave, store⟩)
    | .error message => (.error (.rejected identifier message), ⟨form.failSave, session.store⟩)

/-- Begins to save the form and never looks at the answer. -/
def abandonSave (session : Session) : Except SaveError Unit × Session :=
  match session.form.beginSave with
  | .error error => (.error error, session)
  | .ok (_, form) => (.ok (), { session with form })

end Session

/-!
## Actions

What can happen in a session, one thing after the other. Every action is answered, and an action that
is refused leaves the session as it was, except that a save which the store refuses ends the loading.
-/

inductive Action where
  | edit (id : String) (input : Value)
  | focus (id : String)
  | blur (id : String)
  | reset
  | rejectUpdates (message : String)
  | acceptUpdates
  | save (identifier : String)
  | abandonSave

inductive Outcome where
  | done
  | edited (result : Except EditError Unit)
  | focused (taken : Bool)
  | saved (result : Except SaveError Payload)
  | abandoned (result : Except SaveError Unit)

namespace Session

def withForm (session : Session) (form : Form) : Session := { session with form }

def edit (session : Session) (id : String) (input : Value) : Except EditError Unit × Session :=
  match session.form.edit id input with
  | .ok form => (.ok (), session.withForm form)
  | .error error => (.error error, session)

def perform (session : Session) : Action → Outcome × Session
  | .edit id input =>
    let (result, next) := session.edit id input
    (.edited result, next)
  | .focus id =>
    (.focused (session.form.takesFocus id), session.withForm (session.form.focus id))
  | .blur id => (.done, session.withForm (session.form.blur id))
  | .reset => (.done, session.withForm session.form.reset)
  | .rejectUpdates message => (.done, { session with store := session.store.reject message })
  | .acceptUpdates => (.done, { session with store := session.store.accept })
  | .save identifier =>
    let (result, next) := session.save identifier
    (.saved result, next)
  | .abandonSave =>
    let (result, next) := session.abandonSave
    (.abandoned result, next)

def run (session : Session) : List Action → List Outcome × Session
  | [] => ([], session)
  | action :: rest =>
    let (outcome, next) := session.perform action
    let (outcomes, last) := run next rest
    (outcome :: outcomes, last)

theorem run_append_eq (session : Session) (actions more : List Action) :
    session.run (actions ++ more) = ((session.run actions).1 ++ ((session.run actions).2.run more).1,
      ((session.run actions).2.run more).2) := by
  induction actions generalizing session with
  | nil => rfl
  | cons action rest ih => simp only [List.cons_append, run, ih]

end Session

end DerivedForm
