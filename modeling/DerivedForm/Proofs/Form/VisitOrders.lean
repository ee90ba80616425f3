import DerivedForm.Proofs.Form.Reached
import DerivedForm.Proofs.Recalculation.Repetition

/-!
# The order of visits is not observable

Without cycles, and with enough passes, a form that visits its computed fields as they are defined does
what a form that visits inputs first does. The two sessions go in lockstep: they differ in their options
and in nothing else.
-/

namespace DerivedForm

namespace Options

def Suffice (options : Options) (schema : Schema) : Prop :=
  options.order = .inputsFirst ∨
    ∀ n, options.maxPasses = some n → schema.derived.length ≤ n

/-- Both options lead to the settled entries of a schema, which has no cycles. -/
structure Interchangeable (schema : Schema) (options other : Options) : Prop where
  reads : schema.ReadsOnlyInputs
  acyclic : schema.graph.hasCycle = false
  left : options.Suffice schema
  right : other.Suffice schema

end Options

namespace Form

structure SameState (form other : Form) : Prop where
  entries : List.Forall₂ Entry.Equal form.entries other.entries
  isValid : form.isValid = other.isValid
  isLoading : form.isLoading = other.isLoading
  hasChanges : form.hasChanges = other.hasChanges

def withOptions (form : Form) (options : Options) : Form := { form with options }

variable {schema : Schema} {options : Options} {form : Form}

theorem recalculate_eq_pass (hreads : form.schema.ReadsOnlyInputs)
    (hacyclic : form.schema.graph.hasCycle = false) (hsuffice : form.options.Suffice form.schema)
    {entries : List Entry} (h : form.schema.Fits entries) (focused : Option String) :
    form.recalculate focused entries =
      (form.schema.pass .inputsFirst focused entries).entries := by
  rcases hsuffice with horder | hpasses
  · exact recalculate_of_acyclic horder hacyclic focused entries
  · apply Schema.entries_recalculate_eq hreads hacyclic h
    unfold maxPasses
    cases hmax : form.options.maxPasses with
    | none => exact Nat.le_succ _
    | some n => exact hpasses n hmax

theorem WellFormed.settled_recalculate (hreads : schema.ReadsOnlyInputs)
    (hacyclic : schema.graph.hasCycle = false) (hsuffice : options.Suffice schema)
    (hform : form.WellFormed schema options) {entries : List Entry} (h : schema.Fits entries)
    (focused : Option String) : schema.Settled focused (form.recalculate focused entries) := by
  obtain ⟨rfl, rfl, -⟩ := hform
  rw [recalculate_eq_pass hreads hacyclic hsuffice h]
  exact Schema.settled_pass hreads hacyclic h.lists focused

theorem WellFormed.settled_load (hreads : schema.ReadsOnlyInputs)
    (hacyclic : schema.graph.hasCycle = false) (hsuffice : options.Suffice schema)
    (hform : form.WellFormed schema options) : schema.Settled none form.load.entries := by
  obtain ⟨rfl, rfl, hfits⟩ := hform
  exact WellFormed.settled_recalculate hreads hacyclic hsuffice ⟨rfl, rfl, hfits⟩
    form.fits_baselineEntries none

theorem settled_create (hreads : schema.ReadsOnlyInputs)
    (hacyclic : schema.graph.hasCycle = false) (hsuffice : options.Suffice schema)
    (baseline : Bindings) : schema.Settled none (create schema baseline options).entries := by
  have hagain : (create schema baseline options).load = create schema baseline options := rfl
  rw [← hagain]
  exact (wellFormed_create schema baseline options).settled_load hreads hacyclic hsuffice

theorem recalculate_withOptions (h : Options.Interchangeable form.schema form.options options)
    {entries : List Entry} (hfits : form.schema.Fits entries) (focused : Option String) :
    (form.withOptions options).recalculate focused entries = form.recalculate focused entries := by
  have hwith : (form.withOptions options).recalculate focused entries =
      (form.schema.pass .inputsFirst focused entries).entries :=
    @recalculate_eq_pass (form.withOptions options) h.reads h.acyclic h.right entries hfits focused
  rw [hwith, recalculate_eq_pass h.reads h.acyclic h.left hfits]

theorem load_withOptions (h : Options.Interchangeable form.schema form.options options) :
    (form.withOptions options).load = form.load.withOptions options := by
  have hentries : (form.withOptions options).recalculate none form.baselineEntries =
      form.recalculate none form.baselineEntries :=
    recalculate_withOptions h form.fits_baselineEntries none
  have hload : ∀ form : Form, form.load = refreshFlags (takeSnapshot { form with
      focused := none, isLoading := false
      entries := form.recalculate none form.baselineEntries }) := fun _ => rfl
  rw [hload, hload, ← hentries]
  rfl

theorem edit_withOptions (h : Options.Interchangeable form.schema form.options options)
    (hfits : form.schema.Fits form.entries) (id : String) (input : Value) :
    (form.withOptions options).edit id input =
      (form.edit id input).map fun next => next.withOptions options := by
  have hfits' : (form.withOptions options).schema.Fits (form.withOptions options).entries := hfits
  have hschema : (form.withOptions options).schema = form.schema := rfl
  rw [edit_of_fits hfits', edit_of_fits hfits, hschema]
  cases hd : form.schema.get? id with
  | none => rfl
  | some d =>
    have hentries : (form.withOptions options).entriesAfter d input = form.entriesAfter d input := by
      have htyped := hfits.modifyFirst (Schema.mem_of_get? hd) (Entry.regular_validate d input)
      have hrecalculate := recalculate_withOptions h htyped form.focused
      simp only [entriesAfter]
      split
      · rfl
      · exact hrecalculate
    dsimp only
    cases d.isEditable with
    | false => rfl
    | true =>
      rw [if_pos rfl, if_pos rfl, hentries]
      rfl

theorem blur_withOptions (h : Options.Interchangeable form.schema form.options options)
    (hfits : form.schema.Fits form.entries) (id : String) :
    (form.withOptions options).blur id = (form.blur id).withOptions options := by
  have hentries : (form.withOptions options).recalculate none (form.withOptions options).entries =
      form.recalculate none form.entries := recalculate_withOptions h hfits none
  have hfocused : (form.withOptions options).focused = form.focused := rfl
  have habandoned : (form.withOptions options).entries = form.entries := rfl
  rw [blur_eq, blur_eq, hentries, hfocused, habandoned]
  split
  · split <;> rfl
  · rfl

theorem beginSave_withOptions (form : Form) (options : Options) :
    (form.withOptions options).beginSave =
      form.beginSave.map fun (payload, next) => (payload, next.withOptions options) := by
  cases hvalid : form.isValid with
  | false =>
    have hvalid' : (form.withOptions options).isValid = false := hvalid
    rw [beginSave_of_invalid hvalid, beginSave_of_invalid hvalid']
    rfl
  | true =>
    have hvalid' : (form.withOptions options).isValid = true := hvalid
    rw [beginSave_of_valid hvalid, beginSave_of_valid hvalid']
    rfl

theorem WellFormed.sameState_withOptions (h : form.WellFormed schema options) (other : Options) :
    form.SameState (form.withOptions other) where
  entries := List.forall₂_same.mpr fun _ he => Entry.equal_self (h.fits.ne_nan he)
  isValid := rfl
  isLoading := rfl
  hasChanges := rfl

end Form

namespace Session

def withOptions (session : Session) (options : Options) : Session :=
  { session with form := session.form.withOptions options }

variable {schema : Schema} {options other : Options} {session : Session}

theorem form_withOptions (session : Session) (options : Options) :
    (session.withOptions options).form = session.form.withOptions options := rfl

theorem store_withOptions (session : Session) (options : Options) :
    (session.withOptions options).store = session.store := rfl

theorem save_withOptions (session : Session) (options : Options) (identifier : String) :
    (session.withOptions options).save identifier =
      ((session.save identifier).1, (session.save identifier).2.withOptions options) := by
  unfold save
  rw [form_withOptions, store_withOptions, Form.beginSave_withOptions]
  cases session.form.beginSave with
  | error error => rfl
  | ok result =>
    obtain ⟨payload, next⟩ := result
    dsimp only [Except.map]
    cases session.store.update identifier payload with
    | error message => rfl
    | ok store => rfl

theorem abandonSave_withOptions (session : Session) (options : Options) :
    (session.withOptions options).abandonSave =
      (session.abandonSave.1, session.abandonSave.2.withOptions options) := by
  unfold abandonSave
  rw [form_withOptions, Form.beginSave_withOptions]
  cases session.form.beginSave with
  | error error => rfl
  | ok result => rfl

theorem edit_withOptions (h : Options.Interchangeable session.form.schema session.form.options other)
    (hfits : session.form.schema.Fits session.form.entries) (id : String) (input : Value) :
    (session.withOptions other).edit id input =
      ((session.edit id input).1, (session.edit id input).2.withOptions other) := by
  unfold edit
  rw [form_withOptions, Form.edit_withOptions h hfits]
  cases session.form.edit id input with
  | error error => rfl
  | ok next => rfl

theorem perform_withOptions (h : Options.Interchangeable schema options other)
    (hform : session.form.WellFormed schema options) (action : Action) :
    (session.withOptions other).perform action =
      ((session.perform action).1, (session.perform action).2.withOptions other) := by
  obtain ⟨rfl, rfl, hfits⟩ := hform
  cases action with
  | edit id input =>
    simp only [perform]
    rw [edit_withOptions h hfits]
  | focus id => rfl
  | blur id =>
    simp only [perform, withForm]
    rw [form_withOptions, Form.blur_withOptions h hfits]
    rfl
  | reset =>
    simp only [perform, withForm, Form.reset]
    rw [form_withOptions, Form.load_withOptions h]
    rfl
  | rejectUpdates message => rfl
  | acceptUpdates => rfl
  | save identifier =>
    simp only [perform]
    rw [save_withOptions]
  | abandonSave =>
    simp only [perform]
    rw [abandonSave_withOptions]

theorem run_withOptions (h : Options.Interchangeable schema options other)
    (hform : session.form.WellFormed schema options) (actions : List Action) :
    (session.withOptions other).run actions =
      ((session.run actions).1, (session.run actions).2.withOptions other) := by
  induction actions generalizing session with
  | nil => rfl
  | cons action rest ih =>
    simp only [run]
    rw [perform_withOptions h hform, ih (hform.perform action)]

/-- A new form that visits the computed fields as they are defined, with as many passes as are made by
default, answers every action as a new form that visits inputs first, and their states stay equal. -/
theorem run_asDefined (schema : Schema) (hreads : schema.ReadsOnlyInputs)
    (hacyclic : schema.graph.hasCycle = false) (baseline : Bindings) (maxPasses : Option Nat)
    (store : Store) (actions : List Action) :
    let asDefined := (Session.mk (.create schema baseline ⟨.asDefined, none⟩) store).run actions
    let inputsFirst :=
      (Session.mk (.create schema baseline ⟨.inputsFirst, maxPasses⟩) store).run actions
    asDefined.1 = inputsFirst.1 ∧ asDefined.2.form.SameState inputsFirst.2.form := by
  intro asDefined inputsFirst
  have hleft : Options.Suffice ⟨.asDefined, none⟩ schema := by
    right
    intro n hn
    cases hn
  have h : Options.Interchangeable schema ⟨.asDefined, none⟩ ⟨.inputsFirst, maxPasses⟩ :=
    ⟨hreads, hacyclic, hleft, Or.inl rfl⟩
  have hnew := Form.wellFormed_create schema baseline ⟨.asDefined, none⟩
  have hcreate : Form.create schema baseline ⟨.inputsFirst, maxPasses⟩ =
      (Form.create schema baseline ⟨.asDefined, none⟩).withOptions ⟨.inputsFirst, maxPasses⟩ := by
    unfold Form.create
    rw [← Form.load_withOptions h]
    rfl
  have hrun : inputsFirst =
      (asDefined.1, asDefined.2.withOptions ⟨.inputsFirst, maxPasses⟩) := by
    rw [← run_withOptions h hnew actions]
    unfold withOptions
    rw [← hcreate]
  rw [hrun]
  exact ⟨rfl, (Form.wellFormed_run schema baseline _ store actions).sameState_withOptions _⟩

theorem run_asDefined_invoice :
    let actions := [.edit "net" (.text "50"), .focus "gross", .edit "gross" (.text "99"),
      .rejectUpdates "full", .save "a", .blur "gross", .edit "net" (.text "7"), .acceptUpdates,
      .save "b", .reset]
    let asDefined := (Session.mk (.create .invoice [] ⟨.asDefined, none⟩) .empty).run actions
    let inputsFirst := (Session.mk (.create .invoice [] ⟨.inputsFirst, none⟩) .empty).run actions
    Schema.invoice.graph.hasCycle = false ∧
      asDefined.1 = inputsFirst.1 ∧ asDefined.2.form.SameState inputsFirst.2.form := by
  intro actions asDefined inputsFirst
  have hacyclic : Schema.invoice.graph.hasCycle = false := by decide
  exact ⟨hacyclic, run_asDefined .invoice Schema.readsOnlyInputs_invoice hacyclic [] none .empty
    actions⟩

end Session

end DerivedForm
