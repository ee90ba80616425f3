import DerivedForm.Console.Report
import DerivedForm.Form.Session
import DerivedForm.Proofs.Console.Commands

/-!
# Batches as dialogues

A batch and a dialogue are two ways to have the same actions performed. They print different things on the
way, but printing touches neither the form nor the errors, so both follow the run of the actions step by
step: a part of a batch by its own recursion, a line by the command that it is read as. Both end with the
answer to the save.
-/

namespace DerivedForm.Console

def warnings (outcomes : List Outcome) : String :=
  String.join (outcomes.map fun
    | .edited (.error error) => s!"Edit rejected: {error.message}\n"
    | _ => "")

theorem warnings_append (outcomes more : List Outcome) :
    warnings (outcomes ++ more) = warnings outcomes ++ warnings more := by
  simp [warnings]

namespace Screen

variable {start middle last screen : Screen} {actions more : List Action} {text : String}

/-- On the way from one screen to the other the actions are performed, with no store taking part, and their
warnings are written. -/
def CarriesOut (start : Screen) (actions : List Action) (last : Screen) : Prop :=
  ∃ outcomes, (∀ store, (Session.mk start.form store).run actions = (outcomes, ⟨last.form, store⟩)) ∧
    last.errors = start.errors ++ warnings outcomes

theorem CarriesOut.refl (screen : Screen) : screen.CarriesOut [] screen :=
  ⟨[], fun _ => rfl, String.append_empty.symm⟩

theorem CarriesOut.trans (h : start.CarriesOut actions middle) (hmore : middle.CarriesOut more last) :
    start.CarriesOut (actions ++ more) last := by
  obtain ⟨outcomes, hrun, herrors⟩ := h
  obtain ⟨others, hothers, hlast⟩ := hmore
  refine ⟨outcomes ++ others, fun store => ?_, ?_⟩
  · rw [Session.run_append_eq, hrun store, hothers store]
  · rw [hlast, herrors, warnings_append, String.append_assoc]

theorem CarriesOut.of_print (h : (start.print text).CarriesOut actions last) :
    start.CarriesOut actions last := h

theorem CarriesOut.print (h : start.CarriesOut actions last) (text : String) :
    start.CarriesOut actions (last.print text) := h

theorem carriesOut_edit (screen : Screen) (id : String) (value : Value) :
    screen.CarriesOut [.edit id value] (screen.edit id value) := by
  unfold edit
  cases hedit : screen.form.edit id value with
  | ok form =>
    refine ⟨[.edited (.ok ())], fun store => ?_, String.append_empty.symm⟩
    simp [Session.run, Session.perform, Session.edit, Session.withForm, hedit]
  | error error =>
    refine ⟨[.edited (.error error)], fun store => ?_, ?_⟩
    · simp [Session.run, Session.perform, Session.edit, warn, hedit]
    · simp [warn, warnings, String.join]

theorem carriesOut_focus (screen : Screen) (id : String) :
    screen.CarriesOut [.focus id] (screen.focus id) :=
  ⟨[.focused (screen.form.takesFocus id)], fun _ => rfl, String.append_empty.symm⟩

theorem carriesOut_blur (screen : Screen) (id : String) :
    screen.CarriesOut [.blur id] (screen.blur id) :=
  ⟨[.done], fun _ => rfl, String.append_empty.symm⟩

/-- The lines have the actions performed, and the dialogue goes on. -/
def Says (lines : List String) (actions : List Action) : Prop :=
  ∀ (screen : Screen) (identifier : String) (rest : List String), ∃ next,
    screen.converse identifier (lines ++ rest) = next.converse identifier rest ∧
      screen.CarriesOut actions next

theorem says_nil : Says [] [] := fun screen _ _ => ⟨screen, rfl, .refl screen⟩

theorem Says.append {lines others : List String} (h : Says lines actions)
    (hothers : Says others more) : Says (lines ++ others) (actions ++ more) := by
  intro screen identifier rest
  obtain ⟨middle, hmiddle, hfirst⟩ := h screen identifier (others ++ rest)
  obtain ⟨next, hnext, hsecond⟩ := hothers middle identifier rest
  exact ⟨next, by rw [List.append_assoc, hmiddle, hnext], hfirst.trans hsecond⟩

theorem says_line {line : String} {command : Command} (hline : Command.ofLine line = command)
    (hgoesOn : command ≠ .quit)
    (h : ∀ (screen : Screen) identifier,
      screen.CarriesOut actions (screen.perform identifier command)) :
    Says [line] actions := by
  intro screen identifier rest
  refine ⟨(screen.print prompt).perform identifier command, ?_, (h _ identifier).of_print⟩
  rw [List.singleton_append, converse, hline]
  cases command <;> first | rfl | exact absurd rfl hgoesOn

theorem says_focus {id : String} (h : Text.trim id = id) : Says ["focus " ++ id] [.focus id] := by
  have hline : Command.ofLine ("focus " ++ id) = .focus id :=
    Command.ofLine_trimmed "focus" .focus (by decide) (by decide) (fun _ => rfl) h
  exact says_line hline (by simp) fun screen _ => (screen.carriesOut_focus id).print _

theorem says_blur {id : String} (h : Text.trim id = id) : Says ["blur " ++ id] [.blur id] := by
  have hline : Command.ofLine ("blur " ++ id) = .blur id :=
    Command.ofLine_trimmed "blur" .blur (by decide) (by decide) (fun _ => rfl) h
  exact says_line hline (by simp) fun screen _ => (screen.carriesOut_blur id).print _

end Screen

def editAction? (edit : String) : Option Action :=
  (readEdit? edit).map fun (id, value) => .edit id value

theorem Screen.says_set {edit : String} (h : '=' ∈ edit.toList) :
    ∃ action, editAction? edit = some action ∧ Says ["set " ++ edit] [action] := by
  obtain ⟨id, value, hedit, hend⟩ := exists_readEdit? h
  refine ⟨.edit id value, by rw [editAction?, hedit]; rfl, ?_⟩
  have hline := Command.ofLine_argument "set" (by decide) (by decide) edit
  refine says_line hline (by simp [Command.ofWord]) fun screen _ => ?_
  simp only [Command.ofWord, perform, set, hend]
  exact (screen.carriesOut_edit id value).print _

theorem Screen.says_edits {edits : List String} (h : ∀ edit ∈ edits, '=' ∈ edit.toList) :
    Says (edits.map ("set " ++ ·)) (edits.filterMap editAction?) := by
  induction edits with
  | nil => exact says_nil
  | cons edit rest ih =>
    obtain ⟨hedit, hrest⟩ := List.forall_mem_cons.mp h
    obtain ⟨action, haction, hsays⟩ := says_set hedit
    rw [List.filterMap_cons_some haction]
    exact hsays.append (ih hrest)

namespace Batch

variable {batch : Batch} {start : Screen}

def typing (batch : Batch) : List Action :=
  (batch.focus.map Action.focus).toList ++ batch.edits.filterMap editAction? ++
    (batch.focus.map Action.blur).toList

def actions (batch : Batch) : List Action := batch.typing ++ [.save batch.identifier]

def lines (batch : Batch) : List String :=
  (batch.focus.map ("focus " ++ ·)).toList ++ batch.edits.map ("set " ++ ·) ++
    (batch.focus.map ("blur " ++ ·)).toList ++ ["save"]

/-- Each edit can be read and said on a line, and so can the field in focus, without blanks around it. -/
structure Sayable (batch : Batch) : Prop where
  edits : ∀ edit ∈ batch.edits, '=' ∈ edit.toList ∧ '\n' ∉ edit.toList
  focus : ∀ id ∈ batch.focus, Text.trim id = id ∧ '\n' ∉ id.toList

theorem Sayable.notMem_lines (h : batch.Sayable) : ∀ line ∈ batch.lines, '\n' ∉ line.toList := by
  have hedits := h.edits
  have hfocus := h.focus
  intro line hline
  simp only [lines, List.mem_append, List.mem_map, Option.mem_toList, Option.mem_def,
    Option.map_eq_some_iff, List.mem_singleton] at hline hfocus
  rcases hline with ((⟨id, hid, rfl⟩ | ⟨edit, hedit, rfl⟩) | ⟨id, hid, rfl⟩) | rfl
  · simpa using (hfocus id hid).2
  · simpa using (hedits edit hedit).2
  · simpa using (hfocus id hid).2
  · decide

theorem Sayable.says_typing (h : batch.Sayable) : ∃ typed, batch.lines = typed ++ ["save"] ∧
    Screen.Says typed batch.typing := by
  have hedits := Screen.says_edits fun edit hedit => (h.edits edit hedit).1
  refine ⟨_, rfl, ?_⟩
  unfold typing
  cases hfocus : batch.focus with
  | none => exact (Screen.says_nil.append hedits).append Screen.says_nil
  | some id =>
    have htrim := (h.focus id (by simp [hfocus])).1
    exact ((Screen.says_focus htrim).append hedits).append (Screen.says_blur htrim)

theorem exists_converse (h : batch.Sayable) (start : Screen) : ∃ typed,
    start.converse batch.identifier batch.lines = (typed.save batch.identifier).print prompt ∧
      start.CarriesOut batch.typing typed := by
  obtain ⟨lines, hlines, hsays⟩ := h.says_typing
  obtain ⟨typed, htyped, hcarries⟩ := hsays start batch.identifier ["save"]
  have hsave : Command.ofLine "save" = .save := by decide
  refine ⟨typed.print prompt, ?_, hcarries.print prompt⟩
  rw [hlines, htyped, Screen.converse, hsave]
  rfl

theorem carriesOut_takeFocus (screen : Screen) (focus : Option String) :
    screen.CarriesOut (focus.map Action.focus).toList (takeFocus screen focus) := by
  cases focus with
  | none => exact .refl screen
  | some id =>
    simp only [takeFocus]
    split
    · exact screen.carriesOut_focus id
    · exact (Screen.carriesOut_focus (screen.print _) id).of_print

theorem carriesOut_releaseFocus (screen : Screen) (focus : Option String) :
    screen.CarriesOut (focus.map Action.blur).toList (releaseFocus screen focus) := by
  cases focus with
  | none => exact .refl screen
  | some id => exact screen.carriesOut_blur id

theorem exists_applyEdits {edits : List String} (h : ∀ edit ∈ edits, '=' ∈ edit.toList)
    (screen : Screen) : ∃ last, applyEdits screen edits = .ok last ∧
      screen.CarriesOut (edits.filterMap editAction?) last := by
  induction edits generalizing screen with
  | nil => exact ⟨screen, rfl, .refl screen⟩
  | cons edit rest ih =>
    obtain ⟨hedit, hrest⟩ := List.forall_mem_cons.mp h
    obtain ⟨id, value, hread, -⟩ := exists_readEdit? hedit
    obtain ⟨last, hlast, hcarries⟩ := ih hrest (screen.edit id value)
    have haction : editAction? edit = some (.edit id value) := by rw [editAction?, hread]; rfl
    rw [applyEdits, hread, List.filterMap_cons_some haction]
    exact ⟨last, hlast, (screen.carriesOut_edit id value).trans hcarries⟩

theorem exists_run (h : batch.Sayable) (start : Screen) : ∃ typed,
    batch.run start = .ok (typed.save batch.identifier) ∧ start.CarriesOut batch.typing typed := by
  obtain ⟨edited, hedited, hcarries⟩ := exists_applyEdits (fun edit hedit => (h.edits edit hedit).1)
    (takeFocus start.list batch.focus)
  have htyping : start.CarriesOut batch.typing (releaseFocus edited batch.focus) :=
    (((carriesOut_takeFocus start.list batch.focus).of_print).trans hcarries).trans
      (carriesOut_releaseFocus edited batch.focus)
  unfold run
  rw [hedited]
  simp only [Except.map, finish]
  split
  · exact ⟨_, rfl, htyping⟩
  · exact ⟨_, rfl, (htyping.print _).print _⟩

end Batch

/-- The screen shows what a run of actions ends in: the form, the warnings, and at the end of the output the
answer to the last save, with what closes the output. -/
structure Screen.EndsAs (screen : Screen) (run : List Outcome × Session) (identifier closing : String) :
    Prop where
  form : screen.form = run.2.form
  errors : screen.errors = warnings run.1
  saved : ∃ result written, run.1.getLast? = some (.saved result) ∧
    screen.output = written ++ saveText identifier result ++ closing

theorem Screen.EndsAs.print {screen : Screen} {run : List Outcome × Session} {identifier : String}
    (h : screen.EndsAs run identifier "") (closing : String) :
    (screen.print closing).EndsAs run identifier closing := by
  obtain ⟨result, written, hlast, houtput⟩ := h.saved
  refine ⟨h.form, h.errors, result, written, hlast, ?_⟩
  rw [Screen.print, houtput, String.append_empty]

theorem Screen.CarriesOut.endsAs_save {start typed : Screen} {actions : List Action}
    (h : start.CarriesOut actions typed) (hclean : start.errors = "") (identifier : String) :
    (typed.save identifier).EndsAs
      ((Session.mk start.form Store.empty).run (actions ++ [.save identifier])) identifier "" := by
  obtain ⟨outcomes, hrun, herrors⟩ := h
  rw [Session.run_append_eq, hrun]
  refine ⟨rfl, ?_, _, typed.output, List.getLast?_concat, String.append_empty.symm⟩
  have hsilent : ∀ result, warnings [.saved result] = "" := fun _ => rfl
  have hlast : (typed.save identifier).errors = warnings outcomes := by
    rw [← String.empty_append (s := warnings outcomes), ← hclean]
    exact herrors
  exact hlast.trans (by simp [warnings_append, Session.run, Session.perform, hsilent])

/-- A batch and the dialogue that it is said to perform the same actions: they end in the same form, warn of
the same edits, and print the same answer to the save; the batch gets through all its edits. -/
theorem batch_agrees_dialogue {definitions : Source} {baseline : Option Source} {options : Options}
    {notice : String} {form : Form} (batch : Batch)
    (hopen : openForm definitions baseline options = (notice, .ok form)) (h : batch.Sayable) :
    ∃ last told, batch.run ((Screen.blank form).print notice) = .ok last ∧
      ((Screen.blank form).print notice).greet.converse batch.identifier
        (linesOf (inputOf batch.lines)) = told ∧
      last.EndsAs ((Session.mk form Store.empty).run batch.actions) batch.identifier "" ∧
      told.EndsAs ((Session.mk form Store.empty).run batch.actions) batch.identifier prompt ∧
      Report.ofRun definitions baseline options batch none = .ofScreen last ∧
      Report.ofRun definitions baseline options batch (some (inputOf batch.lines)) =
        .ofScreen told := by
  obtain ⟨typed, hrun, hcarries⟩ := Batch.exists_run h ((Screen.blank form).print notice)
  obtain ⟨spoken, hconverse, hspoken⟩ :=
    Batch.exists_converse h ((Screen.blank form).print notice).greet
  refine ⟨_, _, hrun, rfl, ?_, ?_, ?_, ?_⟩
  · exact hcarries.endsAs_save rfl batch.identifier
  · rw [linesOf_inputOf h.notMem_lines, hconverse]
    exact (hspoken.endsAs_save rfl batch.identifier).print prompt
  · simp only [Report.ofRun, hopen, Report.ofForm, Report.ofBatch, hrun]
  · simp only [Report.ofRun, hopen, Report.ofForm]

def crateDefinitions : Source :=
  ⟨"crate.json", .ok <| "[[\"net\",\"\",\"Decimal\"]," ++
    "[\"gross weight\",\"\",\"Decimal\",false,false,[\"net + 1\",[\"net\"],2,true]]]"⟩

def crate : Batch where
  edits := ["net = 2\u3000", "gross weight==3", "nett=1"]
  focus := some "gross weight"
  identifier := "crate"

theorem crate_sayable : crate.Sayable where
  edits := by decide
  focus := by decide

theorem batch_agrees_dialogue_crate : ∃ notice form,
    openForm crateDefinitions none {} = (notice, .ok form) ∧ crate.Sayable ∧
    ∃ last told, crate.run ((Screen.blank form).print notice) = .ok last ∧
      ((Screen.blank form).print notice).greet.converse crate.identifier
        (linesOf (inputOf crate.lines)) = told ∧
      last.EndsAs ((Session.mk form Store.empty).run crate.actions) crate.identifier "" ∧
      told.EndsAs ((Session.mk form Store.empty).run crate.actions) crate.identifier prompt ∧
      Report.ofRun crateDefinitions none {} crate none = .ofScreen last ∧
      Report.ofRun crateDefinitions none {} crate (some (inputOf crate.lines)) = .ofScreen told := by
  have hopens : (openForm crateDefinitions none {}).2.toBool = true := by decide +kernel
  cases hopen : openForm crateDefinitions none {} with
  | mk notice result =>
    cases result with
    | error error => exact absurd hopens (by simp [hopen, Except.toBool])
    | ok form => exact ⟨notice, form, rfl, crate_sayable, batch_agrees_dialogue crate hopen crate_sayable⟩

end DerivedForm.Console
