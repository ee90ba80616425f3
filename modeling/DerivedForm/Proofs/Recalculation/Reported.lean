import DerivedForm.Proofs.Recalculation.Changes
import DerivedForm.Proofs.Recalculation.Determined

/-!
# What a recalculation reports

The changes that a recalculation reports are the differences between the lists before its first and after
its last pass, however many passes there are and wherever the values have been in between. What a pass
computes is a result: two results that are equal are the same, so that nothing is lost when the changes
of the passes are combined.
-/

namespace DerivedForm

theorem FieldDefinition.isResult_compute? (d : FieldDefinition) (values : Bindings) :
    ((d.compute? values).getD .null).IsResult := by
  cases hcompute : d.compute? values with
  | none => exact .null
  | some v =>
    rcases (compute?_eq_some_iff.mp hcompute).isNumber with ⟨-, n, rfl⟩ | ⟨x, rfl, hx⟩
    · exact .integer n
    · exact .decimal hx

namespace Schema

variable {schema : Schema} {order : VisitOrder} {focused : Option String} {d : FieldDefinition}
  {entries : List Entry} {r s : Recalculated}

/-- The report tells, of every computed field that is there and not held, the way from its value in the
first list to its value in the other, which is a result, and of no other field anything. -/
structure Follows (schema : Schema) (focused : Option String) (entries : List Entry)
    (r : Recalculated) : Prop where
  ids : r.entries.map Entry.id = entries.map Entry.id
  kept : ∀ id, schema.IsSource focused id → Entry.find? r.entries id = Entry.find? entries id
  nodup : (r.changes.map Change.id).Nodup
  silent : ∀ id, schema.IsSource focused id ∨ id ∉ entries.map Entry.id →
    Change.of? r.changes id = none
  tells : ∀ d ∈ schema.derived, d.isHeld focused = false → ∀ e f,
    Entry.find? entries d.id = some e → Entry.find? r.entries d.id = some f →
    f.value.IsResult ∧ Change.Tells d.id e.value f.value (Change.of? r.changes d.id)

theorem of?_changes_pass {e f : Entry} (hd : d ∈ schema.derived) (hheld : d.isHeld focused = false)
    (he : Entry.find? entries d.id = some e)
    (hf : Entry.find? (schema.pass order focused entries).entries d.id = some f) :
    Change.of? (schema.pass order focused entries).changes d.id =
      if f.value.equals e.value then none else some ⟨d.id, e.value, f.value⟩ := by
  cases hequals : f.value.equals e.value with
  | false =>
    rw [if_neg Bool.false_ne_true,
      Change.of?_eq_some_iff (nodup_ids_changes_pass schema order focused entries)]
    exact ⟨mem_changes_pass.mpr ⟨d, hd, hheld, e, f, he, hf, hequals, rfl⟩, rfl⟩
  | true =>
    rw [if_pos rfl, Change.of?_eq_none_iff, List.mem_map]
    rintro ⟨c, hc, hid⟩
    obtain ⟨d', -, -, e', f', he', hf', hne, rfl⟩ := mem_changes_pass.mp hc
    change d'.id = d.id at hid
    rw [hid] at he' hf'
    obtain rfl : e' = e := Option.some.inj (he'.symm.trans he)
    obtain rfl : f' = f := Option.some.inj (hf'.symm.trans hf)
    rw [hequals] at hne
    cases hne

theorem follows_pass (schema : Schema) (order : VisitOrder) (focused : Option String)
    (hids : (entries.map Entry.id).Nodup) :
    schema.Follows focused entries (schema.pass order focused entries) where
  ids := map_id_pass _ _ _ _
  kept := fun _ hsource => find?_pass hsource
  nodup := nodup_ids_changes_pass _ _ _ _
  silent := by
    intro id hid
    rw [Change.of?_eq_none_iff, List.mem_map]
    rintro ⟨c, hc, rfl⟩
    obtain ⟨d, hd, hheld, e, f, he, -, -, rfl⟩ := mem_changes_pass.mp hc
    rcases hid with hsource | habsent
    · rw [hsource d hd rfl] at hheld
      cases hheld
    · exact habsent (Entry.find?_isSome_iff.mp (Option.isSome_of_eq_some he))
  tells := by
    intro d hd hheld e f he hf
    obtain ⟨s, -, -, hfind, -⟩ := exists_moment hids order hd hheld
    rw [hf, he, Option.map_some, Option.some.injEq] at hfind
    have hresult : f.value.IsResult := by
      rw [hfind, Entry.withResult_value]
      exact d.isResult_compute? s.values
    rw [of?_changes_pass hd hheld he hf]
    cases hequals : f.value.equals e.value with
    | false => exact ⟨hresult, .changed (Or.inl rfl) hequals⟩
    | true => exact ⟨hresult, .kept hequals⟩

theorem Follows.combine (h : schema.Follows focused entries r)
    (h' : schema.Follows focused r.entries s) :
    schema.Follows focused entries ⟨s.entries, Change.combine r.changes s.changes⟩ where
  ids := h'.ids.trans h.ids
  kept := fun id hsource => (h'.kept id hsource).trans (h.kept id hsource)
  nodup := Change.nodup_ids_combine h.nodup _
  silent := by
    intro id hid
    rw [Change.of?_combine h.nodup h'.nodup, h.silent id hid, h'.silent id (h.ids ▸ hid)]
    rfl
  tells := by
    intro d hd hheld e g he hg
    have hsome : (Entry.find? r.entries d.id).isSome = true := by
      rw [Entry.find?_isSome_iff, ← h'.ids, ← Entry.find?_isSome_iff, hg, Option.isSome_some]
    obtain ⟨f, hf⟩ := Option.isSome_iff_exists.mp hsome
    obtain ⟨hmiddle, htells⟩ := h.tells d hd hheld e f he hf
    obtain ⟨hresult, htells'⟩ := h'.tells d hd hheld f g hf hg
    refine ⟨hresult, ?_⟩
    rw [Change.of?_combine h.nodup h'.nodup]
    exact htells.combine htells' hmiddle hresult

theorem Follows.repeatPasses (hids : (entries.map Entry.id).Nodup) (order : VisitOrder)
    (passes : Nat) (changed : Bool) (h : schema.Follows focused entries r) :
    schema.Follows focused entries (schema.repeatPasses order focused passes changed r) := by
  induction passes generalizing changed r with
  | zero =>
    unfold Schema.repeatPasses
    exact h
  | succ passes ih =>
    cases changed with
    | false => exact h
    | true => exact ih _ (h.combine (follows_pass schema order focused (h.ids ▸ hids)))

theorem follows_recalculate (schema : Schema) (order : VisitOrder) (focused : Option String)
    (maxPasses : Nat) (hids : (entries.map Entry.id).Nodup) :
    schema.Follows focused entries (schema.recalculate order focused maxPasses entries) := by
  have hfirst := schema.follows_pass order focused hids
  simp only [recalculate]
  split
  · exact hfirst
  · exact hfirst.repeatPasses hids order _ _

/-- The changes are the differences between two lists of entries: each computed field whose value is not
equal to the one that it had, once. -/
structure Reports (schema : Schema) (focused : Option String) (entries : List Entry)
    (r : Recalculated) : Prop where
  ids : r.entries.map Entry.id = entries.map Entry.id
  kept : ∀ id, schema.IsSource focused id → Entry.find? r.entries id = Entry.find? entries id
  nodup : (r.changes.map Change.id).Nodup
  mem_iff : ∀ id, id ∈ r.changes.map Change.id ↔
    ∃ d ∈ schema.derived, d.id = id ∧ d.isHeld focused = false ∧
      ∃ e f, Entry.find? entries id = some e ∧ Entry.find? r.entries id = some f ∧
        f.value.equals e.value = false
  values : ∀ c ∈ r.changes, ∀ e f, Entry.find? entries c.id = some e →
    Entry.find? r.entries c.id = some f → c.previous.Recalls e.value ∧ c.current = f.value

theorem Follows.exists_visited (h : schema.Follows focused entries r) {c : Change}
    (hc : c ∈ r.changes) :
    ∃ d ∈ schema.derived, d.id = c.id ∧ d.isHeld focused = false ∧ ∃ e f,
      Entry.find? entries c.id = some e ∧ Entry.find? r.entries c.id = some f ∧
        f.value.equals e.value = false ∧ c.previous.Recalls e.value ∧ c.current = f.value := by
  have hof : Change.of? r.changes c.id = some c := (Change.of?_eq_some_iff h.nodup).mpr ⟨hc, rfl⟩
  have hloud : ¬ (schema.IsSource focused c.id ∨ c.id ∉ entries.map Entry.id) := by
    intro hid
    rw [h.silent c.id hid] at hof
    cases hof
  rw [not_or, not_not] at hloud
  obtain ⟨hsource, hid⟩ := hloud
  obtain ⟨d, hd, hdid, hheld⟩ := (isSource_or schema focused c.id).resolve_left hsource
  obtain ⟨e, he⟩ := Option.isSome_iff_exists.mp (Entry.find?_isSome_iff.mpr hid)
  obtain ⟨f, hf⟩ := Option.isSome_iff_exists.mp (Entry.find?_isSome_iff.mpr (h.ids ▸ hid))
  obtain ⟨-, htells⟩ := h.tells d hd hheld e f (hdid ▸ he) (hdid ▸ hf)
  rw [hdid, hof] at htells
  obtain ⟨hprevious, hcurrent, hne⟩ := htells.of_some
  exact ⟨d, hd, hdid, hheld, e, f, he, hf, hne, hprevious, hcurrent⟩

/-- A recalculation leaves alone what it does not compute, and reports what it has changed. -/
theorem recalculate_reports (schema : Schema) (order : VisitOrder) (focused : Option String)
    (maxPasses : Nat) {entries : List Entry} (hids : (entries.map Entry.id).Nodup) :
    schema.Reports focused entries (schema.recalculate order focused maxPasses entries) := by
  have h := schema.follows_recalculate order focused maxPasses hids
  refine ⟨h.ids, h.kept, h.nodup, fun id => ⟨fun hid => ?_, ?_⟩, fun c hc e f he hf => ?_⟩
  · obtain ⟨c, hc, rfl⟩ := List.mem_map.mp hid
    obtain ⟨d, hd, hdid, hheld, e, f, he, hf, hne, -⟩ := h.exists_visited hc
    exact ⟨d, hd, hdid, hheld, e, f, he, hf, hne⟩
  · rintro ⟨d, hd, rfl, hheld, e, f, he, hf, hne⟩
    obtain ⟨-, htells⟩ := h.tells d hd hheld e f he hf
    by_contra hid
    rw [Change.of?_eq_none_iff.mpr hid] at htells
    rw [htells.of_none] at hne
    cases hne
  · obtain ⟨-, -, -, -, e', f', he', hf', -, hprevious, hcurrent⟩ := h.exists_visited hc
    obtain rfl : e' = e := Option.some.inj (he'.symm.trans he)
    obtain rfl : f' = f := Option.some.inj (hf'.symm.trans hf)
    exact ⟨hprevious, hcurrent⟩

def pendulum : Schema where
  definitions := [
    ⟨"cord", "Length of the cord", .integer, true, false, none⟩,
    ⟨"tick", "Left", .integer, false, false, some ⟨"1 - {tock}", ["tock"], 0, false⟩⟩,
    ⟨"tock", "Right", .integer, false, false, some ⟨"{tick}", ["tick"], 0, false⟩⟩,
    ⟨"swing", "Swing", .decimal, false, false, some ⟨"{cord} * 2", ["cord"], 1, true⟩⟩]
  distinct := by decide

theorem recalculate_reports_pendulum :
    let entries := [Entry.valid "tock" (.integer 0), .valid "colour" (.text "brass"),
      .refused "swing" "4e" (.notANumber "4e"), .valid "cord" (.integer 5),
      .valid "tick" (.integer 0)]
    let twice := pendulum.recalculate .asDefined (some "swing") 2 entries
    let thrice := pendulum.recalculate .asDefined (some "swing") 3 entries
    (entries.map Entry.id).Nodup ∧ twice.entries = entries ∧ twice.changes = [] ∧
      thrice.changes = [⟨"tick", .integer 0, .integer 1⟩, ⟨"tock", .integer 0, .integer 1⟩] ∧
      pendulum.Reports (some "swing") entries twice ∧
      pendulum.Reports (some "swing") entries thrice := by
  intro entries twice thrice
  have hids : (entries.map Entry.id).Nodup := by decide
  exact ⟨hids, by decide +kernel, by decide +kernel, by decide +kernel,
    recalculate_reports pendulum .asDefined (some "swing") 2 hids,
    recalculate_reports pendulum .asDefined (some "swing") 3 hids⟩

def valley : Schema where
  definitions := [
    ⟨"call", "Call", .integer, true, false, none⟩,
    ⟨"echo", "Echo", .decimal, false, false, some ⟨"{voice}", ["voice"], 0, false⟩⟩,
    ⟨"voice", "Voice", .decimal, false, false, some ⟨"{call}", ["call"], 0, false⟩⟩]
  distinct := by decide

/-- The first pass puts the positive zero in the place of the negative one, which is no change, and the
second one reports the change from there. -/
theorem recalculate_reports_valley :
    let entries := [Entry.valid "call" (.integer 1), .valid "echo" (.decimal (-0)),
      .valid "voice" (.decimal 0)]
    let r := valley.recalculate .asDefined none 3 entries
    (entries.map Entry.id).Nodup ∧
      r.changes = [⟨"voice", .decimal 0, .decimal 1⟩, ⟨"echo", .decimal 0, .decimal 1⟩] ∧
      ¬ ∀ c ∈ r.changes, ∀ e, Entry.find? entries c.id = some e → c.previous = e.value := by
  intro entries r
  have hchanges : r.changes = [⟨"voice", .decimal 0, .decimal 1⟩, ⟨"echo", .decimal 0, .decimal 1⟩] := by
    decide +kernel
  refine ⟨by decide, hchanges, fun h => ?_⟩
  have hecho := h ⟨"echo", .decimal 0, .decimal 1⟩ (by simp [hchanges])
    (.valid "echo" (.decimal (-0))) (by decide)
  exact absurd hecho (by decide +kernel)

end Schema

end DerivedForm
