import DerivedForm.Proofs.Form.Protection
import DerivedForm.Proofs.Recalculation.Emptied

/-!
# What an override leaves of the old value

An override never looks at what is downstream of its own field: it empties its inputs and what is
downstream of these. As the field reads its inputs, whatever is downstream of it is among that. Only a
field without inputs is an exception. Its override empties nothing, and what has been computed from the
old value stays.
-/

namespace DerivedForm

namespace Schema

variable {schema : Schema} {source : FieldDefinition} {id : String}

theorem mem_clearedBy_of_mem_downstream (hsource : source ∈ schema.definitions)
    (hoverridable : source.isOverridable = true) (hinputs : source.inputs ≠ [])
    (h : id ∈ schema.graph.downstream source.id) : id ∈ schema.clearedBy source.id := by
  have hderived : source ∈ schema.derived :=
    mem_derived.mpr ⟨hsource, FieldDefinition.isDerived_of_isOverridable hoverridable⟩
  obtain ⟨hne, hpath⟩ := mem_downstream_iff.mp h
  obtain ⟨d, hd, rfl⟩ :=
    mem_derivedIds_graph.mp (InputGraph.mem_derivedIds_of_mem_downstream h)
  obtain ⟨input, hinput⟩ := List.exists_mem_of_ne_nil _ hinputs
  have hread : schema.ReadBy input source.id := ⟨source, hderived, rfl, hinput⟩
  exact (mem_clearedBy_iff hsource hoverridable).mpr
    ⟨contains_of_mem (mem_derived.mp hd).1, hne, Or.inr ⟨input, hinput, hpath.head hread⟩⟩

theorem clearedBy_of_inputs_eq_nil (hsource : source ∈ schema.definitions)
    (hoverridable : source.isOverridable = true) (hinputs : source.inputs = []) :
    schema.clearedBy source.id = [] := by
  apply List.eq_nil_iff_forall_not_mem.mpr
  intro id hid
  obtain ⟨-, -, hinput | ⟨input, hinput, -⟩⟩ := (mem_clearedBy_iff hsource hoverridable).mp hid
  all_goals
    rw [hinputs] at hinput
    cases hinput

end Schema

namespace Form

variable {schema : Schema} {options : Options} {form : Form} {source d : FieldDefinition}

theorem find?_entriesAfter_of_notMem (hoverridable : source.isOverridable = true) {id : String}
    (hne : id ≠ source.id) (hspared : id ∉ form.schema.clearedBy source.id) (input : Value) :
    Entry.find? (form.entriesAfter source input) id = Entry.find? form.entries id := by
  simp only [entriesAfter, hoverridable, if_true]
  rw [Schema.find?_override_of_notMem hspared,
    Entry.find?_modifyFirst_of_ne (fun _ => Entry.validate_id source input) hne]

theorem find?_entriesAfter_of_mem (h : form.schema.Fits form.entries)
    (hsource : source ∈ form.schema.definitions) (hoverridable : source.isOverridable = true)
    (hd : d ∈ form.schema.derived) (hcleared : d.id ∈ form.schema.clearedBy source.id)
    (input : Value) :
    Entry.find? (form.entriesAfter source input) d.id = some (.valid d.id .null) := by
  have htyped := h.modifyFirst hsource (Entry.regular_validate source input)
  simp only [entriesAfter, hoverridable, if_true]
  exact htyped.find?_override hd hcleared

/-- An accepted override puts its input into the field and empties all that is downstream of it, if the
field has inputs; without inputs it leaves all of that as it is. -/
theorem Reached.edit_override (h : form.Reached schema options)
    (hsource : source ∈ schema.definitions) (hoverridable : source.isOverridable = true)
    (heditable : source.isEditable = true) (input : Value) :
    ∃ next, form.edit source.id input = .ok next ∧
      next.entry? source.id = some (Entry.validate source input) ∧
      ∀ id ∈ schema.graph.downstream source.id,
        next.entry? id = if source.inputs = [] then form.entry? id else some (.valid id .null) := by
  have hform := h.wellFormed
  obtain ⟨next, hedit⟩ := exists_edit hform hsource heditable input
  have hnext := hform.edit hedit
  refine ⟨next, hedit, ?_, fun id hid => ?_⟩
  all_goals
    rw [hnext.entry?_eq]
    obtain ⟨other, hother, hsame, -, rfl⟩ := (edit_eq_ok_iff (hform.schema_eq ▸ hform.fits)).mp hedit
    obtain rfl : other = source := Schema.eq_of_id_eq (hform.schema_eq ▸ hother) hsource hsame
  · exact find?_entriesAfter_self hsource hoverridable hform input
  · rw [hform.entry?_eq]
    obtain ⟨rfl, rfl, hfits⟩ := hform
    change Entry.find? (form.entriesAfter other input) id = _
    split
    · rename_i hinputs
      have hcleared := Schema.clearedBy_of_inputs_eq_nil hsource hoverridable hinputs
      have hspared : id ∉ form.schema.clearedBy other.id := hcleared ▸ List.not_mem_nil
      exact find?_entriesAfter_of_notMem hoverridable (Schema.mem_downstream_iff.mp hid).1 hspared input
    · rename_i hinputs
      have hcleared := Schema.mem_clearedBy_of_mem_downstream hsource hoverridable hinputs hid
      obtain ⟨d, hd, rfl⟩ :=
        Schema.mem_derivedIds_graph.mp (InputGraph.mem_derivedIds_of_mem_downstream hid)
      exact find?_entriesAfter_of_mem hfits hsource hoverridable hd hcleared input

theorem Reached.edit_override_quotation :
    let form := create .quotation [("net", .integer 100)] {}
    form.Reached .quotation {} ∧ form.entry? "total" = some (.valid "total" (.decimal 125)) ∧
      ∃ d ∈ Schema.quotation.definitions, d.id = "gross" ∧ d.isOverridable = true ∧
        d.isEditable = true ∧ "total" ∈ Schema.quotation.graph.downstream d.id ∧
        ∃ next, form.edit d.id (.integer 60) = .ok next ∧
          next.entry? "total" = some (.valid "total" .null) := by
  intro form
  have hform : form.Reached .quotation {} := ⟨_, .empty, [], rfl⟩
  have hdown : "total" ∈ Schema.quotation.graph.downstream "gross" := by decide
  obtain ⟨d, hd, hid, hoverridable, heditable, hinputs⟩ : ∃ d ∈ Schema.quotation.definitions,
      d.id = "gross" ∧ d.isOverridable = true ∧ d.isEditable = true ∧ d.inputs ≠ [] := by decide
  rw [← hid] at hdown
  obtain ⟨next, hedit, -, hemptied⟩ := hform.edit_override hd hoverridable heditable (.integer 60)
  have htotal := hemptied "total" hdown
  rw [if_neg hinputs] at htotal
  exact ⟨hform, by decide +kernel, d, hd, hid, hoverridable, heditable, hdown, next, hedit, htotal⟩

end Form

def Schema.tariff : Schema where
  definitions := [
    ⟨"fee", "Fee", .decimal, false, false, some ⟨"10", [], 0, true⟩⟩,
    ⟨"total", "Fee for two", .decimal, false, false, some ⟨"{fee} * 2", ["fee"], 0, false⟩⟩]
  distinct := by decide

/-- The fee has no inputs, so that the total for the old one stays. -/
theorem Form.Reached.override_stale_tariff :
    let form := create .tariff [] {}
    form.Reached .tariff {} ∧ Schema.tariff.graph.hasCycle = false ∧
      (Schema.tariff.get? "fee").any (fun d => d.isOverridable && d.isEditable) = true ∧
      "total" ∈ Schema.tariff.graph.downstream "fee" ∧
      (form.edit "fee" (.integer 7)).map (fun next => next.entries) =
        .ok [.valid "fee" (.decimal 7), .valid "total" (.decimal 20)] := by
  intro form
  exact ⟨⟨_, .empty, [], rfl⟩, by decide, by decide, by decide, by decide +kernel⟩

end DerivedForm
