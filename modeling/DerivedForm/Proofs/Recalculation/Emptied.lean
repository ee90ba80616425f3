import DerivedForm.Proofs.Dependency.Exploration
import DerivedForm.Proofs.Recalculation.Override

/-!
# What an override empties

An override empties its declared inputs and the computed fields that they lead to, also by way of the
overridden field, which itself stays as it is. Of a list of entries it replaces the first one of each
emptied field; all others stay in their places. Only a required plain input is invalid when empty.
-/

namespace DerivedForm

open Relation (TransGen)

namespace Entry

variable {entries : List Entry} {d : FieldDefinition} {id : String} {i : Nat}

theorem validate_null_of_required (hrequired : d.required = true) (hplain : d.isDerived = false) :
    validate d .null = ⟨d.id, .null, false, some InputError.required.message⟩ := by
  rw [validate_of_isEmpty d Value.isEmpty_null, empty, hrequired, hplain]
  rfl

theorem validate_null_of_optional (h : d.required = false ∨ d.isDerived = true) :
    validate d .null = valid d.id .null := by
  rw [validate_of_isEmpty d Value.isEmpty_null]
  rcases h with hoptional | hderived
  · simp [empty, hoptional]
  · exact empty_of_isDerived hderived

theorem findIdx?_id (entries : List Entry) (id : String) :
    entries.findIdx? (fun e => e.id == id) = (entries.map Entry.id).findIdx? (· == id) := by
  rw [List.findIdx?_map]
  rfl

theorem id_of_findIdx? {e : Entry} (h : entries.findIdx? (fun e => e.id == id) = some i)
    (he : entries[i]? = some e) : e.id = id :=
  id_of_find? ((getElem?_of_findIdx? h).symm.trans he)

theorem getElem?_modifyFirst_of_ne (h : entries.findIdx? (fun e => e.id == id) ≠ some i)
    (e : Entry) : (modifyFirst id (fun _ => e) entries)[i]? = entries[i]? := by
  cases hfirst : entries.findIdx? fun e => e.id == id with
  | none =>
    have hnone : id ∉ entries.map Entry.id := by
      simpa [List.findIdx?_eq_none_iff] using hfirst
    rw [modifyFirst_of_notMem hnone]
  | some k =>
    have hne : k ≠ i := fun heq => h (heq ▸ hfirst)
    rw [← set_of_findIdx? hfirst, List.getElem?_set_ne hne]

end Entry

namespace Schema

variable {schema : Schema} {source d : FieldDefinition} {id : String} {ids : List String}
  {entries : List Entry} {i : Nat}

theorem getElem?_emptyEntry_of_ne (h : entries.findIdx? (fun e => e.id == id) ≠ some i) :
    (schema.emptyEntry entries id)[i]? = entries[i]? := by
  rw [emptyEntry]
  split
  · exact Entry.getElem?_modifyFirst_of_ne h _
  · rfl

theorem getElem?_foldl_emptyEntry
    (h : ∀ id ∈ ids, entries.findIdx? (fun e => e.id == id) ≠ some i) :
    (ids.foldl schema.emptyEntry entries)[i]? = entries[i]? := by
  induction ids generalizing entries with
  | nil => rfl
  | cons first rest ih =>
    obtain ⟨hfirst, hrest⟩ := List.forall_mem_cons.mp h
    rw [List.foldl_cons, ih, getElem?_emptyEntry_of_ne hfirst]
    intro id hid
    rw [Entry.findIdx?_id, map_id_emptyEntry, ← Entry.findIdx?_id]
    exact hrest id hid

theorem getElem?_override_of_mem (hd : d ∈ schema.definitions)
    (hcleared : d.id ∈ schema.clearedBy id)
    (hplace : entries.findIdx? (fun e => e.id == d.id) = some i) :
    (schema.override id entries)[i]? = some (Entry.validate d .null) := by
  have hplace' : (schema.override id entries).findIdx? (fun e => e.id == d.id) = some i := by
    rw [Entry.findIdx?_id, map_id_override, ← Entry.findIdx?_id, hplace]
  obtain ⟨hlt, -⟩ := List.findIdx?_eq_some_iff_getElem.mp hplace
  have hfind : Entry.find? entries d.id = some entries[i] := by
    rw [← Entry.getElem?_of_findIdx? hplace, List.getElem?_eq_getElem hlt]
  rw [Entry.getElem?_of_findIdx? hplace', find?_override_of_mem hd hcleared, hfind, Option.map_some,
    Entry.validate_of_isEmpty d Value.isEmpty_null]

/-- What an override of a field does to a list of entries, if it says to have emptied these ids. -/
structure Empties (schema : Schema) (source : FieldDefinition) (cleared : List String)
    (entries out : List Entry) : Prop where
  nodup : cleared.Nodup
  mem_iff : ∀ id, id ∈ cleared ↔ schema.contains id = true ∧ id ≠ source.id ∧
    (id ∈ source.inputs ∨ ∃ input ∈ source.inputs, TransGen schema.ReadBy input id)
  emptied : ∀ d ∈ schema.definitions, d.id ∈ cleared →
    ∀ i, entries.findIdx? (fun e => e.id == d.id) = some i → out[i]? = some (Entry.validate d .null)
  required : ∀ d ∈ schema.definitions, d.id ∈ cleared → d.required = true → d.isDerived = false →
    d.id ∈ source.inputs ∧
      Entry.validate d .null = ⟨d.id, .null, false, some InputError.required.message⟩
  optional : ∀ d ∈ schema.definitions, d.id ∈ cleared → d.required = false ∨ d.isDerived = true →
    Entry.validate d .null = .valid d.id .null
  kept : ∀ i, (∀ id ∈ cleared, entries.findIdx? (fun e => e.id == id) ≠ some i) →
    out[i]? = entries[i]?
  own : ∀ (i : Nat) (e : Entry), entries[i]? = some e → e.id = source.id → out[i]? = some e

theorem clearedBy_of_not_isOverridable (h : schema.isOverridable id = false) :
    schema.clearedBy id = [] := by
  simp [clearedBy, h]

theorem nodup_clearedBy (schema : Schema) (id : String) : (schema.clearedBy id).Nodup := by
  rw [clearedBy]
  split
  · exact nodup_withoutRepeats _
  · exact List.nodup_nil

theorem mem_clearedBy_iff (hsource : source ∈ schema.definitions)
    (hoverridable : source.isOverridable = true) : id ∈ schema.clearedBy source.id ↔
      schema.contains id = true ∧ id ≠ source.id ∧
        (id ∈ source.inputs ∨ ∃ input ∈ source.inputs, TransGen schema.ReadBy input id) := by
  have hderived := FieldDefinition.isDerived_of_isOverridable hoverridable
  rw [mem_clearedBy (mem_derived.mpr ⟨hsource, hderived⟩) hoverridable]
  constructor
  · rintro ⟨⟨input, hinput, rfl | hdown⟩, hne, hknown⟩
    · exact ⟨hknown, hne, Or.inl hinput⟩
    · exact ⟨hknown, hne, Or.inr ⟨input, hinput, (mem_downstream_iff.mp hdown).2⟩⟩
  · rintro ⟨hknown, hne, hinput | ⟨input, hinput, hpath⟩⟩
    · exact ⟨⟨id, hinput, Or.inl rfl⟩, hne, hknown⟩
    · -- an input that a path leads back to is emptied as an input
      have hreached : id = input ∨ id ∈ schema.graph.downstream input := by
        by_cases heq : id = input
        · exact Or.inl heq
        · exact Or.inr (mem_downstream_iff.mpr ⟨heq, hpath⟩)
      exact ⟨⟨input, hinput, hreached⟩, hne, hknown⟩

theorem getElem?_override_self (hsource : source ∈ schema.definitions)
    (hoverridable : source.isOverridable = true) {e : Entry} (he : entries[i]? = some e)
    (hid : e.id = source.id) : (schema.override source.id entries)[i]? = some e := by
  rw [override, getElem?_foldl_emptyEntry, he]
  intro other hother hplace
  have hsame : e.id = other := Entry.id_of_findIdx? hplace he
  exact ((mem_clearedBy_iff hsource hoverridable).mp hother).2.1 (hsame.symm.trans hid)

/-- An override of a field empties what its inputs lead to, and only that; an id that is not there or
that may not be overridden empties nothing. -/
theorem override_empties (schema : Schema) (id : String) (entries : List Entry) :
    (∀ source ∈ schema.definitions, source.id = id → source.isOverridable = true →
      schema.Empties source (schema.clearedBy id) entries (schema.override id entries)) ∧
    ((∀ d ∈ schema.definitions, d.id = id → d.isOverridable = false) →
      schema.clearedBy id = [] ∧ schema.override id entries = entries) := by
  constructor
  · rintro source hsource rfl hoverridable
    exact
      { nodup := nodup_clearedBy schema source.id
        mem_iff := fun _ => mem_clearedBy_iff hsource hoverridable
        emptied := fun _ hd hcleared _ hplace => getElem?_override_of_mem hd hcleared hplace
        required := fun d hd hcleared hrequired hplain =>
          ⟨(mem_clearedBy_of_plain hsource hoverridable hd hplain).mp hcleared,
            Entry.validate_null_of_required hrequired hplain⟩
        optional := fun d _ _ h => Entry.validate_null_of_optional h
        kept := fun _ h => getElem?_foldl_emptyEntry h
        own := fun _ _ he hid => getElem?_override_self hsource hoverridable he hid }
  · intro hnone
    have hfixed : schema.isOverridable id = false := by
      rw [isOverridable]
      cases hget : schema.get? id with
      | none => rfl
      | some d => exact hnone d (mem_of_get? hget) (id_of_get? hget)
    have hnil := clearedBy_of_not_isOverridable hfixed
    rw [override, hnil]
    exact ⟨rfl, rfl⟩

theorem override_empties_shipment :
    let entries := [Entry.valid "gross" (.decimal 12), .valid "rate" (.decimal 2),
      .valid "net" (.decimal 10), .valid "rate" (.decimal 3), .valid "note" (.text "gift"),
      .valid "colour" (.text "red"), .valid "total" (.decimal 20), .valid "gross" (.decimal 1)]
    let out := [Entry.valid "gross" (.decimal 12),
      ⟨"rate", .null, false, some InputError.required.message⟩, .valid "net" .null,
      .valid "rate" (.decimal 3), .valid "note" (.text "gift"), .valid "colour" (.text "red"),
      .valid "total" .null, .valid "gross" (.decimal 1)]
    shipment.Empties shipment.definitions[5] ["net", "rate", "total", "fee", "postage"] entries out ∧
      shipment.clearedBy "colour" = [] ∧ shipment.override "colour" entries = entries ∧
      shipment.clearedBy "total" = [] ∧ shipment.override "total" entries = entries := by
  intro entries out
  have hcleared : shipment.clearedBy "gross" = ["net", "rate", "total", "fee", "postage"] := by
    decide +kernel
  have hout : shipment.override "gross" entries = out := by decide +kernel
  have hgross := (override_empties shipment "gross" entries).1 shipment.definitions[5] (by decide)
    rfl rfl
  have hunknown := (override_empties shipment "colour" entries).2 (by decide)
  have hfixed := (override_empties shipment "total" entries).2 (by decide)
  rw [hcleared, hout] at hgross
  exact ⟨hgross, hunknown.1, hunknown.2, hfixed⟩

end Schema

end DerivedForm
