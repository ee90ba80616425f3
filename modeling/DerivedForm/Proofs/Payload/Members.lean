import DerivedForm.Form.Session
import DerivedForm.Proofs.Form.Reached

/-!
# The members of a payload

A payload has one member for every field of the schema, and the member of a field is what its value sends:
null if and only if the value is empty.
-/

namespace DerivedForm

namespace Json.Entries

variable {α : Type} {key : String} {value : α} {entries members : Entries α}

theorem perm_insert (h : key ∉ entries.map Prod.fst) (value : α) :
    (entries.insert key value).Perm ((key, value) :: entries) := by
  induction entries with
  | nil => exact List.Perm.refl _
  | cons entry rest ih =>
    obtain ⟨k, v⟩ := entry
    rw [List.map_cons, List.mem_cons, not_or] at h
    simp only [insert, h.1, if_false]
    split
    · exact List.Perm.refl _
    · exact ((ih h.2).cons (k, v)).trans (List.Perm.swap _ _ _)

theorem perm_foldl_insert (entries : Entries α) (h : ((entries ++ members).map Prod.fst).Nodup) :
    (members.foldl (fun entries (key, value) => entries.insert key value) entries).Perm
      (entries ++ members) := by
  induction members generalizing entries with
  | nil => simp
  | cons member rest ih =>
    obtain ⟨key, value⟩ := member
    -- the next member goes somewhere among the entries, and the rest after it
    have hswap : (entries ++ (key, value) :: rest).Perm ((key, value) :: entries ++ rest) :=
      List.perm_middle
    have hfresh : key ∉ entries.map Prod.fst := by
      have hnodup := (hswap.map Prod.fst).nodup_iff.mp h
      rw [List.cons_append, List.map_cons, List.map_append] at hnodup
      exact fun hmem => (List.nodup_cons.mp hnodup).1 (List.mem_append_left _ hmem)
    have hinsert := (perm_insert hfresh value).append_right rest
    rw [List.foldl_cons]
    refine (ih _ ?_).trans (hinsert.trans hswap.symm)
    exact ((hinsert.trans hswap.symm).map Prod.fst).nodup_iff.mpr h

theorem perm_ofList (h : (members.map Prod.fst).Nodup) : (ofList members).Perm members :=
  perm_foldl_insert [] h

theorem find?_of_mem (hkeys : (entries.map Prod.fst).Nodup) (h : (key, value) ∈ entries) :
    entries.find? key = some value := by
  induction entries with
  | nil => cases h
  | cons entry rest ih =>
    obtain ⟨k, v⟩ := entry
    obtain ⟨hk, hrest⟩ := List.nodup_cons.mp hkeys
    rcases List.mem_cons.mp h with heq | hmem
    · cases heq
      simp [find?]
    · have hmem' : key ∈ rest.map Prod.fst := List.mem_map_of_mem hmem
      have hne : key ≠ k := fun heq => hk (heq ▸ hmem')
      simpa [find?, List.lookup_cons, beq_eq_false_iff_ne.mpr hne] using ih hrest hmem

end Json.Entries

theorem Value.wire_eq_null_iff (type : FieldType) (v : Value) :
    v.wire type = .null ↔ v.isEmpty = true := by
  cases hempty : v.isEmpty with
  | true => simp [wire, hempty]
  | false =>
    simp only [wire, hempty, Bool.false_eq_true, if_false, iff_false]
    have hnumber : ∀ ofNumber : Number.Finite → Wire, (∀ x, ofNumber x ≠ .null) →
        v.wireNumber ofNumber ≠ .null := by
      intro ofNumber hne
      simp only [wireNumber]
      split
      · exact hne _
      · simp
    split
    · simp
    · refine hnumber _ fun x => ?_
      simp only [Wire.ofWhole]
      split <;> simp
    · exact hnumber _ fun x => by simp
    · simp

namespace Form

variable {schema : Schema} {options : Options} {form : Form} {d : FieldDefinition} {e : Entry}

theorem WellFormed.get?_of_mem (h : form.WellFormed schema options) (he : e ∈ form.entries) :
    ∃ d ∈ schema.definitions, d.id = e.id ∧ form.schema.get? e.id = some d := by
  obtain ⟨rfl, rfl, hfits⟩ := h
  have hid : e.id ∈ form.schema.definitions.map FieldDefinition.id :=
    hfits.ids ▸ List.mem_map_of_mem he
  obtain ⟨d, hd, hid⟩ := List.mem_map.mp hid
  exact ⟨d, hd, hid, hid ▸ Schema.get?_of_mem hd⟩

theorem WellFormed.keys_members (h : form.WellFormed schema options) :
    (form.entries.filterMap (Payload.member? form.schema)).map Prod.fst =
      schema.definitions.map FieldDefinition.id := by
  rw [← h.fits.ids, List.map_filterMap]
  refine (List.filterMap_congr fun e he => ?_).trans (congrFun List.filterMap_eq_map _)
  obtain ⟨d, -, -, hget⟩ := h.get?_of_mem he
  simp [Payload.member?, hget]

theorem WellFormed.payload_perm (h : form.WellFormed schema options) :
    form.payload.Perm (form.entries.filterMap (Payload.member? form.schema)) :=
  Json.Entries.perm_ofList (h.keys_members ▸ schema.distinct)

theorem WellFormed.keys_payload (h : form.WellFormed schema options) :
    (form.payload.map Prod.fst).Perm (schema.definitions.map FieldDefinition.id) :=
  h.keys_members ▸ h.payload_perm.map Prod.fst

theorem WellFormed.exists_of_mem_payload (h : form.WellFormed schema options)
    {member : String × Wire} (hmember : member ∈ form.payload) :
    ∃ d ∈ schema.definitions, ∃ e ∈ form.entries, form.entry? d.id = some e ∧
      member = (d.id, e.value.wire d.type) := by
  obtain ⟨e, he, hsome⟩ := List.mem_filterMap.mp (h.payload_perm.mem_iff.mp hmember)
  obtain ⟨d, hd, hid, hget⟩ := h.get?_of_mem he
  rw [Payload.member?, hget, Option.map_some] at hsome
  refine ⟨d, hd, e, he, ?_, hid ▸ (Option.some.inj hsome).symm⟩
  rw [h.entry?_eq, hid]
  exact Entry.find?_of_mem (h.fits.ids ▸ schema.distinct) he

theorem WellFormed.find?_payload (h : form.WellFormed schema options)
    (hd : d ∈ schema.definitions) (he : form.entry? d.id = some e) :
    form.payload.find? d.id = some (e.value.wire d.type) := by
  rw [h.entry?_eq] at he
  have hmem := Entry.mem_of_find? he
  have hid := Entry.id_of_find? he
  apply Json.Entries.find?_of_mem (h.keys_payload.nodup_iff.mpr schema.distinct)
  refine h.payload_perm.mem_iff.mpr (List.mem_filterMap.mpr ⟨e, hmem, ?_⟩)
  simp [Payload.member?, hid, h.schema_eq, Schema.get?_of_mem hd]

end Form

end DerivedForm
