import DerivedForm.Proofs.Calendar.Written
import DerivedForm.Proofs.Form.Invariants
import DerivedForm.Proofs.Payload.Members

/-!
# The types of what is sent

Validation brings input to the type of its field, and what a field of a type holds is sent as the
JSON value of that type. A computed number is not validated: an integer field may hold a fraction
and a date field any number.
-/

namespace DerivedForm

open DerivedForm.Number (Binary64 Finite)

/-- The wire values of a type: null, and an integer, a number, the text of a date, or any text. -/
inductive Wire.HasType : FieldType → Wire → Prop
  | null (type : FieldType) : HasType type .null
  | integer (n : Int64) : HasType .integer (.integer n)
  | decimal (x : Finite) : HasType .decimal (.decimal x)
  | date {s : String} (h : (Calendar.Date.read? s).isSome = true) : HasType .date (.text s)
  | text (s : String) : HasType .text (.text s)

namespace Value

variable {type : FieldType} {v : Value}

theorem HasType.wire (h : HasType type v) : (v.wire type).HasType type := by
  cases h with
  | text hs =>
    rw [wire_text hs]
    exact .text _
  | integer n => exact .integer n
  | decimal x => exact .decimal x
  | date d => exact .date (Option.isSome_iff_exists.mpr ⟨d, d.read?_text⟩)

theorem hasType_wire_number (type : FieldType) (x : Finite) :
    ((Value.decimal (.finite x)).wire type).HasType type ∨
      type = .integer ∧ x.isWhole = false ∧ (Value.decimal (.finite x)).wire type = .decimal x ∨
      type = .date := by
  cases type with
  | text => exact Or.inl (.text _)
  | decimal => exact Or.inl (.decimal x)
  | date => exact Or.inr (Or.inr rfl)
  | integer =>
    have hwire : (Value.decimal (.finite x)).wire .integer = Wire.ofWhole x := rfl
    rw [hwire, Wire.ofWhole]
    cases hwhole : x.isWhole with
    | true => exact Or.inl (.integer _)
    | false => exact Or.inr (Or.inl ⟨rfl, rfl, rfl⟩)

end Value

namespace Entry

variable {d : FieldDefinition} {e : Entry}

def Typed (d : FieldDefinition) (e : Entry) : Prop :=
  e.isValid = true → e.value = .null ∨ Value.HasType d.type e.value ∨
    d.isDerived = true ∧ ∃ x : Finite, e.value = .decimal (.finite x)

theorem typed_validate (d : FieldDefinition) (input : Value) : Typed d (validate d input) := by
  intro hvalid
  rcases validate_cases d input with
    ⟨-, heq⟩ | ⟨v, hempty, hcoerce, heq⟩ | ⟨error, -, -, heq⟩ <;> rw [heq] at hvalid ⊢
  · exact Or.inl (empty_value d)
  · exact Or.inr (Or.inl (Value.hasType_coerce hempty hcoerce))
  · cases hvalid

theorem invariant_typed : Entry.Invariant Typed where
  validate := typed_validate
  withResult := by
    intro d e values hderived _ _
    have hvalue := e.withResult_value (d.compute? values)
    cases hcompute : d.compute? values with
    | none =>
      rw [hcompute] at hvalue
      exact Or.inl hvalue
    | some v =>
      rw [hcompute, Option.getD_some] at hvalue
      rw [hvalue]
      rcases (FieldDefinition.compute?_eq_some_iff.mp hcompute).isNumber with
        ⟨htype, n, rfl⟩ | ⟨x, rfl, -⟩
      · exact Or.inr (Or.inl (htype ▸ .integer n))
      · exact Or.inr (Or.inr ⟨hderived, x, rfl⟩)

theorem Typed.wire (h : Typed d e) (hvalid : e.isValid = true) :
    (e.value.wire d.type).HasType d.type ∨
      d.isDerived = true ∧ ∃ x : Finite, e.value = .decimal (.finite x) ∧
        (d.type = .integer ∧ x.isWhole = false ∧ e.value.wire d.type = .decimal x ∨
          d.type = .date) := by
  rcases h hvalid with hnull | htype | ⟨hderived, x, hx⟩
  · rw [hnull, Value.wire_null]
    exact Or.inl (.null _)
  · exact Or.inl htype.wire
  · rw [hx]
    rcases Value.hasType_wire_number d.type x with htype | hother
    · exact Or.inl htype
    · exact Or.inr ⟨hderived, x, rfl, hother⟩

end Entry

namespace Form

variable {schema : Schema} {options : Options} {form : Form}

/-- The payload of a valid form has the declared types, except that a computed field may hold a
number that its type has no place for: a fraction in an integer field is sent as that number. -/
theorem Reached.payload_hasType (h : form.Reached schema options) (hvalid : form.isValid = true) :
    ∃ payload next, form.beginSave = .ok (payload, next) ∧
      ∀ member ∈ payload, ∃ d ∈ schema.definitions, ∃ e, d.id = member.1 ∧
        form.entry? d.id = some e ∧
        (member.2.HasType d.type ∨
          d.isDerived = true ∧ ∃ x : Finite, e.value = .decimal (.finite x) ∧
            (d.type = .integer ∧ x.isWhole = false ∧ member.2 = .decimal x ∨
              d.type = .date)) := by
  refine ⟨_, _, beginSave_of_valid hvalid, fun member hmember => ?_⟩
  have hform := h.wellFormed
  obtain ⟨d, hd, e, hmem, he, rfl⟩ := hform.exists_of_mem_payload hmember
  have htyped : Entry.Typed d e := h.each Entry.invariant_typed d hd e
    ((hform.entry?_eq d.id).symm.trans he)
  have hentries : form.entries.all Entry.isValid = true := h.coherent.isValid ▸ hvalid
  exact ⟨d, hd, e, rfl, he, htyped.wire (List.all_eq_true.mp hentries e hmem)⟩

end Form

namespace Schema

def delivery : Schema where
  definitions :=
    [⟨"ordered", "Ordered on", .date, true, false, none⟩,
      ⟨"pieces", "Pieces", .integer, true, false, none⟩,
      ⟨"half", "Half of the pieces", .integer, false, false,
        some ⟨"\x7bpieces\x7d / 2", ["pieces"], 1, false⟩⟩,
      ⟨"due", "Due on", .date, false, false,
        some ⟨"\x7bpieces\x7d + 1", ["pieces"], 0, false⟩⟩]
  distinct := by decide

end Schema

namespace Form

theorem Reached.payload_hasType_delivery :
    let form := create .delivery [("ordered", .text "2024-02-29"), ("pieces", .integer 6)] {}
    form.isValid = true ∧ form.payload.find? "half" = some (.integer 3) ∧
      ∃ payload next, form.beginSave = .ok (payload, next) ∧
        ∀ member ∈ payload, ∃ d ∈ Schema.delivery.definitions, ∃ e, d.id = member.1 ∧
          form.entry? d.id = some e ∧
          (member.2.HasType d.type ∨
            d.isDerived = true ∧ ∃ x : Finite, e.value = .decimal (.finite x) ∧
              (d.type = .integer ∧ x.isWhole = false ∧ member.2 = .decimal x ∨
                d.type = .date)) := by
  intro form
  have hform : form.Reached .delivery {} := ⟨_, .empty, [], rfl⟩
  have hvalid : form.isValid = true := by decide +kernel
  exact ⟨hvalid, by decide +kernel, hform.payload_hasType hvalid⟩

/-- Half of five pieces is sent as a fraction for the integer field, and the number six for the
date. -/
theorem Reached.payload_untyped_delivery :
    let form := create .delivery [("ordered", .text "2024-02-29"), ("pieces", .integer 5)] {}
    form.Reached .delivery {} ∧ form.isValid = true ∧
      (∃ x : Finite, Binary64.finite x = 5 / 2 ∧
        form.payload.find? "half" = some (.decimal x) ∧ ¬ (Wire.decimal x).HasType .integer) ∧
      form.payload.find? "due" = some (.text "6") ∧ ¬ (Wire.text "6").HasType .date := by
  intro form
  refine ⟨⟨_, .empty, [], rfl⟩, by decide +kernel, ?_, by decide +kernel, ?_⟩
  · refine ⟨⟨false, 5 * 2 ^ 50, -51, by decide +kernel⟩, by decide +kernel, by decide +kernel, ?_⟩
    exact fun h => nomatch h
  · intro h
    cases h with
    | date hread => exact absurd hread (by decide +kernel)

end Form

end DerivedForm
