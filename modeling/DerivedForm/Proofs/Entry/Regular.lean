import DerivedForm.Proofs.Recalculation.Operands
import DerivedForm.Proofs.Value.Typed

/-!
# Regular entries

Validation leaves three kinds of entries: an accepted value, which is never a NaN, refused text, and
the missing value of a required field that is not computed. So the entry of a computed field can be
invalid only by holding text, and every result replaces it altogether.
-/

namespace DerivedForm

namespace Entry

inductive Regular (d : FieldDefinition) : Entry → Prop
  | accepted {v : Value} (hv : v ≠ .decimal .nan) : Regular d (valid d.id v)
  | refused (text : String) (error : InputError) : Regular d (refused d.id text error)
  | missing (hd : d.isDerived = false) :
      Regular d ⟨d.id, .null, false, some InputError.required.message⟩

variable {d : FieldDefinition} {e : Entry}

theorem empty_value (d : FieldDefinition) : (empty d).value = .null := by
  unfold empty
  split <;> rfl

theorem empty_of_isDerived (h : d.isDerived = true) : empty d = valid d.id .null := by
  simp [empty, h]

theorem regular_empty (d : FieldDefinition) : Regular d (empty d) := by
  unfold empty
  split
  · rename_i h
    simp only [Bool.and_eq_true, Bool.not_eq_true'] at h
    exact .missing h.2
  · exact .accepted (by simp)

theorem validate_of_coerce {input v : Value} (hempty : input.isEmpty = false)
    (h : input.coerce d.type = .ok v) : validate d input = valid d.id v := by
  unfold validate
  rw [hempty, if_neg Bool.false_ne_true, h]

theorem validate_of_refused {input : Value} {error : InputError} (hempty : input.isEmpty = false)
    (h : input.coerce d.type = .error error) :
    validate d input = refused d.id input.display error := by
  unfold validate
  rw [hempty, if_neg Bool.false_ne_true, h]

/-- Validation empties the field, accepts the converted input, or keeps the shown text of refused
input. -/
theorem validate_cases (d : FieldDefinition) (input : Value) :
    (input.isEmpty = true ∧ validate d input = empty d) ∨
      (∃ v, input.isEmpty = false ∧ input.coerce d.type = .ok v ∧
        validate d input = valid d.id v) ∨
      ∃ error, input.isEmpty = false ∧ input.coerce d.type = .error error ∧
        validate d input = refused d.id input.display error := by
  cases hempty : input.isEmpty with
  | true => exact Or.inl ⟨rfl, validate_of_isEmpty d hempty⟩
  | false =>
    right
    cases hcoerce : input.coerce d.type with
    | ok v => exact Or.inl ⟨v, rfl, rfl, validate_of_coerce hempty hcoerce⟩
    | error error => exact Or.inr ⟨error, rfl, rfl, validate_of_refused hempty hcoerce⟩

theorem regular_validate (d : FieldDefinition) (input : Value) : Regular d (validate d input) := by
  rcases validate_cases d input with
    ⟨-, heq⟩ | ⟨v, hempty, hcoerce, heq⟩ | ⟨error, -, -, heq⟩ <;> rw [heq]
  · exact regular_empty d
  · exact .accepted (Value.hasType_coerce hempty hcoerce).ne_nan
  · exact .refused _ _

theorem validate_of_isValid {input : Value} (h : (validate d input).isValid = true) :
    validate d (validate d input).value = validate d input := by
  rcases validate_cases d input with
    ⟨-, heq⟩ | ⟨v, hempty, hcoerce, heq⟩ | ⟨error, -, -, heq⟩ <;> rw [heq] at h ⊢
  · rw [empty_value, validate_of_isEmpty d Value.isEmpty_null]
  · have htype := Value.hasType_coerce hempty hcoerce
    exact validate_of_coerce htype.isEmpty htype.coerce
  · cases h

theorem Regular.id_eq (h : Regular d e) : e.id = d.id := by
  cases h <;> rfl

theorem Regular.ne_nan (h : Regular d e) : e.value ≠ .decimal .nan := by
  cases h with
  | accepted hv => exact hv
  | refused text error => simp [Entry.refused]
  | missing hd => simp

theorem Regular.valid_or_text (h : Regular d e) (hd : d.isDerived = true) :
    e = valid d.id e.value ∨ ∃ s, e.value = .text s := by
  cases h with
  | accepted hv => exact Or.inl rfl
  | refused text error => exact Or.inr ⟨text, rfl⟩
  | missing hnot =>
    rw [hd] at hnot
    cases hnot

theorem Regular.withResult_eq (h : Regular d e) (hd : d.isDerived = true)
    (result : Option Value) : e.withResult result = valid d.id (result.getD .null) := by
  have hid := h.id_eq
  cases result with
  | some v =>
    rw [← hid]
    rfl
  | none =>
    unfold withResult clear
    rw [hid]
    by_cases hnull : e.value = .null
    · rw [if_pos hnull]
      rcases h.valid_or_text hd with hvalid | ⟨s, hs⟩
      · rw [hnull] at hvalid
        exact hvalid
      · rw [hs] at hnull
        cases hnull
    · rw [if_neg hnull]
      rfl

theorem Regular.withResult {values : Bindings} (h : Regular d e) (hd : d.isDerived = true) :
    Regular d (e.withResult (d.compute? values)) := by
  rw [h.withResult_eq hd]
  apply Regular.accepted
  cases hcompute : d.compute? values with
  | none => simp
  | some v => exact (FieldDefinition.compute?_eq_some_iff.mp hcompute).ne_nan

end Entry

end DerivedForm
