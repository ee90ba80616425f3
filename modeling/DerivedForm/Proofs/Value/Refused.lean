import DerivedForm.Proofs.Entry.Regular
import DerivedForm.Proofs.Value.Shown

/-!
# Refused input

Input that a field refuses is kept as the text that shows it, and that text is refused again, for the same
reason. So validation leaves alone what it has made of some input.
-/

namespace DerivedForm

open DerivedForm.Number (Binary64 Finite)

namespace Value

variable {type : FieldType} {input : Value} {error : InputError}

theorem toInteger_text {s : String} (hinteger : Number.readInt64? (Text.trimmed s.toList) = none)
    (hnumber : readNumber? s = none) : (Value.text s).toInteger = .error (.notANumber s) := by
  simp only [toInteger, hinteger, hnumber]

theorem toInteger_text_of_not_finite {a : Binary64} (h : a.finite? = none) :
    (Value.text a.text).toInteger = .error (.notANumber a.text) := by
  obtain ⟨hinteger, hnumber, -⟩ := Binary64.refused_text h
  exact toInteger_text hinteger hnumber

theorem toInteger_text_display (h : input.toInteger = .error error)
    (hempty : input.isEmpty = false) : (Value.text input.display).toInteger = .error error := by
  cases input with
  | null => cases hempty
  | text s => exact h
  | integer n => cases h
  | date d =>
    cases h
    exact toInteger_text d.readInt64?_text d.readNumber?_text
  | decimal a =>
    cases a with
    | finite x =>
      have hnone : x.toInt64? = none := by
        cases hx : x.toInt64? with
        | none => rfl
        | some n => simp [toInteger, Binary64.finite?, integerOf, hx] at h
      simpa [toInteger, Binary64.finite?, display, Finite.readInt64?_text hnone,
        Finite.readNumber?_text, Binary64.text] using h
    | nan =>
      cases h
      exact toInteger_text_of_not_finite (a := .nan) rfl
    | infinite negative =>
      cases h
      exact toInteger_text_of_not_finite (a := .infinite negative) rfl

theorem toDecimal_text {s : String} (hnumber : readNumber? s = none) :
    (Value.text s).toDecimal = .error (.notANumber s) := by
  simp only [toDecimal, hnumber]

theorem toDecimal_text_of_not_finite {a : Binary64} (h : a.finite? = none) :
    (Value.text a.text).toDecimal = .error (.notANumber a.text) :=
  toDecimal_text (Binary64.refused_text h).2.1

theorem toDecimal_text_display (h : input.toDecimal = .error error)
    (hempty : input.isEmpty = false) : (Value.text input.display).toDecimal = .error error := by
  cases input with
  | null => cases hempty
  | text s => exact h
  | integer n => cases h
  | date d =>
    cases h
    exact toDecimal_text d.readNumber?_text
  | decimal a =>
    cases a with
    | finite x => cases h
    | nan =>
      cases h
      exact toDecimal_text_of_not_finite (a := .nan) rfl
    | infinite negative =>
      cases h
      exact toDecimal_text_of_not_finite (a := .infinite negative) rfl

theorem toDate_text_display (h : input.toDate = .error error)
    (hempty : input.isEmpty = false) : (Value.text input.display).toDate = .error error := by
  cases input with
  | null => cases hempty
  | text s => exact h
  | date d => cases h
  | integer n =>
    obtain ⟨s, hchars⟩ := Number.exists_spelling_integerText n.toInt
    cases h
    simp [toDate, display, hchars, s.readDate?_chars]
  | decimal a =>
    cases h
    have hnone : Calendar.Date.read? a.text = none := by
      cases a with
      | finite x => exact x.readDate?_text
      | nan => exact (Binary64.refused_text (a := .nan) rfl).2.2
      | infinite negative => exact (Binary64.refused_text (a := .infinite negative) rfl).2.2
    simp [toDate, display, hnone]

theorem coerce_text_display (h : input.coerce type = .error error)
    (hempty : input.isEmpty = false) :
    (Value.text input.display).coerce type = .error error := by
  cases type with
  | text => cases h
  | integer =>
    rw [coerce] at h ⊢
    exact toInteger_text_display h hempty
  | decimal =>
    rw [coerce] at h ⊢
    exact toDecimal_text_display h hempty
  | date =>
    rw [coerce] at h ⊢
    exact toDate_text_display h hempty

end Value

namespace InputError

theorem message_ne_required {error : InputError} (h : error ≠ .required) :
    error.message ≠ InputError.required.message := by
  intro heq
  have hhead : error.message.toList.head? = some 'T' := by
    rw [heq]
    rfl
  cases error with
  | required => exact h rfl
  | notANumber text | notAnInteger text | invalidDate text =>
    simp only [message, String.toList_append, List.append_assoc] at hhead
    change some _ = some 'T' at hhead
    exact absurd (Option.some.inj hhead) (by decide)

end InputError

theorem Value.ne_required_of_coerce {type : FieldType} {input : Value} {error : InputError}
    (h : input.coerce type = .error error) : error ≠ .required := by
  rintro rfl
  cases type with
  | text => cases h
  | integer => cases input <;> simp only [coerce, toInteger, integerOf] at h <;> grind
  | decimal => cases input <;> simp only [coerce, toDecimal] at h <;> grind
  | date => cases input <;> simp only [coerce, toDate] at h <;> grind

namespace Entry

theorem validate_validate (d : FieldDefinition) (input : Value) :
    validate d (validate d input).value = validate d input := by
  cases hvalid : (validate d input).isValid with
  | true => exact validate_of_isValid hvalid
  | false =>
    rcases validate_cases d input with
      ⟨-, heq⟩ | ⟨v, -, -, heq⟩ | ⟨error, hempty, hcoerce, heq⟩
    · rw [heq, empty_value, validate_of_isEmpty d Value.isEmpty_null]
    · rw [heq] at hvalid
      cases hvalid
    · have htext := Value.isEmpty_text_display hempty
      rw [heq]
      exact validate_of_refused htext (Value.coerce_text_display hcoerce hempty)

theorem typed_or_text (d : FieldDefinition) (input : Value) :
    (validate d input).value = .null ∨
      (validate d input).isValid = true ∧ Value.HasType d.type (validate d input).value ∨
      (validate d input).isValid = false ∧ (validate d input).value = .text input.display := by
  rcases validate_cases d input with
    ⟨-, heq⟩ | ⟨v, hempty, hcoerce, heq⟩ | ⟨error, -, -, heq⟩ <;> rw [heq]
  · exact Or.inl (empty_value d)
  · exact Or.inr (Or.inl ⟨rfl, Value.hasType_coerce hempty hcoerce⟩)
  · exact Or.inr (Or.inr ⟨rfl, rfl⟩)

theorem required_iff (d : FieldDefinition) (input : Value) :
    (validate d input).isValid = false ∧
        (validate d input).error = some InputError.required.message ↔
      input.isEmpty = true ∧ d.required = true ∧ d.isDerived = false := by
  rcases validate_cases d input with
    ⟨hempty, heq⟩ | ⟨v, hempty, -, heq⟩ | ⟨error, hempty, hcoerce, heq⟩ <;> rw [heq, hempty]
  · rw [empty]
    cases d.required <;> cases d.isDerived <;> simp [valid]
  · simp [valid]
  · have hmessage := InputError.message_ne_required (Value.ne_required_of_coerce hcoerce)
    simp [refused, hmessage]

/-- Validation accepts a value of the type of the field or keeps the shown text, misses a value where it
is required, and leaves alone what it has made. -/
theorem validate_typed (d : FieldDefinition) (input : Value) :
    ((validate d input).value = .null ∨
      (validate d input).isValid = true ∧ Value.HasType d.type (validate d input).value ∨
      (validate d input).isValid = false ∧ (validate d input).value = .text input.display) ∧
    ((validate d input).isValid = false ∧
        (validate d input).error = some InputError.required.message ↔
      input.isEmpty = true ∧ d.required = true ∧ d.isDerived = false) ∧
    validate d (validate d input).value = validate d input :=
  ⟨typed_or_text d input, required_iff d input, validate_validate d input⟩

end Entry

end DerivedForm
