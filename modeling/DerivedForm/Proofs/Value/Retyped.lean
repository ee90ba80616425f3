import DerivedForm.Proofs.Calendar.Written
import DerivedForm.Proofs.Value.Refused
import DerivedForm.Payload.Basic
import DerivedForm.Value.OfJson

/-!
# Typing back what is shown

What a form shows of a value of some type is accepted for this type, and as that value: digits are read
as the integer before they are tried as a binary64 number, the text of a finite number is read as it with
its sign, and a date is found by the pattern that writes it. So a user who types what is shown changes
nothing.
-/

namespace DerivedForm

open DerivedForm.Number (Binary64 Finite Numeral Spelling)

namespace Number

theorem Spelling.readSigned?_chars (s : Spelling) (h : s.fraction = []) :
    Numeral.readSigned? s.chars =
      some (if s.negative then -(Numeral.digitsValue s.whole : Int)
        else Numeral.digitsValue s.whole) := by
  have hdigits : s.whole.all Char.isDigit = true := by simpa using s.isDigit_whole
  simp [Numeral.readSigned?, Spelling.splitSign_chars, Spelling.unsigned, h, s.whole_ne_nil, hdigits]

theorem readSigned?_integerText (n : Int) : Numeral.readSigned? (integerText n) = some n := by
  set s := Numeral.wholeSpelling (decide (n < 0)) n.natAbs 0 with hs
  have hwhole : s.whole = Numeral.digitsOf n.natAbs := by simp [hs, Numeral.wholeSpelling]
  have hchars : integerText n = s.chars := by
    simp [integerText, Spelling.chars, Spelling.unsigned, hs, Numeral.wholeSpelling]
  rw [hchars, s.readSigned?_chars rfl, hwhole, Numeral.digitsValue_digitsOf]
  have hsign : s.negative = decide (n < 0) := rfl
  rw [hsign]
  by_cases hneg : n < 0
  · rw [if_pos (decide_eq_true hneg), Int.ofNat_natAbs_of_nonpos hneg.le, Int.neg_neg]
  · rw [if_neg (by simpa using hneg), Int.natAbs_of_nonneg (not_lt.mp hneg)]

theorem readInt64?_integerText (n : Int64) :
    readInt64? (Text.trimmed (integerText n.toInt)) = some n := by
  obtain ⟨s, hchars⟩ := exists_spelling_integerText n.toInt
  rw [hchars, Text.trimmed_eq_self s.isBlank_chars, ← hchars, readInt64?, readSigned?_integerText]
  exact int64OfInt?_toInt n

end Number

namespace Value

variable {type : FieldType} {v input : Value}

theorem toDate_text (d : Calendar.Date) : (Value.text d.text).toDate = .ok (.date d) := by
  simp only [toDate, d.read?_text]

/-- The values of a type: any text, also a blank one, any 64-bit integer, any finite number with its
sign, and any date. -/
inductive OfType : FieldType → Value → Prop
  | text (s : String) : OfType .text (.text s)
  | integer (n : Int64) : OfType .integer (.integer n)
  | decimal (x : Finite) : OfType .decimal (.decimal (.finite x))
  | date (d : Calendar.Date) : OfType .date (.date d)

theorem HasType.ofType (h : HasType type v) : OfType type v := by
  cases h with
  | text h => exact .text _
  | integer n => exact .integer n
  | decimal x => exact .decimal x
  | date d => exact .date d

theorem ofType_of_coerce (h : input.coerce type = .ok v) : OfType type v := by
  cases type with
  | text =>
    cases h
    exact .text _
  | integer => exact (hasType_toInteger h).ofType
  | decimal => exact (hasType_toDecimal h).ofType
  | date => exact (hasType_toDate h).ofType

theorem OfType.coerce_shown (h : OfType type v) :
    (Value.text v.display).coerce type = .ok v := by
  cases h with
  | text s => rfl
  | integer n => simp [coerce, toInteger, display, Number.readInt64?_integerText]
  | decimal x => simp [coerce, toDecimal, display, Binary64.text, Finite.readNumber?_text]
  | date d => exact toDate_text d

theorem ofType_iff_coerce_shown :
    OfType type v ↔ (Value.text v.display).coerce type = .ok v :=
  ⟨OfType.coerce_shown, ofType_of_coerce⟩

end Value

namespace Entry

theorem validate_shown (d : FieldDefinition) (input : Value) :
    validate d (.text (validate d input).value.display) = validate d input := by
  have hagain := validate_validate d input
  rcases typed_or_text d input with hnull | ⟨-, htype⟩ | ⟨-, htext⟩
  · rw [hnull] at hagain ⊢
    exact hagain
  · have htext := Value.isEmpty_text_display htype.isEmpty
    calc validate d (.text (validate d input).value.display)
        = valid d.id (validate d input).value :=
          validate_of_coerce htext htype.ofType.coerce_shown
      _ = validate d (validate d input).value :=
          (validate_of_coerce htype.isEmpty htype.coerce).symm
      _ = validate d input := hagain
  · rw [htext] at hagain ⊢
    exact hagain

end Entry

/-- A value comes out of the coercion to a type exactly if it is one of the type, and then the text that
shows it is coerced to it. So no entry is changed by typing back what is shown of it. -/
theorem Value.coerce_display :
    (∀ type v, (∃ input : Value, input.coerce type = .ok v) ↔ OfType type v) ∧
      (∀ type v, OfType type v ↔ (Value.text v.display).coerce type = .ok v) ∧
      ∀ (d : FieldDefinition) (input : Value),
        Entry.validate d (.text (Entry.validate d input).value.display) =
          Entry.validate d input := by
  refine ⟨fun type v => ⟨?_, fun h => ⟨_, h.coerce_shown⟩⟩, fun type v => ofType_iff_coerce_shown,
    Entry.validate_shown⟩
  rintro ⟨input, h⟩
  exact ofType_of_coerce h

/-!
## Reading back what was sent

The JSON of a value does not name its type: a date arrives as a text, and an integer as a number like
any other. All other values arrive as they were, and validation finds the date in its text, so that a
field has its entry again.
-/

namespace Value

variable {type : FieldType} {v : Value}

theorem HasType.ofJson_wire (h : HasType type v) :
    ofJson (v.wire type).json = v ∨ ∃ d, v = .date d ∧ ofJson (v.wire type).json = .text d.text := by
  cases h with
  | text hs =>
    rw [wire_text hs]
    exact Or.inl rfl
  | integer n =>
    have hjson : ofJson ((Value.integer n).wire .integer).json = ofJsonNumber (.integer n.toInt) := rfl
    rw [hjson, ofJsonNumber, Number.int64OfInt?_toInt]
    exact Or.inl rfl
  | decimal x => exact Or.inl rfl
  | date d => exact Or.inr ⟨d, rfl, rfl⟩

theorem HasType.isEmpty_ofJson_wire (h : HasType type v) :
    (ofJson (v.wire type).json).isEmpty = false := by
  rcases h.ofJson_wire with hsame | ⟨d, -, htext⟩
  · rw [hsame, h.isEmpty]
  · rw [htext]
    exact d.allBlank_text

theorem HasType.coerce_ofJson_wire (h : HasType type v) :
    (ofJson (v.wire type).json).coerce type = .ok v := by
  rcases h.ofJson_wire with hsame | ⟨d, rfl, htext⟩
  · rw [hsame, h.coerce]
  · cases h
    rw [htext]
    exact toDate_text d

end Value

namespace Entry

/-- Validation makes of what was sent for a valid entry that entry again. -/
theorem validate_ofJson_wire (d : FieldDefinition) {input : Value}
    (h : (validate d input).isValid = true) :
    validate d (Value.ofJson ((validate d input).value.wire d.type).json) = validate d input := by
  have hagain := validate_validate d input
  rcases typed_or_text d input with hnull | ⟨-, htype⟩ | ⟨hinvalid, -⟩
  · rw [hnull] at hagain ⊢
    exact hagain
  · rw [← hagain, validate_of_coerce htype.isEmpty htype.coerce]
    exact validate_of_coerce htype.isEmpty_ofJson_wire htype.coerce_ofJson_wire
  · rw [hinvalid] at h
    cases h

theorem validate_ofJson_wire_founded :
    let founded : FieldDefinition := ⟨"founded", "Founded", .date, true, false, none⟩
    let rome := validate founded (.text "21.04.-753")
    let colony := validate founded (.text "+12345-01-31")
    (rome.isValid = true ∧ (rome.value.wire .date).json = .string "-0753-04-21" ∧
        validate founded (Value.ofJson (rome.value.wire .date).json) = rome) ∧
      colony.isValid = true ∧ (colony.value.wire .date).json = .string "+12345-01-31" ∧
        validate founded (Value.ofJson (colony.value.wire .date).json) = colony := by
  intro founded rome colony
  have hrome : rome.isValid = true := by decide +kernel
  have hcolony : colony.isValid = true := by decide +kernel
  have hback := validate_ofJson_wire founded hrome
  have hback' := validate_ofJson_wire founded hcolony
  have htext : rome.value.wire .date = .text "-0753-04-21" := by decide +kernel
  have htext' : colony.value.wire .date = .text "+12345-01-31" := by decide +kernel
  exact ⟨⟨hrome, congrArg Wire.json htext, hback⟩, hcolony, congrArg Wire.json htext', hback'⟩

end Entry

end DerivedForm
