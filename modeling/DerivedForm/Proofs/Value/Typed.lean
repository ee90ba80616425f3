import DerivedForm.Entry.Basic
import DerivedForm.Proofs.Number.Exact

/-!
# Typed values

Validation accepts input as a value of the type of its field: a text that is not blank, a 64-bit
integer, a finite number or a date. A value of a type is accepted again as it is, because a text that
shows a value is never blank and the binary64 number of a 64-bit integer is finite.
-/

namespace DerivedForm

open DerivedForm.Number (Binary64 Finite Numeral)

namespace Text

theorem allBlank_ofList {s : List Char} {c : Char} (hc : c ∈ s) (h : isBlank c = false) :
    allBlank (String.ofList s) = false := by
  unfold allBlank
  rw [String.toList_ofList, List.all_eq_false]
  exact ⟨c, hc, Bool.not_eq_true _ ▸ h⟩

theorem isBlank_of_isDigit {c : Char} (h : c.isDigit = true) : isBlank c = false := by
  simp only [Char.isDigit, Bool.and_eq_true, decide_eq_true_eq] at h
  have hlow : 48 ≤ c.toNat := h.1
  have hhigh : c.toNat ≤ 57 := h.2
  simp [isBlank]
  omega

end Text

namespace Number

theorem Numeral.exists_digit (n : Nat) : ∃ c ∈ digitsOf n, Text.isBlank c = false := by
  obtain ⟨c, hc⟩ := List.exists_mem_of_ne_nil _ (Nat.toDigits_ne_nil (n := n) (b := 10))
  exact ⟨c, hc, Text.isBlank_of_isDigit (Nat.isDigit_of_mem_toDigits (by decide) le_rfl hc)⟩

theorem Numeral.allBlank_positional (n : Numeral) :
    Text.allBlank (String.ofList n.positional) = false := by
  obtain ⟨c, hc, hblank⟩ := Numeral.exists_digit n.coefficient
  unfold Numeral.positional
  dsimp only
  split
  · exact Text.allBlank_ofList
      (List.mem_append_right _ (List.mem_append_left _ hc)) hblank
  · refine Text.allBlank_ofList (c := '.') (List.mem_append_right _ ?_) (by decide)
    unfold Numeral.pointed
    exact List.mem_append_right _ List.mem_cons_self

theorem Binary64.allBlank_text (x : Binary64) : Text.allBlank x.text = false := by
  match x with
  | .nan => decide
  | .infinite false => decide
  | .infinite true => decide
  | .finite x => exact Numeral.allBlank_positional _

theorem allBlank_integerText (n : Int) : Text.allBlank (String.ofList (integerText n)) = false := by
  obtain ⟨c, hc, hblank⟩ := Numeral.exists_digit n.natAbs
  exact Text.allBlank_ofList (List.mem_append_right _ hc) hblank

end Number

theorem Calendar.Date.allBlank_text (d : Calendar.Date) : Text.allBlank d.text = false := by
  refine Text.allBlank_ofList (c := '-') ?_ (by decide)
  unfold chars
  exact List.mem_append_left _ (List.mem_append_right _ List.mem_cons_self)

namespace Value

theorem isEmpty_text_display {v : Value} (h : v.isEmpty = false) :
    (Value.text v.display).isEmpty = false := by
  cases v with
  | null => cases h
  | text s => exact h
  | integer n => exact Number.allBlank_integerText n.toInt
  | decimal x => exact x.allBlank_text
  | date d => exact d.allBlank_text

/-- The value is one of those that validation accepts for the type. -/
inductive HasType : FieldType → Value → Prop
  | text {s : String} (h : (Value.text s).isEmpty = false) : HasType .text (.text s)
  | integer (n : Int64) : HasType .integer (.integer n)
  | decimal (x : Finite) : HasType .decimal (.decimal (.finite x))
  | date (d : Calendar.Date) : HasType .date (.date d)

theorem HasType.isEmpty {type : FieldType} {v : Value} (h : HasType type v) :
    v.isEmpty = false := by
  cases h with
  | text h => exact h
  | integer n => rfl
  | decimal x => rfl
  | date d => rfl

theorem HasType.coerce {type : FieldType} {v : Value} (h : HasType type v) :
    v.coerce type = .ok v := by
  cases h with
  | text h => rfl
  | integer n => rfl
  | decimal x => rfl
  | date d => rfl

theorem HasType.ne_nan {type : FieldType} {v : Value} (h : HasType type v) :
    v ≠ .decimal .nan := by
  cases h <;> simp

theorem hasType_integerOf {x : Finite} {text : String} {v : Value}
    (h : integerOf x text = .ok v) : HasType .integer v := by
  unfold integerOf at h
  split at h
  · cases h
    exact .integer _
  · cases h

theorem hasType_toInteger {input v : Value} (h : input.toInteger = .ok v) :
    HasType .integer v := by
  unfold toInteger at h
  split at h
  · cases h
    exact .integer _
  · split at h
    · exact hasType_integerOf h
    · cases h
  · split at h
    · cases h
      exact .integer _
    · split at h
      · exact hasType_integerOf h
      · cases h
  · cases h

theorem hasType_of_isFinite {x : Binary64} (h : x.isFinite = true) :
    HasType .decimal (.decimal x) := by
  obtain ⟨y, rfl⟩ := (Binary64.isFinite_eq_true_iff x).mp h
  exact .decimal y

theorem hasType_toDecimal {input v : Value} (h : input.toDecimal = .ok v) :
    HasType .decimal v := by
  unfold toDecimal at h
  split at h
  · cases h
    exact hasType_of_isFinite (Binary64.isFinite_ofInt _)
  · split at h
    · cases h
      exact hasType_of_isFinite ‹_›
    · cases h
  · split at h
    · cases h
      exact .decimal _
    · cases h
  · cases h

theorem hasType_toDate {input v : Value} (h : input.toDate = .ok v) : HasType .date v := by
  unfold toDate at h
  split at h
  · cases h
    exact .date _
  · split at h
    · cases h
      exact .date _
    · cases h
  · cases h

theorem hasType_coerce {type : FieldType} {input v : Value} (hinput : input.isEmpty = false)
    (h : input.coerce type = .ok v) : HasType type v := by
  cases type with
  | text =>
    cases h
    exact .text (isEmpty_text_display hinput)
  | integer => exact hasType_toInteger h
  | decimal => exact hasType_toDecimal h
  | date => exact hasType_toDate h

end Value

end DerivedForm
