import DerivedForm.Proofs.Form.Baseline
import DerivedForm.Proofs.Payload.Members
import DerivedForm.Proofs.Payload.Unchanged

/-!
# The numbers of a payload

A numeric field that holds a number sends a number. An integer is held by an integer field alone and is
sent as that integer. A decimal number is sent unchanged, as an integer if an integer field holds a whole
one; but a whole number beyond the 64-bit integers, which a formula can yield, is sent as the nearest of
them.
-/

namespace DerivedForm

open DerivedForm.Number (Binary64 Finite unitsPerOne twoPow)

namespace Value

/-- The exact number that the value holds, in units of `2 ^ -1074`, if it holds an integer or a finite
decimal number. -/
def units? : Value → Option Int
  | .integer n => some (n.toInt * unitsPerOne)
  | .decimal x => x.finite?.map Finite.units
  | .null | .text _ | .date _ => none

def Overflows : Value → Prop
  | .decimal (.finite x) => x.isWhole = true ∧
      ¬ (Int64.minValue.toInt ≤ x.truncate ∧ x.truncate ≤ Int64.maxValue.toInt)
  | _ => False

end Value

namespace Number.Finite

variable {x : Finite}

theorem units_toInt64Clamped_iff (h : x.isWhole = true) :
    x.toInt64Clamped.toInt * unitsPerOne = x.units ↔
      Int64.minValue.toInt ≤ x.truncate ∧ x.truncate ≤ Int64.maxValue.toInt := by
  have hunit : (unitsPerOne : Int) ≠ 0 := by exact_mod_cast Number.unitsPerOne_pos.ne'
  rw [units_of_isWhole h, mul_left_inj' hunit, toInt64Clamped]
  constructor
  · intro heq
    rw [← heq]
    exact ⟨Int64.minValue_le_toInt _, Int64.toInt_le _⟩
  · exact fun hrange => Int64.toInt_ofIntClamp hrange.1 hrange.2

end Number.Finite

namespace Value

variable {type : FieldType} {v : Value} {u : Int}

theorem units?_ofWhole (x : Finite) : ∃ sent, (Wire.ofWhole x).units? = some sent ∧
    (sent = x.units ↔ ¬ (Value.decimal (.finite x)).Overflows) := by
  by_cases hwhole : x.isWhole = true
  · refine ⟨_, by rw [Wire.ofWhole, if_pos hwhole]; rfl, ?_⟩
    rw [Finite.units_toInt64Clamped_iff hwhole]
    simp [Overflows, hwhole]
  · refine ⟨x.units, by rw [Wire.ofWhole, if_neg hwhole]; rfl, ?_⟩
    simp [Overflows, hwhole]

/-- A number that a field can hold is sent as a number, and as itself unless it is a whole number beyond
the 64-bit integers in an integer field. -/
theorem Held.units?_wire (hv : v.Held type) (htype : type = .integer ∨ type = .decimal)
    (hu : v.units? = some u) : ∃ sent, (v.wire type).units? = some sent ∧
      (sent = u ↔ ¬ (type = .integer ∧ v.Overflows)) := by
  cases hv with
  | null | text | date => cases hu
  | integer n hinteger =>
    cases hu
    subst hinteger
    exact ⟨_, rfl, iff_of_true rfl fun h => h.2⟩
  | decimal x hx =>
    cases hu
    rcases htype with rfl | rfl
    · obtain ⟨sent, hsent, hexact⟩ := units?_ofWhole x
      exact ⟨sent, hsent, by simpa using hexact⟩
    · exact ⟨x.units, rfl, iff_of_true rfl fun h => by cases h.1⟩

end Value

theorem Entry.not_overflows_validate {d : FieldDefinition} (htype : d.type = .integer)
    (input : Value) : ¬ (validate d input).value.Overflows := by
  rcases validate_cases d input with
    ⟨-, heq⟩ | ⟨v, hempty, hcoerce, heq⟩ | ⟨error, -, -, heq⟩ <;> rw [heq]
  · rw [empty_value]
    exact fun h => h
  · have hv := Value.hasType_coerce hempty hcoerce
    rw [htype] at hv
    cases hv with
    | integer n => exact fun h => h
  · exact fun h => h

namespace Form

variable {schema : Schema} {options : Options} {form : Form} {d : FieldDefinition} {e : Entry}
  {u : Int}

/-- The member of a numeric field that holds an integer or a finite decimal number is a number. An integer
is sent as that integer, and every number as itself, except that a computed integer field sends a whole
number beyond the 64-bit integers as another one. -/
theorem Reached.sends_number (h : form.Reached schema options) (hd : d ∈ schema.definitions)
    (htype : d.type = .integer ∨ d.type = .decimal) (he : form.entry? d.id = some e)
    (hu : e.value.units? = some u) :
    ∃ w sent, form.payload.find? d.id = some w ∧ w.units? = some sent ∧
      (sent = u ↔ ¬ (d.type = .integer ∧ e.value.Overflows)) ∧
      (d.isDerived = false → sent = u) ∧
      ∀ n, e.value = .integer n → d.type = .integer ∧ w = .integer n := by
  have hform := h.wellFormed
  have hfind := (hform.entry?_eq d.id).symm.trans he
  have hheld : e.value.Held d.type := h.each Entry.invariant_holds d hd e hfind
  obtain ⟨sent, hsent, hexact⟩ := hheld.units?_wire htype hu
  refine ⟨_, sent, hform.find?_payload hd he, hsent, hexact, fun hplain => ?_, fun n hn => ?_⟩
  · rw [hexact]
    rintro ⟨hinteger, hoverflows⟩
    obtain ⟨input, rfl⟩ := h.each Entry.invariant_validated d hd e hfind hplain
    exact Entry.not_overflows_validate hinteger input hoverflows
  · rw [hn] at hheld ⊢
    cases hheld with
    | integer n hinteger =>
      rw [hinteger]
      exact ⟨rfl, rfl⟩

end Form

namespace Schema

def stock : Schema where
  definitions :=
    [⟨"boxes", "Boxes", .integer, true, false, none⟩,
      ⟨"pieces", "Pieces", .integer, false, false,
        some ⟨"\x7bboxes\x7d * 10000000000", ["boxes"], 0, false⟩⟩]
  distinct := by decide

end Schema

namespace Form

theorem Reached.sends_number_stock :
    let form := create .stock [("boxes", .integer 3)] {}
    form.entry? "pieces" = some (.valid "pieces" (.integer 30000000000)) ∧
      ∃ w sent, form.payload.find? "pieces" = some w ∧ w.units? = some sent ∧
        sent = (30000000000 : Int64).toInt * unitsPerOne ∧ w = .integer 30000000000 := by
  intro form
  have hform : form.Reached .stock {} := ⟨_, .empty, [], rfl⟩
  have he : form.entry? "pieces" = some (.valid "pieces" (.integer 30000000000)) := by
    decide +kernel
  obtain ⟨w, sent, hw, hsent, hexact, -, hinteger⟩ :=
    hform.sends_number (d := Schema.stock.definitions[1]) (List.getElem_mem _) (Or.inl rfl) he rfl
  exact ⟨he, w, sent, hw, hsent, hexact.mpr fun h => h.2, (hinteger _ rfl).2⟩

/-- A computed number of pieces beyond the 64-bit integers is held exactly, and sent as another one. -/
theorem Reached.sends_other_number_stock :
    let form := create .stock [("boxes", .integer 10000000000)] {}
    form.Reached .stock {} ∧ form.isValid = true ∧
      form.entry? "pieces" = some (.valid "pieces" (.decimal 100000000000000000000)) ∧
      form.payload.find? "pieces" = some (.integer 9223372036854775807) ∧
      (Wire.integer 9223372036854775807).units? ≠
        (Value.decimal 100000000000000000000).units? := by
  refine ⟨⟨_, .empty, [], rfl⟩, ?_, ?_, ?_, ?_⟩ <;> decide +kernel

end Form

end DerivedForm
