import DerivedForm.Entry.Basic
import DerivedForm.Proofs.Calendar.Suffix
import DerivedForm.Proofs.Number.Spelling

/-!
# Texts that show numbers and dates

What is shown of a finite number is read as that number and as no date, and as a 64-bit integer only if the
number is one. What is shown of a date is no number, because a hyphen follows its year.
-/

namespace DerivedForm

open DerivedForm.Number (Binary64 Finite Numeral Spelling)

namespace Text

theorem dropBlanks_eq_self {s : List Char} (h : ∀ c ∈ s, isBlank c = false) : dropBlanks s = s := by
  cases s with
  | nil => rfl
  | cons c rest =>
    exact List.dropWhile_cons_of_neg (by simp [h c List.mem_cons_self])

theorem trimmed_eq_self {s : List Char} (h : ∀ c ∈ s, isBlank c = false) : trimmed s = s := by
  have hreverse : ∀ c ∈ s.reverse, isBlank c = false := fun c hc => h c (List.mem_reverse.mp hc)
  rw [trimmed, dropBlanks_eq_self h, dropBlanks_eq_self hreverse, List.reverse_reverse]

end Text

theorem commaToPoint_eq_self {s : List Char} (h : ',' ∉ s) : commaToPoint s = s := by
  induction s with
  | nil => rfl
  | cons c rest ih =>
    have hc : c ≠ ',' := fun heq => h (heq ▸ List.mem_cons_self)
    simp [commaToPoint, hc, ih fun hrest => h (List.mem_cons_of_mem c hrest)]

theorem normalizePoint_eq_self {s : List Char} (h : ',' ∉ s) : normalizePoint s = s := by
  simp [normalizePoint, commaToPoint_eq_self h]

namespace Number

namespace Spelling

variable (s : Spelling)

theorem isBlank_chars : ∀ c ∈ s.chars, Text.isBlank c = false := by
  intro c hc
  rcases s.mem_chars hc with rfl | rfl | hdigit
  · decide
  · decide
  · exact Text.isBlank_of_isDigit hdigit

theorem comma_notMem_chars : ',' ∉ s.chars := by
  intro h
  rcases s.mem_chars h with h | h | h <;> exact absurd h (by decide)

theorem hyphen_notMem_tail : '-' ∉ s.chars.tail := by
  have hdigit : Char.isDigit '-' = false := by decide
  have hwhole : '-' ∉ s.whole := notMem_of_isDigit s.isDigit_whole hdigit
  have hfraction : '-' ∉ s.fraction := notMem_of_isDigit s.isDigit_fraction hdigit
  have hunsigned : '-' ∉ s.unsigned := by
    simp only [unsigned]
    split <;> simp [hwhole, hfraction]
  cases hneg : s.negative with
  | true => simpa [chars, hneg] using hunsigned
  | false => exact fun h => hunsigned (List.mem_of_mem_tail (by simpa [chars, hneg] using h))

theorem count_point_chars_le : s.chars.count '.' ≤ 1 := by
  have hdigit : Char.isDigit '.' = false := by decide
  have hwhole : s.whole.count '.' = 0 :=
    List.count_eq_zero.mpr (notMem_of_isDigit s.isDigit_whole hdigit)
  have hfraction : s.fraction.count '.' = 0 :=
    List.count_eq_zero.mpr (notMem_of_isDigit s.isDigit_fraction hdigit)
  simp only [chars, unsigned, List.count_append, hwhole]
  split <;> split <;> simp [hfraction]

theorem readDate?_chars : Calendar.Date.read? (String.ofList s.chars) = none := by
  rw [Calendar.Date.read?, String.toList_ofList, Text.trimmed_eq_self s.isBlank_chars]
  exact Calendar.Date.readChars?_eq_none s.hyphen_notMem_tail s.count_point_chars_le

end Spelling

theorem exists_spelling_integerText (n : Int) : ∃ s : Spelling, integerText n = s.chars := by
  refine ⟨Numeral.wholeSpelling (decide (n < 0)) n.natAbs 0, ?_⟩
  simp [integerText, Spelling.chars, Spelling.unsigned, Numeral.wholeSpelling]

namespace Finite

variable {x : Finite}

theorem readNumber?_text (x : Finite) : readNumber? x.text = some x := by
  obtain ⟨s, hchars, -⟩ := x.exists_spelling
  have hread : Binary64.read? s.chars = some (.finite x) :=
    hchars ▸ Binary64.read?_text (.finite x)
  rw [readNumber?, hchars, Text.trimmed_eq_self s.isBlank_chars,
    normalizePoint_eq_self s.comma_notMem_chars, hread]
  rfl

theorem readDate?_text (x : Finite) : Calendar.Date.read? x.text = none := by
  obtain ⟨s, hchars, -⟩ := x.exists_spelling
  rw [← String.ofList_toList (s := x.text), hchars]
  exact s.readDate?_chars

def int64Bound (negative : Bool) : Finite := ⟨negative, twoPow 52, 11, by decide +kernel⟩

theorem magnitude_int64Bound (negative : Bool) :
    (int64Bound negative).magnitude = twoPow 63 * unitsPerOne := by
  cases negative <;> decide +kernel

theorem readInt64?_text_int64Bound (negative : Bool) :
    readInt64? (int64Bound negative).text.toList = none := by
  cases negative <;> decide +kernel

theorem natAbs_le_of_int64OfInt? {m : Int} {n : Int64} (h : int64OfInt? m = some n) :
    m.natAbs ≤ twoPow 63 := by
  simp only [int64OfInt?] at h
  split at h
  · have hmin : Int64.minValue.toInt = -9223372036854775808 := by decide
    have hmax : Int64.maxValue.toInt = 9223372036854775807 := by decide
    have htwo : twoPow 63 = 9223372036854775808 := by decide
    omega
  · cases h

/-- Digits in the range of 64 bits round to a whole number that is not beyond the bound. -/
theorem magnitude_of_readInt64? {n : Int64} (h : readInt64? x.text.toList = some n) :
    ∃ k, x.magnitude = k * unitsPerOne ∧ k ≤ twoPow 63 := by
  obtain ⟨s, hchars, hnumber⟩ := x.exists_spelling
  rw [hchars, readInt64?, Option.bind_eq_some_iff] at h
  obtain ⟨m, hm, hrange⟩ := h
  have hnumeral := s.numeral_of_readSigned? hm
  have hvalue : s.numeral.value = (m.natAbs : Nat) / (1 : Nat) := by
    rw [hnumeral]
    simp [Numeral.value]
  obtain ⟨y, k, hy, hsize, hk⟩ :=
    Binary64.roundRatio_int64 s.negative (natAbs_le_of_int64OfInt? hrange)
  rw [Binary64.ofNumeral_eq one_pos hvalue, hnumeral, hy] at hnumber
  cases hnumber
  exact ⟨k, magnitude_of_size hsize, hk⟩

theorem readInt64?_eq_none (h : x.toInt64? = none) : readInt64? x.text.toList = none := by
  rw [Option.eq_none_iff_forall_ne_some]
  intro n hn
  obtain ⟨k, hmagnitude, hk⟩ := magnitude_of_readInt64? hn
  rcases Nat.lt_or_eq_of_le hk with hlt | rfl
  · have hwhole : x.isWhole = true := by simp [isWhole, hmagnitude]
    have hrange : x.magnitude < twoPow 63 * unitsPerOne := by
      rw [hmagnitude]
      exact Nat.mul_lt_mul_of_pos_right hlt unitsPerOne_pos
    simp [toInt64?, hwhole, hrange] at h
  · have hbound : x = int64Bound x.negative :=
      eq_of_magnitude_eq rfl (hmagnitude.trans (magnitude_int64Bound _).symm)
    rw [hbound, readInt64?_text_int64Bound] at hn
    cases hn

theorem readInt64?_text (h : x.toInt64? = none) :
    readInt64? (Text.trimmed x.text.toList) = none := by
  obtain ⟨s, hchars, -⟩ := x.exists_spelling
  rw [hchars, Text.trimmed_eq_self s.isBlank_chars, ← hchars]
  exact readInt64?_eq_none h

end Finite

theorem Binary64.refused_text {a : Binary64} (h : a.finite? = none) :
    readInt64? (Text.trimmed a.text.toList) = none ∧ readNumber? a.text = none ∧
      Calendar.Date.read? a.text = none := by
  cases a with
  | nan => exact ⟨by decide +kernel, by decide +kernel, by decide +kernel⟩
  | infinite negative =>
    cases negative <;> exact ⟨by decide +kernel, by decide +kernel, by decide +kernel⟩
  | finite x => cases h

end Number

namespace Calendar.Date

variable (d : Date)

theorem isDigit_padded {width n : Nat} {c : Char} (h : c ∈ padded width n) : c.isDigit = true :=
  (List.mem_append.mp h).elim Numeral.isDigit_of_mem_zeros Numeral.isDigit_digitsOf

theorem padded_ne_nil (width n : Nat) : padded width n ≠ [] := by
  simp [padded, Numeral.digitsOf_ne_nil]

theorem exists_padded_eq_cons (width n : Nat) :
    ∃ c others, padded width n = c :: others ∧ c.isDigit = true := by
  obtain ⟨c, others, hrow⟩ := List.exists_cons_of_ne_nil (padded_ne_nil width n)
  exact ⟨c, others, hrow, isDigit_padded (hrow ▸ List.mem_cons_self)⟩

theorem splitSign_yearText (year : Int) (rest : List Char) :
    Numeral.splitSign (yearText year ++ rest) =
      (decide (year < 0), padded 4 year.natAbs ++ rest) := by
  by_cases hplain : 0 ≤ year ∧ year ≤ 9999
  · obtain ⟨c, others, hrow, hc⟩ := exists_padded_eq_cons 4 year.natAbs
    have hminus : c ≠ '-' := Number.ne_of_isDigit hc (by decide)
    have hplus : c ≠ '+' := Number.ne_of_isDigit hc (by decide)
    simp [yearText, hplain, hrow, Numeral.splitSign, hminus, hplus]
  · by_cases hneg : year < 0 <;> simp [yearText, hplain, hneg, Numeral.splitSign]

theorem exists_splitSign_chars : ∃ negative row rest,
    Numeral.splitSign d.chars = (negative, row ++ '-' :: rest) ∧
      row ≠ [] ∧ ∀ c ∈ row, c.isDigit = true := by
  refine ⟨decide (d.year < 0), padded 4 d.year.natAbs,
    padded 2 d.month ++ '-' :: padded 2 d.day, ?_, padded_ne_nil 4 _, fun _ => isDigit_padded⟩
  rw [chars, List.append_assoc, splitSign_yearText]
  rfl

theorem mem_chars {c : Char} (h : c ∈ d.chars) : c = '-' ∨ c = '+' ∨ c.isDigit = true := by
  have hpadded : ∀ width n, c ∈ padded width n → c.isDigit = true := fun _ _ => isDigit_padded
  simp only [chars, yearText] at h
  grind

theorem trimmed_chars : Text.trimmed d.text.toList = d.chars := by
  rw [text, String.toList_ofList]
  apply Text.trimmed_eq_self
  intro c hc
  rcases d.mem_chars hc with rfl | rfl | hdigit
  · decide
  · decide
  · exact Text.isBlank_of_isDigit hdigit

theorem readUnsigned?_row {row : List Char} (hrow : ∀ c ∈ row, c.isDigit = true) (hne : row ≠ [])
    (negative : Bool) (rest : List Char) :
    Numeral.readUnsigned? negative (row ++ '-' :: rest) = none := by
  have hhyphen : ¬ Char.isDigit '-' = true := by decide
  simp [Numeral.readUnsigned?, List.takeWhile_append_of_pos hrow, List.dropWhile_append_of_pos hrow,
    List.takeWhile_cons_of_neg hhyphen, List.dropWhile_cons_of_neg hhyphen, hne,
    Numeral.splitFraction, Numeral.readExponent?]

theorem toLower_of_isDigit {c : Char} (h : c.isDigit = true) : c.toLower = c := by
  simp only [Char.isDigit, Bool.and_eq_true, decide_eq_true_eq] at h
  have hhigh : c.val.toNat ≤ 57 := h.2
  delta Char.toLower
  split
  · rename_i hupper
    have hlow : 65 ≤ c.val.toNat := hupper.1
    omega
  · rfl

theorem ofWord?_row {row : List Char} (hrow : ∀ c ∈ row, c.isDigit = true) (hne : row ≠ [])
    (negative : Bool) (rest : List Char) : Binary64.ofWord? negative (row ++ rest) = none := by
  obtain ⟨c, others, rfl⟩ := List.exists_cons_of_ne_nil hne
  have hc : c.isDigit = true := hrow c List.mem_cons_self
  have hlower : c.toLower = c := toLower_of_isDigit hc
  have hi : c ≠ 'i' := Number.ne_of_isDigit hc (by decide)
  have hn : c ≠ 'n' := Number.ne_of_isDigit hc (by decide)
  simp [Binary64.ofWord?, hlower, hi, hn]

theorem readNumber?_text : readNumber? d.text = none := by
  obtain ⟨negative, row, rest, hsplit, hne, hrow⟩ := d.exists_splitSign_chars
  have hcomma : ',' ∉ d.chars := by
    intro h
    rcases d.mem_chars h with h | h | h <;> exact absurd h (by decide)
  rw [readNumber?, d.trimmed_chars, normalizePoint_eq_self hcomma]
  simp [Binary64.read?, Numeral.read?, hsplit, readUnsigned?_row hrow hne, ofWord?_row hrow hne]

theorem readInt64?_text : Number.readInt64? (Text.trimmed d.text.toList) = none := by
  obtain ⟨negative, row, rest, hsplit, hne, hrow⟩ := d.exists_splitSign_chars
  have hhyphen : Char.isDigit '-' = false := by decide
  rw [d.trimmed_chars, Number.readInt64?]
  simp [Numeral.readSigned?, hsplit, hhyphen]

end Calendar.Date

end DerivedForm
