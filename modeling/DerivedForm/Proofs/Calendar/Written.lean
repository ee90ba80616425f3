import DerivedForm.Proofs.Value.Shown
import Mathlib.Data.Nat.Digits.Defs

/-!
# Written dates

The text of a date is read as that date. A row of digits is read to its end, where a hyphen or the
end of the text stands; so the hyphenated pattern finds the year with its sign, the month and the
day.
-/

namespace DerivedForm

theorem Text.dropBlanks_cons {c : Char} (h : isBlank c = false) (rest : List Char) :
    dropBlanks (c :: rest) = c :: rest :=
  List.dropWhile_cons_of_neg (by simp [h])

namespace Calendar

open DerivedForm.Number (Numeral)

variable {row rest : List Char} {width n : Nat}

theorem readDigits?_row (hrow : ∀ c ∈ row, c.isDigit = true) (hne : row ≠ [])
    (hwidth : row.length ≤ width) (hrest : ∀ c ∈ rest.head?, c.isDigit = false) :
    readDigits? width (row ++ rest) = some (Numeral.digitsValue row, rest) := by
  have hend : (rest.take (width - row.length)).takeWhile Char.isDigit = [] := by
    cases rest with
    | nil => simp
    | cons c others =>
      have hc : c.isDigit = false := hrest c rfl
      cases width - row.length <;> simp [hc]
  have hdigits : ((row ++ rest).take width).takeWhile Char.isDigit = row := by
    rw [List.take_append, List.take_of_length_le hwidth, List.takeWhile_append_of_pos hrow, hend,
      List.append_nil]
  simp [readDigits?, hdigits, hne]

theorem readYear?_of_ne {c : Char} (hminus : c ≠ '-') (hplus : c ≠ '+') (rest : List Char) :
    readYear? (c :: rest) = (readDigits? 4 (c :: rest)).map fun (n, rest) => ((n : Int), rest) := by
  unfold readYear?
  split <;> simp_all

namespace Date

theorem length_padded (h : n < 10 ^ width) (hwidth : 0 < width) :
    (padded width n).length = width := by
  have hdigits : (Numeral.digitsOf n).length ≤ width := Nat.toDigits_length 10 n width hwidth h
  simp only [padded, List.length_append, List.length_replicate]
  omega

theorem digitsValue_padded (width n : Nat) : Numeral.digitsValue (padded width n) = n := by
  rw [padded, Numeral.digitsValue_zeros_append, Numeral.digitsValue_digitsOf]

theorem readDigits?_padded {limit : Nat} (hwidth : (padded width n).length ≤ limit)
    (hrest : ∀ c ∈ rest.head?, c.isDigit = false) :
    readDigits? limit (padded width n ++ rest) = some (n, rest) := by
  rw [readDigits?_row (fun _ => isDigit_padded) (padded_ne_nil width n) hwidth hrest,
    digitsValue_padded]

theorem dropBlanks_padded (width n : Nat) (rest : List Char) :
    Text.dropBlanks (padded width n ++ rest) = padded width n ++ rest := by
  obtain ⟨c, others, hrow, hc⟩ := exists_padded_eq_cons width n
  rw [hrow, List.cons_append]
  exact Text.dropBlanks_cons (Text.isBlank_of_isDigit hc) _

theorem dropBlanks_yearText (year : Int) (rest : List Char) :
    Text.dropBlanks (yearText year ++ rest) = yearText year ++ rest := by
  unfold yearText
  split
  · exact dropBlanks_padded 4 _ rest
  · split <;> exact Text.dropBlanks_cons (by decide) _

theorem readYear?_yearText (year : Int) (hrest : ∀ c ∈ rest.head?, c.isDigit = false) :
    readYear? (yearText year ++ rest) = some (year, rest) := by
  by_cases hplain : 0 ≤ year ∧ year ≤ 9999
  · obtain ⟨c, others, hrow, hc⟩ := exists_padded_eq_cons 4 year.natAbs
    have hminus : c ≠ '-' := Number.ne_of_isDigit hc (by decide)
    have hplus : c ≠ '+' := Number.ne_of_isDigit hc (by decide)
    have hread : readDigits? 4 (padded 4 year.natAbs ++ rest) = some (year.natAbs, rest) :=
      readDigits?_padded (length_padded (by omega) (by decide)).le hrest
    have hvalue : (year.natAbs : Int) = year := by omega
    rw [hrow, List.cons_append] at hread
    rw [yearText, if_pos hplain, hrow, List.cons_append, readYear?_of_ne hminus hplus, hread]
    exact congrArg (fun y => some (y, rest)) hvalue
  · have hread : readDigits? (padded 4 year.natAbs ++ rest).length
        (padded 4 year.natAbs ++ rest) = some (year.natAbs, rest) :=
      readDigits?_padded (by simp) hrest
    rw [yearText, if_neg hplain]
    by_cases hneg : year < 0
    · have hvalue : -(year.natAbs : Int) = year := by omega
      rw [if_pos hneg, List.cons_append, readYear?, hread]
      exact congrArg (fun y => some (y, rest)) hvalue
    · have hvalue : (year.natAbs : Int) = year := by omega
      rw [if_neg hneg, List.cons_append, readYear?, hread]
      exact congrArg (fun y => some (y, rest)) hvalue

theorem month_lt (d : Date) : d.month < 10 ^ 2 := by
  by_contra hlarge
  have hday := d.isDay.2.2
  have hnone : daysInMonth d.year d.month = 0 := by
    unfold daysInMonth
    split <;> omega
  omega

theorem day_lt (d : Date) : d.day < 10 ^ 2 := by
  have hday := d.isDay.2.2.2
  have hmost : daysInMonth d.year d.month ≤ 31 := by
    unfold daysInMonth
    split <;> first | omega | (split <;> omega)
  omega

theorem read?_text (d : Date) : read? d.text = some d := by
  have hhyphen : ∀ others : List Char, ∀ c ∈ ('-' :: others).head?, c.isDigit = false := by
    intro others c hc
    obtain rfl : '-' = c := by simpa using hc
    decide
  have hmonth : ∀ others, readDigits? 2 (padded 2 d.month ++ '-' :: others) =
      some (d.month, '-' :: others) := fun others =>
    readDigits?_padded (length_padded d.month_lt (by decide)).le (hhyphen others)
  have hday : readDigits? 2 (padded 2 d.day ++ []) = some (d.day, []) :=
    readDigits?_padded (length_padded d.day_lt (by decide)).le (by simp)
  have hdayBlanks := dropBlanks_padded 2 d.day []
  rw [List.append_nil] at hday hdayBlanks
  have hpattern : readPattern? hyphenated d.chars = some d := by
    simp only [readPattern?, hyphenated, readParts?, DatePart.read?, chars, List.append_assoc,
      List.cons_append, dropBlanks_yearText, readYear?_yearText d.year (hhyphen _), readMark?,
      dropBlanks_padded, hmonth, hdayBlanks, hday, Option.map_some, Option.bind_some,
      List.head?_cons, List.tail_cons, if_true, List.isEmpty_nil, ofNumbers?_self]
  rw [read?, d.trimmed_chars, readChars?, hpattern]
  rfl

end Date

end Calendar

end DerivedForm
