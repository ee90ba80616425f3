import Mathlib.Data.List.TakeWhile
import DerivedForm.Calendar.Date

/-!
# What date readers leave

A number of a date takes at least one character, so what follows it is an end of the text without its
first character. A text with no hyphen behind its first character, and with one point at most, is therefore
no date in any pattern.
-/

namespace DerivedForm.Calendar

variable {s rest : List Char} {n width : Nat} {c : Char}

theorem readDigits?_suffix (h : readDigits? width s = some (n, rest)) : rest <:+ s.tail := by
  simp only [readDigits?] at h
  split at h
  · cases h
  · rename_i hdigits
    cases h
    obtain ⟨k, hk⟩ : ∃ k, ((s.take width).takeWhile Char.isDigit).length = k + 1 :=
      Nat.exists_eq_add_one.mpr (List.length_pos_iff.mpr (by simpa using hdigits))
    rw [hk, Nat.add_comm, ← List.drop_drop, List.drop_one]
    exact List.drop_suffix _ _

theorem suffix_of_map {α β : Type} {read : Option (α × List Char)}
    {f : α × List Char → β × List Char} {b : β} (h : read.map f = some (b, rest))
    (hf : ∀ p, (f p).2 = p.2) (hread : ∀ a rest, read = some (a, rest) → rest <:+ s) :
    rest <:+ s := by
  obtain ⟨⟨a, other⟩, ha, heq⟩ := Option.map_eq_some_iff.mp h
  have hrest : other = rest := (hf (a, other)).symm.trans (congrArg Prod.snd heq)
  exact hread a rest (hrest ▸ ha)

theorem readYear?_suffix {year : Int} (h : readYear? s = some (year, rest)) : rest <:+ s.tail := by
  simp only [readYear?] at h
  split at h
  · exact suffix_of_map h (fun _ => rfl)
      (fun _ _ hread => (readDigits?_suffix hread).trans (List.tail_suffix _))
  · exact suffix_of_map h (fun _ => rfl)
      (fun _ _ hread => (readDigits?_suffix hread).trans (List.tail_suffix _))
  · exact suffix_of_map h (fun _ => rfl) (fun _ _ hread => readDigits?_suffix hread)

theorem readMark?_eq_some_iff : readMark? c s = some rest ↔ s = c :: rest := by
  cases s with
  | nil => simp [readMark?]
  | cons first others => by_cases hc : first = c <;> simp [readMark?, hc]

def DatePart.IsNumber (part : DatePart) : Prop := part = .year ∨ part = .month ∨ part = .day

theorem dropBlanks_tail_suffix : (Text.dropBlanks s).tail <:+ s.tail := by
  have h : Text.dropBlanks s <:+ s := List.dropWhile_suffix Text.isBlank
  cases s with
  | nil => exact List.suffix_rfl
  | cons first others =>
    rcases List.suffix_cons_iff.mp h with heq | hrest
    · simp [heq]
    · exact (List.tail_suffix _).trans hrest

theorem DatePart.IsNumber.read?_suffix {part : DatePart} (hpart : part.IsNumber)
    {numbers numbers' : DateNumbers} (h : part.read? numbers s = some (numbers', rest)) :
    rest <:+ s.tail := by
  rcases hpart with rfl | rfl | rfl
  · exact suffix_of_map h (fun _ => rfl)
      (fun _ _ hread => (readYear?_suffix hread).trans dropBlanks_tail_suffix)
  · exact suffix_of_map h (fun _ => rfl)
      (fun _ _ hread => (readDigits?_suffix hread).trans dropBlanks_tail_suffix)
  · exact suffix_of_map h (fun _ => rfl)
      (fun _ _ hread => (readDigits?_suffix hread).trans dropBlanks_tail_suffix)

theorem exists_mark_suffix {part : DatePart} (hpart : part.IsNumber) {parts : List DatePart}
    {numbers out : DateNumbers}
    (h : readParts? (part :: .mark c :: parts) numbers s = some out) :
    ∃ numbers' rest, c :: rest <:+ s.tail ∧ readParts? parts numbers' rest = some out := by
  simp only [readParts?, Option.bind_eq_some_iff] at h
  obtain ⟨⟨numbers₁, rest₁⟩, hnumber, ⟨⟨numbers₂, rest₂⟩, hmark, hparts⟩⟩ := h
  obtain ⟨rest, hread, heq⟩ := Option.map_eq_some_iff.mp hmark
  cases heq
  exact ⟨numbers₁, rest₂, readMark?_eq_some_iff.mp hread ▸ hpart.read?_suffix hnumber, hparts⟩

theorem readPattern?_hyphenated_eq_none (h : '-' ∉ s.tail) :
    readPattern? hyphenated s = none := by
  rw [readPattern?, Option.bind_eq_none_iff]
  intro out hout
  obtain ⟨numbers, rest, hsuffix, -⟩ := exists_mark_suffix (.inl rfl) hout
  exact absurd (hsuffix.subset List.mem_cons_self) h

theorem readPattern?_dotted_eq_none (h : s.count '.' ≤ 1) : readPattern? dotted s = none := by
  rw [readPattern?, Option.bind_eq_none_iff]
  intro out hout
  obtain ⟨numbers₁, rest₁, hfirst, hout₁⟩ := exists_mark_suffix (.inr (.inr rfl)) hout
  obtain ⟨numbers₂, rest₂, hsecond, -⟩ := exists_mark_suffix (.inr (.inl rfl)) hout₁
  have htwo : 2 ≤ s.count '.' :=
    calc 2 ≤ rest₁.count '.' + 1 := by
          have hmem : '.' ∈ rest₁ :=
            (hsecond.trans (List.tail_suffix _)).subset List.mem_cons_self
          have := List.count_pos_iff.mpr hmem
          omega
      _ = ('.' :: rest₁).count '.' := List.count_cons_self.symm
      _ ≤ s.count '.' := (hfirst.trans (List.tail_suffix _)).sublist.count_le '.'
  omega

theorem readFixed?_suffix {most : Nat} (h : readFixed? width most s = some (n, rest)) :
    rest <:+ s.tail := by
  simp only [readFixed?] at h
  split at h
  · rename_i other hread
    split at h
    · cases h
      exact readDigits?_suffix hread
    · cases h
  · cases h

theorem readTimestamp?_eq_none (h : '-' ∉ s.tail) : readTimestamp? s = none := by
  simp only [readTimestamp?, Option.bind_eq_bind, Option.bind_eq_none_iff]
  rintro ⟨year, rest⟩ hyear rest' hmark
  have hrest : rest = '-' :: rest' := readMark?_eq_some_iff.mp hmark
  have hsuffix := readFixed?_suffix hyear
  rw [hrest] at hsuffix
  exact absurd (hsuffix.subset List.mem_cons_self) h

theorem Date.readChars?_eq_none (hhyphen : '-' ∉ s.tail) (hpoint : s.count '.' ≤ 1) :
    readChars? s = none := by
  rw [readChars?, readPattern?_hyphenated_eq_none hhyphen, readPattern?_dotted_eq_none hpoint,
    readTimestamp?_eq_none hhyphen]
  rfl

end DerivedForm.Calendar
