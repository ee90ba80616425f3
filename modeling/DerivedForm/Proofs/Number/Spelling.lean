import Mathlib.Data.List.TakeWhile
import DerivedForm.Number.Numeral
import DerivedForm.Proofs.Number.Shortest
import DerivedForm.Proofs.Value.Typed

/-!
# Spelled numbers

Numbers are shown without a power of ten: a sign, a row of digits, and a point with more digits if there
is a fraction. A text of this kind is read as its digits say, and the text of a number is read as the
number.
-/

namespace DerivedForm.Number

theorem ne_of_isDigit {c mark : Char} (hc : c.isDigit = true) (hmark : mark.isDigit = false) :
    c ≠ mark := by
  rintro rfl
  simp [hc] at hmark

theorem notMem_of_isDigit {s : List Char} {mark : Char} (h : ∀ c ∈ s, c.isDigit = true)
    (hmark : mark.isDigit = false) : mark ∉ s :=
  fun hmem => ne_of_isDigit (h mark hmem) hmark rfl

/-- A sign, at least one digit, and the digits after the point if there is one. -/
structure Spelling where
  negative : Bool
  whole : List Char
  fraction : List Char
  whole_ne_nil : whole ≠ []
  isDigit_whole : ∀ c ∈ whole, c.isDigit = true
  isDigit_fraction : ∀ c ∈ fraction, c.isDigit = true

namespace Spelling

variable (s : Spelling)

def unsigned : List Char := s.whole ++ if s.fraction = [] then [] else '.' :: s.fraction

def chars : List Char := (if s.negative then ['-'] else []) ++ s.unsigned

def numeral : Numeral :=
  ⟨s.negative, Numeral.digitsValue (s.whole ++ s.fraction), -s.fraction.length⟩

theorem splitSign_chars : Numeral.splitSign s.chars = (s.negative, s.unsigned) := by
  obtain ⟨c, rest, hwhole⟩ := List.exists_cons_of_ne_nil s.whole_ne_nil
  have hc : c.isDigit = true := s.isDigit_whole c (by simp [hwhole])
  have hplain : Numeral.splitSign s.unsigned = (false, s.unsigned) := by
    have hminus : c ≠ '-' := ne_of_isDigit hc (by decide)
    have hplus : c ≠ '+' := ne_of_isDigit hc (by decide)
    simp [unsigned, hwhole, Numeral.splitSign, hminus, hplus]
  cases hneg : s.negative with
  | false => simpa [chars, hneg] using hplain
  | true => simp [chars, hneg, Numeral.splitSign]

theorem readUnsigned?_unsigned (negative : Bool) :
    Numeral.readUnsigned? negative s.unsigned = some { s.numeral with negative } := by
  have hpoint : ¬ Char.isDigit '.' = true := by decide
  by_cases hfraction : s.fraction = []
  · have htake : s.whole.takeWhile Char.isDigit = s.whole :=
      List.takeWhile_eq_self_iff.mpr s.isDigit_whole
    have hdrop : s.whole.dropWhile Char.isDigit = [] :=
      List.dropWhile_eq_nil_iff.mpr s.isDigit_whole
    simp [Numeral.readUnsigned?, unsigned, hfraction, htake, hdrop, Numeral.splitFraction,
      s.whole_ne_nil, Numeral.readExponent?, numeral]
  · have htake : s.fraction.takeWhile Char.isDigit = s.fraction :=
      List.takeWhile_eq_self_iff.mpr s.isDigit_fraction
    have hdrop : s.fraction.dropWhile Char.isDigit = [] :=
      List.dropWhile_eq_nil_iff.mpr s.isDigit_fraction
    simp [Numeral.readUnsigned?, unsigned, hfraction,
      List.takeWhile_append_of_pos s.isDigit_whole, List.dropWhile_append_of_pos s.isDigit_whole,
      List.takeWhile_cons_of_neg hpoint, List.dropWhile_cons_of_neg hpoint, htake, hdrop,
      Numeral.splitFraction, s.whole_ne_nil, Numeral.readExponent?, numeral]

theorem read?_chars : Numeral.read? s.chars = some s.numeral := by
  simp [Numeral.read?, splitSign_chars, readUnsigned?_unsigned, numeral]

theorem numeral_of_readSigned? {m : Int} (h : Numeral.readSigned? s.chars = some m) :
    s.numeral = ⟨s.negative, m.natAbs, 0⟩ := by
  by_cases hfraction : s.fraction = []
  · have hdigits : s.whole.all Char.isDigit = true := by simpa using s.isDigit_whole
    simp only [Numeral.readSigned?, splitSign_chars, unsigned, hfraction, if_true,
      List.append_nil, List.isEmpty_eq_false_iff.mpr s.whole_ne_nil, hdigits] at h
    cases hneg : s.negative <;> simp [hneg] at h <;> subst h <;> simp [numeral, hneg, hfraction]
  · have hpoint : Char.isDigit '.' = false := by decide
    have hdigits : s.unsigned.all Char.isDigit = false := by
      simp [unsigned, hfraction, hpoint]
    simp [Numeral.readSigned?, splitSign_chars, hdigits] at h

theorem mem_chars {c : Char} (h : c ∈ s.chars) : c = '-' ∨ c = '.' ∨ c.isDigit = true := by
  have hwhole := s.isDigit_whole c
  have hfraction := s.isDigit_fraction c
  simp only [chars, unsigned] at h
  grind

end Spelling

namespace Numeral

theorem isDigit_digitsOf {n : Nat} {c : Char} (h : c ∈ digitsOf n) : c.isDigit = true :=
  Nat.isDigit_of_mem_toDigits (by decide) le_rfl h

theorem digitsOf_ne_nil (n : Nat) : digitsOf n ≠ [] := Nat.toDigits_ne_nil

theorem digitsValue_digitsOf (n : Nat) : digitsValue (digitsOf n) = n :=
  Nat.ofDigitChars_ten_toDigits

theorem isDigit_of_mem_zeros {k : Nat} {c : Char} (h : c ∈ List.replicate k '0') :
    c.isDigit = true := by
  rw [List.eq_of_mem_replicate h]
  decide

theorem digitsValue_append_zeros (s : List Char) (k : Nat) :
    digitsValue (s ++ List.replicate k '0') = digitsValue s * 10 ^ k := by
  show Nat.ofDigitChars 10 _ 0 = _
  rw [Nat.ofDigitChars_append, Nat.ofDigitChars_replicate_zero, Nat.mul_comm]
  rfl

theorem digitsValue_zeros_append (k : Nat) (s : List Char) :
    digitsValue (List.replicate k '0' ++ s) = digitsValue s := by
  show Nat.ofDigitChars 10 _ 0 = _
  rw [Nat.ofDigitChars_append, Nat.ofDigitChars_replicate_zero, Nat.mul_zero]
  rfl

def wholeSpelling (negative : Bool) (coefficient zeros : Nat) : Spelling where
  negative := negative
  whole := digitsOf coefficient ++ List.replicate zeros '0'
  fraction := []
  whole_ne_nil := by simp [digitsOf_ne_nil]
  isDigit_whole c hc := (List.mem_append.mp hc).elim isDigit_digitsOf isDigit_of_mem_zeros
  isDigit_fraction := by simp

def paddedDigits (coefficient places : Nat) : List Char :=
  List.replicate (places + 1 - (digitsOf coefficient).length) '0' ++ digitsOf coefficient

theorem lt_length_paddedDigits (coefficient places : Nat) :
    places < (paddedDigits coefficient places).length := by
  simp only [paddedDigits, List.length_append, List.length_replicate]
  omega

theorem isDigit_paddedDigits {coefficient places : Nat} {c : Char}
    (h : c ∈ paddedDigits coefficient places) : c.isDigit = true :=
  (List.mem_append.mp h).elim isDigit_of_mem_zeros isDigit_digitsOf

def pointedSpelling (negative : Bool) (coefficient places : Nat) : Spelling where
  negative := negative
  whole := (paddedDigits coefficient places).take
    ((paddedDigits coefficient places).length - places)
  fraction := (paddedDigits coefficient places).drop
    ((paddedDigits coefficient places).length - places)
  whole_ne_nil := by
    have := lt_length_paddedDigits coefficient places
    rw [ne_eq, List.take_eq_nil_iff]
    rintro (h | h)
    · omega
    · simp [h] at this
  isDigit_whole _ h := isDigit_paddedDigits (List.mem_of_mem_take h)
  isDigit_fraction _ h := isDigit_paddedDigits (List.mem_of_mem_drop h)

/-- The positional text is a spelling that keeps the sign and the value. -/
theorem exists_spelling (n : Numeral) : ∃ s : Spelling, s.chars = n.positional ∧
    s.numeral.negative = n.negative ∧ s.numeral.value = n.value := by
  by_cases hexp : 0 ≤ n.exponent
  · obtain ⟨zeros, hzeros⟩ := Int.eq_ofNat_of_zero_le hexp
    refine ⟨wholeSpelling n.negative n.coefficient zeros, ?_, rfl, ?_⟩
    · simp only [Spelling.chars, Spelling.unsigned, wholeSpelling, positional, signText, hzeros,
        if_true, List.append_nil, Int.natCast_nonneg, Int.toNat_natCast]
      rfl
    · simp [Spelling.numeral, wholeSpelling, value, digitsValue_append_zeros,
        digitsValue_digitsOf, hzeros]
  · obtain ⟨places, hplaces⟩ : ∃ places : Nat, n.exponent = -places :=
      ⟨n.exponent.natAbs, by omega⟩
    have hpos : 0 < places := by omega
    have hlength := lt_length_paddedDigits n.coefficient places
    have hfraction : (pointedSpelling n.negative n.coefficient places).fraction.length =
        places := by
      simp only [pointedSpelling, List.length_drop]
      omega
    refine ⟨pointedSpelling n.negative n.coefficient places, ?_, rfl, ?_⟩
    · have hne : (pointedSpelling n.negative n.coefficient places).fraction ≠ [] := by
        intro h
        simp [h] at hfraction
        omega
      have habs : n.exponent.natAbs = places := by omega
      simp only [Spelling.chars, Spelling.unsigned, hne, if_false, positional, signText, hexp,
        habs]
      rfl
    · simp only [Spelling.numeral, value, hfraction, hplaces]
      simp only [pointedSpelling, List.take_append_drop, paddedDigits, digitsValue_zeros_append,
        digitsValue_digitsOf]

end Numeral

theorem Finite.exists_spelling (x : Finite) :
    ∃ s : Spelling, x.text.toList = s.chars ∧ Binary64.ofNumeral s.numeral = .finite x := by
  obtain ⟨s, hchars, hsign, hvalue⟩ := (x.shortest .up).exists_spelling
  refine ⟨s, by rw [hchars, text, String.toList_ofList], ?_⟩
  rw [Binary64.ofNumeral_congr hsign hvalue, ofNumeral_shortest]

theorem Binary64.read?_text (a : Binary64) : read? a.text.toList = some a := by
  match a with
  | .nan => decide
  | .infinite false => decide
  | .infinite true => decide
  | .finite x =>
    obtain ⟨s, hchars, hnumber⟩ := x.exists_spelling
    have htext : (Binary64.finite x).text.toList = s.chars := hchars
    simp only [read?, htext, s.read?_chars, hnumber]

/-!
## Signs

Rounding does not look at the sign: the opposite of a numeral is read as the opposite number. So the
text of a number is its minus sign, if there is one, and digits that are read as the number without
its sign. The negative zero is written with a minus sign although it is not less than zero.
-/

namespace Binary64

theorem ofParts_not (negative : Bool) (significand : Nat) (exponent : Int) :
    ofParts (!negative) significand exponent = -ofParts negative significand exponent := by
  unfold ofParts
  split
  · rfl
  · split <;> rfl

theorem roundRatio_not (negative : Bool) (num den : Nat) :
    roundRatio (!negative) num den = -roundRatio negative num den := by
  unfold roundRatio
  split
  · rfl
  · exact ofParts_not negative _ _

theorem ofNumeral_not (n : Numeral) :
    ofNumeral { n with negative := !n.negative } = -ofNumeral n := by
  unfold ofNumeral
  dsimp only
  split
  · exact roundRatio_not n.negative _ _
  · exact roundRatio_not n.negative _ _

theorem negative_of_ofParts {negative : Bool} {significand : Nat} {exponent : Int} {x : Finite}
    (h : ofParts negative significand exponent = .finite x) : x.negative = negative := by
  unfold ofParts at h
  split at h
  · cases h
    rfl
  · split at h <;> cases h
    rfl

theorem negative_of_roundRatio {negative : Bool} {num den : Nat} {x : Finite}
    (h : roundRatio negative num den = .finite x) : x.negative = negative := by
  unfold roundRatio at h
  split at h
  · cases h
    rfl
  · exact negative_of_ofParts h

theorem negative_of_ofNumeral {n : Numeral} {x : Finite} (h : ofNumeral n = .finite x) :
    x.negative = n.negative := by
  unfold ofNumeral at h
  split at h
  · exact negative_of_roundRatio h
  · exact negative_of_roundRatio h

end Binary64

namespace Finite

variable {x : Finite}

theorem negative_of_units_neg (h : x.units < 0) : x.negative = true := by
  by_contra hpositive
  have hunits : x.units = x.magnitude := if_neg hpositive
  omega

theorem eq_zero_of_negative (hsign : x.negative = true) (h : ¬ x.units < 0) : x = .zero true := by
  have hunits : x.units = -(x.magnitude : Int) := if_pos hsign
  have hmagnitude : x.magnitude = 0 := by omega
  exact eq_of_magnitude_eq hsign (hmagnitude.trans (Nat.zero_mul _).symm)

/-- The text of a number is a minus sign, if the number is negative, and digits that are read as the
number without its sign. -/
theorem exists_unsigned (x : Finite) : ∃ s : Spelling,
    x.text.toList = (if x.negative then ['-'] else []) ++ s.unsigned ∧
      Binary64.read? s.unsigned = some (.finite (x.withSign false)) := by
  obtain ⟨s, hchars, hnumber⟩ := x.exists_spelling
  have hsign : x.negative = s.negative := Binary64.negative_of_ofNumeral hnumber
  refine ⟨s, by rw [hchars, Spelling.chars, hsign], ?_⟩
  have hread : Binary64.read? s.unsigned =
      some (Binary64.ofNumeral { s.numeral with negative := false }) := by
    have hnumeral : Numeral.read? s.unsigned = some { s.numeral with negative := false } :=
      Spelling.read?_chars { s with negative := false }
    rw [Binary64.read?, hnumeral]
  rw [hread]
  cases hneg : s.negative with
  | false =>
    have hsame : { s.numeral with negative := false } = s.numeral := by rw [← hneg]; rfl
    rw [hsame, hnumber, ← hneg, ← hsign]
    rfl
  | true =>
    have hflip : { s.numeral with negative := false } =
        { s.numeral with negative := !s.numeral.negative } := by
      simp [Spelling.numeral, hneg]
    rw [hflip, Binary64.ofNumeral_not, hnumber]
    have hx : x.negative = true := hsign.trans hneg
    show some (Binary64.finite (x.withSign !x.negative)) = _
    rw [hx]
    rfl

end Finite

end DerivedForm.Number
