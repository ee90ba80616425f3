import DerivedForm.Proofs.Number.Nearest
import DerivedForm.Proofs.Number.Spelling
import DerivedForm.Proofs.Value.Retyped

/-!
# Whole numbers read from text

Digits in the range of 64 bits are read as the integer that they write. Any other numeral is read as the
nearest binary64 number, and the question whether it is whole is put to that number, not to the numeral. So
the integer is the number that is written exactly if the format has this number; otherwise it is another
one, and a fraction may be lost, but the two differ by no more than the rounding. A numeral of few digits
loses nothing.
-/

namespace DerivedForm

open DerivedForm.Number (Binary64 Finite Numeral Spelling readInt64? twoPow unitsPerOne)

namespace Number

theorem toInt_of_int64OfInt? {k : Int} {n : Int64} (h : int64OfInt? k = some n) : n.toInt = k := by
  simp only [int64OfInt?] at h
  split at h
  · rename_i hrange
    have hleast : Int64.minValue.toInt = -9223372036854775808 := by decide
    have hmost : Int64.maxValue.toInt = 9223372036854775807 := by decide
    cases h
    exact Int64.toInt_ofInt_of_le (by omega) (by omega)
  · cases h

namespace Finite

variable {x : Finite}

def exact (x : Finite) : ℚ := if x.negative then -x.size else x.size

theorem cast_units (x : Finite) : (x.units : ℚ) = x.exact * unitsPerOne := by
  have hunit : (unitsPerOne : ℚ) ≠ 0 := cast_unitsPerOne_pos.ne'
  unfold units exact size
  split
  · rw [Int.cast_neg, Int.cast_natCast, neg_mul, div_mul_cancel₀ _ hunit]
  · rw [Int.cast_natCast, div_mul_cancel₀ _ hunit]

theorem units_eq_iff {k : Int} : x.units = k * unitsPerOne ↔ x.exact = k := by
  rw [← mul_left_inj' cast_unitsPerOne_pos.ne', ← cast_units]
  exact_mod_cast Iff.rfl

/-- The least 64-bit integer is a number of the format, but it is refused like those beyond it. -/
theorem toInt64?_eq_some_iff {n : Int64} :
    x.toInt64? = some n ↔ x.exact = n.toInt ∧ n ≠ Int64.minValue := by
  have hleast : Int64.minValue.toInt = -9223372036854775808 := by decide
  have hbound : twoPow 63 = 9223372036854775808 := by decide
  have hmagnitude : ∀ k : Int, x.units = k * unitsPerOne → x.magnitude = k.natAbs * unitsPerOne := by
    intro k hk
    rw [← natAbs_units, hk, Int.natAbs_mul, Int.natAbs_natCast]
  unfold toInt64?
  constructor
  · intro h
    split at h
    · rename_i hx
      have hunits := units_of_isWhole hx.1
      have hlt : x.truncate.natAbs < twoPow 63 := by
        have hrange := hx.2
        rw [hmagnitude _ hunits] at hrange
        exact Nat.lt_of_mul_lt_mul_right hrange
      have hvalue : (Int64.ofInt x.truncate).toInt = x.truncate :=
        Int64.toInt_ofInt_of_le (by omega) (by omega)
      cases h
      refine ⟨by rw [hvalue, ← units_eq_iff, hunits], fun hn => ?_⟩
      rw [hn] at hvalue
      omega
    · cases h
  · rintro ⟨hexact, hn⟩
    have hunits := units_eq_iff.mpr hexact
    obtain ⟨hwhole, htruncate⟩ := whole_of_units hunits
    have hne : n.toInt ≠ Int64.minValue.toInt := fun h => hn (Int64.toInt_inj.mp h)
    have hlow := n.minValue_le_toInt
    have hhigh := n.toInt_le
    have hmax : Int64.maxValue.toInt = 9223372036854775807 := by decide
    have hrange : x.magnitude < twoPow 63 * unitsPerOne := by
      rw [hmagnitude _ hunits]
      exact Nat.mul_lt_mul_of_pos_right (by omega) unitsPerOne_pos
    rw [if_pos ⟨hwhole, hrange⟩, htruncate, Int64.ofInt_toInt]

end Finite

namespace Numeral

variable {n : Numeral} {x : Finite} {s : List Char} {k : Int}

def exact (n : Numeral) : ℚ := if n.negative then -n.value else n.value

def IsHeld (n : Numeral) : Prop := ∃ x : Finite, x.size = n.value

def slip (n : Numeral) : ℚ := max (n.value * 2 ^ (-53 : ℤ)) (2 ^ (-1075 : ℤ))

theorem slip_nonneg (n : Numeral) : 0 ≤ n.slip := le_max_of_le_right (by positivity)

theorem abs_size_sub_value_le (h : Binary64.ofNumeral n = .finite x) :
    |x.size - n.value| ≤ n.slip := by
  obtain ⟨num, den, hden, hvalue⟩ := n.exists_ratio
  rw [Binary64.ofNumeral_eq hden hvalue] at h
  rw [slip, hvalue]
  exact Binary64.abs_size_sub_le hden h

theorem IsHeld.ofNumeral (h : n.IsHeld) :
    ∃ x, Binary64.ofNumeral n = .finite x ∧ x.size = n.value := by
  obtain ⟨y, hy⟩ := h
  obtain ⟨num, den, hden, hvalue⟩ := n.exists_ratio
  rw [Binary64.ofNumeral_eq hden hvalue]
  by_cases hzero : y.significand = 0
  · have hsize : y.size = 0 := by rw [y.size_eq, hzero, Nat.cast_zero, zero_mul]
    have hnum : num = 0 := by
      have hd : (den : ℚ) ≠ 0 := by exact_mod_cast hden.ne'
      rw [hsize, hvalue, eq_comm, div_eq_zero_iff, or_iff_left hd] at hy
      exact_mod_cast hy
    rw [hnum, Binary64.roundRatio_zero]
    refine ⟨_, rfl, ?_⟩
    rw [← hy, hsize, Finite.size_zero]
  · exact ⟨_, Binary64.roundRatio_of_size _ hden hzero (hvalue ▸ hy.symm), hy⟩

theorem size_eq_value_iff (h : Binary64.ofNumeral n = .finite x) :
    x.size = n.value ↔ n.IsHeld := by
  constructor
  · exact fun hsize => ⟨x, hsize⟩
  · intro hheld
    obtain ⟨y, hy, hsize⟩ := hheld.ofNumeral
    rw [h] at hy
    cases hy
    exact hsize

theorem exact_eq_iff (h : Binary64.ofNumeral n = .finite x) : n.exact = x.exact ↔ n.IsHeld := by
  rw [← size_eq_value_iff h, exact, Finite.exact, Binary64.negative_of_ofNumeral h]
  split
  · rw [neg_inj, eq_comm]
  · exact eq_comm

theorem abs_exact_sub_le (h : Binary64.ofNumeral n = .finite x) : |n.exact - x.exact| ≤ n.slip := by
  refine le_of_eq_of_le ?_ (abs_size_sub_value_le h)
  rw [exact, Finite.exact, Binary64.negative_of_ofNumeral h]
  split
  · rw [neg_sub_neg]
  · exact abs_sub_comm _ _

theorem ten_pow_lt {places : Nat} (h : places ≤ 323) : (10 : ℚ) ^ places < 2 ^ (1075 : ℤ) := by
  have hmono := tenPow_le h
  have hpow : tenPow 323 < twoPow 1075 := by decide +kernel
  have htop : (twoPow 1075 : ℚ) = 2 ^ (1075 : ℤ) := cast_twoPow 1075
  rw [← htop, ← cast_tenPow]
  exact_mod_cast hmono.trans_lt hpow

/-- An integer that is nearly a decimal fraction is this fraction: they differ by a whole number of the last
decimal places. -/
theorem exact_eq_of_abs_sub_le (hcoefficient : n.coefficient < twoPow 53) (hlow : -323 ≤ n.exponent)
    (hhigh : n.exponent ≤ 0) (h : |n.exact - k| ≤ n.slip) : n.exact = k := by
  obtain ⟨places, hplaces⟩ : ∃ places : Nat, n.exponent = -places :=
    ⟨n.exponent.natAbs, by omega⟩
  have hten : (0 : ℚ) < 10 ^ places := by positivity
  have hvalue : n.value * 10 ^ places = n.coefficient := by
    rw [value, hplaces, zpow_neg, zpow_natCast, inv_mul_cancel_right₀ hten.ne']
  have hexact : n.exact * 10 ^ places =
      ((if n.negative then -(n.coefficient : Int) else n.coefficient : Int) : ℚ) := by
    unfold exact
    split
    · rw [neg_mul, hvalue, Int.cast_neg, Int.cast_natCast]
    · rw [hvalue, Int.cast_natCast]
  generalize (if n.negative then -(n.coefficient : Int) else n.coefficient) = c at hexact
  have hslip : n.slip * 10 ^ places < 1 := by
    rw [slip, max_mul_of_nonneg _ _ hten.le, max_lt_iff]
    constructor
    · have hc : (n.coefficient : ℚ) < 2 ^ (53 : ℤ) := by
        rw [← cast_twoPow_53]
        exact_mod_cast hcoefficient
      calc n.value * 2 ^ (-53 : ℤ) * 10 ^ places = n.coefficient * 2 ^ (-53 : ℤ) := by
            rw [mul_right_comm, hvalue]
        _ < 2 ^ (53 : ℤ) * 2 ^ (-53 : ℤ) := by gcongr
        _ = 1 := by rw [← zpow_add₀ (by norm_num), add_neg_cancel, zpow_zero]
    · calc (2 : ℚ) ^ (-1075 : ℤ) * 10 ^ places < 2 ^ (-1075 : ℤ) * 2 ^ (1075 : ℤ) := by
            gcongr
            exact ten_pow_lt (by omega)
        _ = 1 := by rw [← zpow_add₀ (by norm_num), neg_add_cancel, zpow_zero]
  have hnear : |((c - k * 10 ^ places : Int) : ℚ)| < 1 := by
    calc |((c - k * 10 ^ places : Int) : ℚ)| = |(n.exact - k) * 10 ^ places| := by
          rw [sub_mul, hexact]
          push_cast
          rfl
      _ = |n.exact - k| * 10 ^ places := by rw [abs_mul, abs_of_pos hten]
      _ ≤ n.slip * 10 ^ places := by gcongr
      _ < 1 := hslip
  have hzero : c - k * 10 ^ places = 0 := Int.abs_lt_one_iff.mp (by exact_mod_cast hnear)
  refine mul_right_cancel₀ hten.ne' ?_
  rw [hexact]
  exact_mod_cast sub_eq_zero.mp hzero

theorem mem_of_splitSign {c : Char} (h : c ∈ s) :
    c = '-' ∨ c = '+' ∨ c ∈ (splitSign s).2 := by
  unfold splitSign
  split <;> grind

theorem read?_of_readSigned? (h : readSigned? s = some k) :
    ',' ∉ s ∧ ∃ n, read? s = some n ∧ n.exact = k := by
  have hmem := @mem_of_splitSign s ','
  rcases hsplit : splitSign s with ⟨negative, digits⟩
  simp only [readSigned?, hsplit, Option.ite_none_left_eq_some, Bool.or_eq_true, not_or,
    List.isEmpty_iff, Bool.not_eq_true', Bool.not_eq_false, List.all_eq_true,
    Option.some_inj] at h
  obtain ⟨⟨hne, hdigits⟩, rfl⟩ := h
  constructor
  · intro hcomma
    rcases hmem hcomma with heq | heq | hdigit
    · exact absurd heq (by decide)
    · exact absurd heq (by decide)
    · rw [hsplit] at hdigit
      exact absurd (hdigits _ hdigit) (by decide)
  · let spelling : Spelling := ⟨negative, digits, [], hne, hdigits, by simp⟩
    have hunsigned : spelling.unsigned = digits := List.append_nil _
    refine ⟨spelling.numeral, ?_, ?_⟩
    · rw [read?, hsplit]
      exact hunsigned ▸ spelling.readUnsigned?_unsigned negative
    · cases negative <;> simp [exact, value, spelling, Spelling.numeral]

end Numeral

end Number

def writtenNumeral? (s : String) : Option Numeral :=
  Numeral.read? (normalizePoint (Text.trimmed s.toList))

theorem readNumber?_eq_some_iff {s : String} {x : Finite} : readNumber? s = some x ↔
    ∃ m, writtenNumeral? s = some m ∧ Binary64.ofNumeral m = .finite x := by
  unfold readNumber? writtenNumeral? Binary64.read?
  cases hread : Numeral.read? (normalizePoint (Text.trimmed s.toList)) with
  | some m => cases hnumber : Binary64.ofNumeral m <;> simp [Binary64.finite?, hnumber]
  | none =>
    -- no word is that of a finite number
    simp only [Binary64.ofWord?]
    split
    · simp [Binary64.finite?]
    · split <;> simp [Binary64.finite?]

theorem writtenNumeral?_of_readInt64? {s : String} {n : Int64}
    (h : readInt64? (Text.trimmed s.toList) = some n) :
    ∃ m, writtenNumeral? s = some m ∧ m.exact = n.toInt := by
  rw [readInt64?, Option.bind_eq_some_iff] at h
  obtain ⟨k, hk, hn⟩ := h
  obtain ⟨hcomma, m, hm, hexact⟩ := Numeral.read?_of_readSigned? hk
  refine ⟨m, by rw [writtenNumeral?, normalizePoint_eq_self hcomma, hm], ?_⟩
  rw [hexact, Number.toInt_of_int64OfInt? hn]

namespace Value

variable {s : String} {n : Int64} {m : Numeral}

theorem coerce_text_of_readInt64? (h : readInt64? (Text.trimmed s.toList) = some n) :
    (Value.text s).coerce .integer = .ok (.integer n) := by
  simp only [coerce, toInteger, h]

theorem coerce_text_of_not_digits (h : readInt64? (Text.trimmed s.toList) = none) :
    (Value.text s).coerce .integer = .ok (.integer n) ↔ ∃ m x, writtenNumeral? s = some m ∧
      Binary64.ofNumeral m = .finite x ∧ x.exact = n.toInt ∧ n ≠ Int64.minValue := by
  have hnumber : (∃ m x, writtenNumeral? s = some m ∧ Binary64.ofNumeral m = .finite x ∧
      x.exact = n.toInt ∧ n ≠ Int64.minValue) ↔
        ∃ x, readNumber? s = some x ∧ x.toInt64? = some n := by
    simp only [readNumber?_eq_some_iff, Finite.toInt64?_eq_some_iff]
    grind
  rw [hnumber]
  simp only [coerce, toInteger, h]
  cases hread : readNumber? s with
  | none => simp
  | some x => cases hx : x.toInt64? <;> simp [integerOf, hx]

/-- The number that is written comes out if the text is a row of digits or the format has the number, and
only then. -/
theorem exact_iff_of_coerce_text (h : (Value.text s).coerce .integer = .ok (.integer n)) :
    ∃ m, writtenNumeral? s = some m ∧ |m.exact - n.toInt| ≤ m.slip ∧
      (m.exact = n.toInt ↔ (readInt64? (Text.trimmed s.toList)).isSome ∨ m.IsHeld) := by
  cases hdigits : readInt64? (Text.trimmed s.toList) with
  | some k =>
    rw [coerce_text_of_readInt64? hdigits] at h
    cases h
    obtain ⟨m, hm, hexact⟩ := writtenNumeral?_of_readInt64? hdigits
    refine ⟨m, hm, ?_, iff_of_true hexact (Or.inl rfl)⟩
    rw [hexact, sub_self, abs_zero]
    exact m.slip_nonneg
  | none =>
    obtain ⟨m, x, hm, hx, hn, -⟩ := (coerce_text_of_not_digits hdigits).mp h
    refine ⟨m, hm, ?_, ?_⟩
    · rw [← hn]
      exact Numeral.abs_exact_sub_le hx
    · rw [← hn, Numeral.exact_eq_iff hx]
      simp

theorem coerce_text_of_exact (hm : writtenNumeral? s = some m) (hexact : m.exact = n.toInt)
    (h : (readInt64? (Text.trimmed s.toList)).isSome ∨ m.IsHeld ∧ n ≠ Int64.minValue) :
    (Value.text s).coerce .integer = .ok (.integer n) := by
  cases hdigits : readInt64? (Text.trimmed s.toList) with
  | some k =>
    obtain ⟨m', hm', hk⟩ := writtenNumeral?_of_readInt64? hdigits
    obtain rfl : m = m' := Option.some.inj (hm.symm.trans hm')
    obtain rfl : k = n := Int64.toInt_inj.mp (by exact_mod_cast hk.symm.trans hexact)
    exact coerce_text_of_readInt64? hdigits
  | none =>
    obtain ⟨hheld, hn⟩ := h.resolve_left (by simp [hdigits])
    obtain ⟨x, hx, -⟩ := hheld.ofNumeral
    exact (coerce_text_of_not_digits hdigits).mpr
      ⟨m, x, hm, hx, ((Numeral.exact_eq_iff hx).mpr hheld).symm.trans hexact, hn⟩

/-- An accepted integer is the number that is written if the text is a row of digits, if the format has
this number or if the numeral has few digits; in no case is it further away than one rounding. A whole
number that the format has is accepted in all its spellings, except the least integer. -/
theorem coerce_integer_text (s : String) (n : Int64) :
    ((Value.text s).coerce .integer = .ok (.integer n) → ∃ m, writtenNumeral? s = some m ∧
      (m.exact = n.toInt ↔ (readInt64? (Text.trimmed s.toList)).isSome ∨ m.IsHeld) ∧
      (m.coefficient < twoPow 53 → -323 ≤ m.exponent → m.exponent ≤ 0 → m.exact = n.toInt) ∧
      |m.exact - n.toInt| ≤ max (m.value * 2 ^ (-53 : ℤ)) (2 ^ (-1075 : ℤ))) ∧
    ∀ m, writtenNumeral? s = some m → m.exact = n.toInt →
      (readInt64? (Text.trimmed s.toList)).isSome ∨ m.IsHeld ∧ n ≠ Int64.minValue →
      (Value.text s).coerce .integer = .ok (.integer n) := by
  refine ⟨fun h => ?_, fun m => coerce_text_of_exact⟩
  obtain ⟨m, hm, hnear, hexact⟩ := exact_iff_of_coerce_text h
  refine ⟨m, hm, hexact, fun hcoefficient hlow hhigh => ?_, hnear⟩
  exact Numeral.exact_eq_of_abs_sub_le hcoefficient hlow hhigh hnear

/-- A fraction beside seventeen digits is lost, and so is the last digit of a whole number
that is written with a point. -/
theorem coerce_integer_text_rounded :
    (Value.text "9007199254740993.5").coerce .integer = .ok (.integer 9007199254740994) ∧
      writtenNumeral? "9007199254740993.5" = some ⟨false, 90071992547409935, -1⟩ ∧
      (∀ k : Int, Numeral.exact ⟨false, 90071992547409935, -1⟩ ≠ k) ∧
    (Value.text "9007199254740993.0").coerce .integer = .ok (.integer 9007199254740992) ∧
      writtenNumeral? "9007199254740993.0" = some ⟨false, 90071992547409930, -1⟩ ∧
      Numeral.exact ⟨false, 90071992547409930, -1⟩ = 9007199254740993 := by
  refine ⟨by decide +kernel, by decide +kernel, fun k hk => ?_, by decide +kernel,
    by decide +kernel, ?_⟩
  · have htwice : (90071992547409935 : ℚ) = 10 * k := by
      rw [← hk]
      norm_num [Numeral.exact, Numeral.value]
    have : (90071992547409935 : Int) = 10 * k := by exact_mod_cast htwice
    omega
  · norm_num [Numeral.exact, Numeral.value]

end Value

end DerivedForm
