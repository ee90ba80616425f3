import DerivedForm.Proofs.Number.Nearest
import DerivedForm.Proofs.Number.Spelling

/-!
# Rounding a rounded number

A number rounded to decimal places is a whole number divided by a power of ten, and both the division and
the second multiplication by this power round. Together they are off by less than a half below `2 ^ 51`, so
the second rounding finds the whole number again, and by a half at most below the bound of the fractions.
There the product may fall on the half above the whole number; then a second rounding goes one further.
-/

namespace DerivedForm.Number

namespace Finite

variable {x y : Finite} {n : Nat}

def nearestWhole (x : Finite) : Nat := roundHalfUp x.magnitude unitsPerOne

theorem nearestWhole_eq_iff :
    x.nearestWhole = n ↔ (n : ℚ) - 1 / 2 ≤ x.size ∧ x.size < n + 1 / 2 := by
  have hpos : 0 < 2 * unitsPerOne := Nat.mul_pos two_pos unitsPerOne_pos
  have hlow : (n : ℚ) - 1 / 2 ≤ x.size ↔ n ≤ x.nearestWhole := by
    rw [nearestWhole, roundHalfUp, Nat.le_div_iff_mul_le hpos, size,
      le_div_iff₀ cast_unitsPerOne_pos, ← Nat.cast_le (α := ℚ)]
    push_cast
    constructor <;> intro h <;> linarith
  have hhigh : x.size < n + 1 / 2 ↔ x.nearestWhole < n + 1 := by
    rw [nearestWhole, roundHalfUp, Nat.div_lt_iff_lt_mul hpos, size,
      div_lt_iff₀ cast_unitsPerOne_pos, ← Nat.cast_lt (α := ℚ)]
    push_cast
    constructor <;> intro h <;> linarith
  rw [hlow, hhigh]
  omega

theorem size_lt (x : Finite) : x.size < 2 ^ (1024 : ℤ) := by
  obtain ⟨hbits, -, hlast, -⟩ := x.canonical
  calc x.size = x.significand * 2 ^ x.exponent := x.size_eq
    _ < twoPow 53 * 2 ^ x.exponent := by gcongr
    _ ≤ twoPow 53 * 2 ^ (971 : ℤ) := by
      gcongr
      norm_num
    _ = 2 ^ (1024 : ℤ) := by
      rw [cast_twoPow_53, ← zpow_add₀ (by norm_num)]
      norm_num

theorem size_pos_iff : 0 < x.size ↔ x.magnitude ≠ 0 := by
  rw [size, div_pos_iff_of_pos_right cast_unitsPerOne_pos, Nat.cast_pos, Nat.pos_iff_ne_zero]

end Finite

namespace Binary64

variable {a : Binary64} {x f scaled again : Finite} {n places : Nat} {negative : Bool}

/-- The number has places to round: scaled, it is finite and below the bound of the fractions. -/
def Scales (a : Binary64) (places : Nat) (scaled : Finite) : Prop :=
  a * decimalFactor places = .finite scaled ∧ scaled.size < twoPow 52

def unscaled (negative : Bool) (n places : Nat) : Binary64 :=
  roundRatio negative n 1 / decimalFactor places + 0

theorem less_wholeBound_iff_size :
    (Binary64.finite x).abs.less wholeBound = true ↔ x.size < twoPow 52 := by
  rw [less_wholeBound_iff, Finite.size, div_lt_iff₀ cast_unitsPerOne_pos]
  exact_mod_cast Iff.rfl

theorem roundPlaces_of_scales (h : Scales a places scaled) :
    a.roundPlaces places = unscaled scaled.negative scaled.nearestWhole places := by
  obtain ⟨hscaled, hlt⟩ := h
  have hwhole : (Binary64.finite scaled).roundWhole =
      roundRatio scaled.negative scaled.nearestWhole 1 := rfl
  have hless := less_wholeBound_iff_size.mpr hlt
  unfold roundPlaces unscaled
  dsimp only
  rw [hscaled, if_neg (by simp [hless]), hwhole]

theorem roundPlaces_of_not_scales (h : ¬ ∃ scaled, Scales a places scaled) :
    a.roundPlaces places = a := by
  rcases roundPlaces_cases a places with hkept | ⟨scaled, hscaled, hless, -⟩
  · exact hkept
  · exact absurd ⟨scaled, hscaled, less_wholeBound_iff_size.mp hless⟩ h

theorem unscaled_zero : unscaled negative 0 places = zero false := by
  obtain ⟨f, hf, hone⟩ := decimalFactor_finite places
  unfold unscaled
  rw [hf, roundRatio_zero, zero_div_finite negative (Finite.magnitude_pos_of_one_le hone),
    zero_add_zero]

theorem unscaled_spec (negative : Bool) (hf : decimalFactor places = .finite f) (hone : 1 ≤ f.size)
    (hn : 0 < n) (hle : n ≤ twoPow 53) : ∃ w : Finite, unscaled negative n places = .finite w ∧
      w.negative = (negative != f.negative) ∧ 0 < w.size ∧
      |w.size * f.size - n| ≤ max (n * 2 ^ (-53 : ℤ) : ℚ) (2 ^ (-51 : ℤ)) := by
  obtain ⟨whole, hwhole, hsize, hsign⟩ := roundRatio_natural negative hle
  have hmagnitude := Finite.magnitude_pos_of_one_le hone
  have hden := Nat.pos_of_ne_zero hmagnitude
  have hratio : (whole.magnitude / f.magnitude : ℚ) = n / f.size := by
    rw [whole.magnitude_div, hsize]
  obtain ⟨w, hw⟩ := (isFinite_eq_true_iff _).mp
    (isFinite_div (x := whole) (y := f) (by rw [hsize]; exact_mod_cast hle) hone)
  have hround : roundRatio (negative != f.negative) whole.magnitude f.magnitude = .finite w := by
    rw [finite_div, Finite.div, if_neg hmagnitude, hsign] at hw
    exact hw
  have hf0 : 0 < f.size := one_pos.trans_le hone
  have hn1 : (1 : ℚ) ≤ n := by exact_mod_cast hn
  have hpos : 0 < w.size := by
    have hnum : 0 < whole.magnitude := by
      rw [Finite.magnitude_of_size hsize]
      exact Nat.mul_pos hn unitsPerOne_pos
    -- the quotient is not below the least number of the format
    have hleast : ((1 : Nat) * 2 ^ (-1074 : ℤ) : ℚ) ≤ whole.magnitude / f.magnitude := by
      rw [hratio, le_div_iff₀ hf0, Nat.cast_one, one_mul]
      calc (2 : ℚ) ^ (-1074 : ℤ) * f.size ≤ 2 ^ (-1074 : ℤ) * 2 ^ (1024 : ℤ) := by
            gcongr
            exact f.size_lt.le
        _ = 2 ^ (-50 : ℤ) := by rw [← zpow_add₀ (by norm_num)]; norm_num
        _ ≤ 1 := zpow_le_one_of_nonpos₀ (by norm_num) (by norm_num)
        _ ≤ n := hn1
    refine lt_of_lt_of_le ?_ (le_size_of_le hnum hden hround (by decide) le_rfl hleast)
    positivity
  refine ⟨w, ?_, negative_of_roundRatio hround, hpos, ?_⟩
  · unfold unscaled
    rw [hf, hwhole, hw, add_zero_of_ne (Finite.size_pos_iff.mp hpos)]
  · have herror := abs_size_sub_le hden hround
    rw [hratio] at herror
    calc |w.size * f.size - n| = |w.size - n / f.size| * f.size := by
          rw [← abs_of_pos hf0, ← abs_mul, abs_of_pos hf0, sub_mul, div_mul_cancel₀ _ hf0.ne']
      _ ≤ max (n / f.size * 2 ^ (-53 : ℤ)) (2 ^ (-1075 : ℤ)) * f.size := by gcongr
      _ ≤ max (n * 2 ^ (-53 : ℤ) : ℚ) (2 ^ (-51 : ℤ)) := by
        rw [max_mul_of_nonneg _ _ hf0.le]
        apply max_le_max
        · rw [mul_right_comm, div_mul_cancel₀ _ hf0.ne']
        · calc (2 : ℚ) ^ (-1075 : ℤ) * f.size ≤ 2 ^ (-1075 : ℤ) * 2 ^ (1024 : ℤ) := by
                gcongr
                exact f.size_lt.le
            _ = 2 ^ (-51 : ℤ) := by rw [← zpow_add₀ (by norm_num)]; norm_num

/-- What is scaled back and again is a ratio near the whole number, rounded once. -/
theorem exists_ratio_of_scales (hn : 0 < n) (hle : n ≤ twoPow 52)
    (h : Scales (unscaled negative n places) places again) : ∃ num den : Nat, 0 < num ∧ 0 < den ∧
      roundRatio negative num den = .finite again ∧
      |(num / den : ℚ) - n| ≤ max (n * 2 ^ (-53 : ℤ) : ℚ) (2 ^ (-51 : ℤ)) := by
  obtain ⟨f, hf, hone⟩ := decimalFactor_finite places
  have hbits : twoPow 52 ≤ twoPow 53 := by decide
  obtain ⟨w, hw, hsign, hpos, hnear⟩ :=
    unscaled_spec negative hf hone hn (hle.trans hbits)
  have hproduct := h.1
  rw [hw, hf, finite_mul, Finite.mul, hsign, Bool.bne_assoc, bne_self_eq_false, Bool.bne_false]
    at hproduct
  refine ⟨_, _, ?_, Nat.mul_pos unitsPerOne_pos unitsPerOne_pos, hproduct, ?_⟩
  · exact Nat.mul_pos (Nat.pos_of_ne_zero (Finite.size_pos_iff.mp hpos))
      (Nat.pos_of_ne_zero (Finite.magnitude_pos_of_one_le hone))
  · rwa [w.magnitude_mul_div f]

theorem max_error_le {k : Nat} (hle : n ≤ twoPow k) (hk : 2 ≤ k) :
    max (n * 2 ^ (-53 : ℤ) : ℚ) (2 ^ (-51 : ℤ)) ≤ 2 ^ (k - 53 : ℤ) := by
  refine max_le ?_ (zpow_le_zpow_right₀ (by norm_num) (by omega))
  calc (n * 2 ^ (-53 : ℤ) : ℚ) ≤ twoPow k * 2 ^ (-53 : ℤ) := by gcongr
    _ = 2 ^ (k : ℤ) * 2 ^ (-53 : ℤ) := by rw [cast_twoPow]
    _ = 2 ^ (k - 53 : ℤ) := (zpow_add₀ (by norm_num) (k : ℤ) (-53)).symm

theorem size_bounds_of_scales (hn : 0 < n) (hle : n ≤ twoPow 52)
    (h : Scales (unscaled negative n places) places again) :
    (n : ℚ) - 1 / 2 ≤ again.size ∧ again.size ≤ n + 1 / 2 := by
  obtain ⟨num, den, hnum, hden, hround, hnear⟩ := exists_ratio_of_scales hn hle h
  have hbits : twoPow 53 = 2 * twoPow 52 := by decide
  have hhalf : |(num / den : ℚ) - n| ≤ 1 / 2 :=
    hnear.trans ((max_error_le hle (by norm_num)).trans_eq (by norm_num))
  obtain ⟨hlow, hhigh⟩ := abs_le.mp hhalf
  constructor
  · have hplace : ((2 * n - 1 : Nat) * 2 ^ (-1 : ℤ) : ℚ) = n - 1 / 2 := by
      rw [Nat.cast_sub (by omega)]
      push_cast
      ring
    rw [← hplace]
    refine le_size_of_le hnum hden hround (by omega) (by norm_num) ?_
    rw [hplace]
    linarith
  · rcases Nat.lt_or_eq_of_le hle with hless | rfl
    · have hplace : ((2 * n + 1 : Nat) * 2 ^ (-1 : ℤ) : ℚ) = n + 1 / 2 := by
        push_cast
        ring
      rw [← hplace]
      refine size_le_of_le hnum hden hround (by omega) (by norm_num) ?_
      rw [hplace]
      linarith
    · linarith [h.2]

theorem size_lt_of_scales (hn : 0 < n) (hlt : n < twoPow 51)
    (h : Scales (unscaled negative n places) places again) : again.size < n + 1 / 2 := by
  have hbits : twoPow 53 = 4 * twoPow 51 := by decide
  have hle : twoPow 51 ≤ twoPow 52 := by decide
  obtain ⟨num, den, hnum, hden, hround, hnear⟩ := exists_ratio_of_scales hn (hlt.le.trans hle) h
  have hquarter : |(num / den : ℚ) - n| ≤ 1 / 4 :=
    hnear.trans ((max_error_le hlt.le (by norm_num)).trans_eq (by norm_num))
  have hplace : ((4 * n + 1 : Nat) * 2 ^ (-2 : ℤ) : ℚ) = n + 1 / 4 := by
    push_cast
    ring
  have hsize : again.size ≤ n + 1 / 4 := by
    rw [← hplace]
    refine size_le_of_le hnum hden hround (by omega) (by norm_num) ?_
    rw [hplace]
    linarith [(abs_le.mp hquarter).2]
  linarith

theorem nearestWhole_le_of_scales (h : Scales a places scaled) :
    scaled.nearestWhole ≤ twoPow 52 := by
  have hlow := (Finite.nearestWhole_eq_iff.mp (rfl : scaled.nearestWhole = _)).1
  have hlt : (scaled.nearestWhole : ℚ) < (twoPow 52 + 1 : Nat) := by
    push_cast
    linarith [h.2]
  exact Nat.le_of_lt_succ (by exact_mod_cast hlt)

theorem size_of_scales_zero (h : Scales (zero negative) places again) : again.size = 0 := by
  obtain ⟨f, hf, -⟩ := decimalFactor_finite places
  have hproduct := h.1
  rw [hf, zero_mul_finite] at hproduct
  cases hproduct
  exact Finite.size_zero _

/-- The whole number is found again unless the product falls on the half above it. -/
theorem roundPlaces_unscaled (hle : n ≤ twoPow 52)
    (h : ∀ again, Scales (unscaled negative n places) places again → again.size ≠ n + 1 / 2) :
    (unscaled negative n places).roundPlaces places = unscaled negative n places := by
  rcases Nat.eq_zero_or_pos n with rfl | hn
  · rw [unscaled_zero]
    exact roundPlaces_zero (Nat.zero_mul _) places
  by_cases hscales : ∃ again, Scales (unscaled negative n places) places again
  · obtain ⟨again, hagain⟩ := hscales
    obtain ⟨num, den, -, -, hround, -⟩ := exists_ratio_of_scales hn hle hagain
    obtain ⟨hlow, hhigh⟩ := size_bounds_of_scales hn hle hagain
    have hwhole : again.nearestWhole = n :=
      Finite.nearestWhole_eq_iff.mpr ⟨hlow, lt_of_le_of_ne hhigh (h again hagain)⟩
    rw [roundPlaces_of_scales hagain, negative_of_roundRatio hround, hwhole]
  · exact roundPlaces_of_not_scales hscales

theorem roundPlaces_unscaled_of_half (hle : n ≤ twoPow 52)
    (h : Scales (unscaled negative n places) places again) (hhalf : again.size = n + 1 / 2) :
    (twoPow 51 ≤ n ∧ n < twoPow 52) ∧
      (unscaled negative n places).roundPlaces places = unscaled negative (n + 1) places := by
  have hn : 0 < n := by
    rw [Nat.pos_iff_ne_zero]
    rintro rfl
    rw [unscaled_zero] at h
    rw [size_of_scales_zero h] at hhalf
    norm_num at hhalf
  have hlow : twoPow 51 ≤ n := by
    by_contra hlt
    exact (size_lt_of_scales hn (not_le.mp hlt) h).ne hhalf
  have hhigh : (n : ℚ) < twoPow 52 := by linarith [h.2]
  have hwhole : again.nearestWhole = n + 1 := by
    refine Finite.nearestWhole_eq_iff.mpr ⟨?_, ?_⟩
    · push_cast
      linarith
    · push_cast
      linarith
  obtain ⟨num, den, -, -, hround, -⟩ := exists_ratio_of_scales hn hle h
  refine ⟨⟨hlow, by exact_mod_cast hhigh⟩, ?_⟩
  rw [roundPlaces_of_scales h, negative_of_roundRatio hround, hwhole]

theorem unscaled_ne_succ (hn : 0 < n) (hlt : n < twoPow 52) :
    unscaled negative n places ≠ unscaled negative (n + 1) places := by
  obtain ⟨f, hf, hone⟩ := decimalFactor_finite places
  have hbits : twoPow 52 ≤ twoPow 53 := by decide
  obtain ⟨w, hw, -, -, hnear⟩ := unscaled_spec negative hf hone hn (by omega)
  obtain ⟨next, hnext, -, -, hnear'⟩ :=
    unscaled_spec negative hf hone (Nat.succ_pos n) (by omega)
  have herror : max ((n + 1 : Nat) * 2 ^ (-53 : ℤ) : ℚ) (2 ^ (-51 : ℤ)) ≤ 1 / 2 :=
    (max_error_le (Nat.succ_le_of_lt hlt) (by norm_num)).trans_eq (by norm_num)
  have hstrict : max (n * 2 ^ (-53 : ℤ) : ℚ) (2 ^ (-51 : ℤ)) < 1 / 2 := by
    have hcast : (n : ℚ) < 2 ^ (52 : ℤ) := by
      rw [← cast_twoPow_52]
      exact_mod_cast hlt
    refine max_lt ?_ (by norm_num)
    calc (n * 2 ^ (-53 : ℤ) : ℚ) < 2 ^ (52 : ℤ) * 2 ^ (-53 : ℤ) := by gcongr
      _ = 1 / 2 := by norm_num
  intro heq
  rw [hw, hnext] at heq
  cases heq
  have hlow := (abs_lt.mp (hnear.trans_lt hstrict)).2
  have hhigh := (abs_le.mp (hnear'.trans herror)).1
  push_cast at hhigh
  linarith

/-- Scaled again, the rounded number falls on the half above the whole number that it was made of. -/
def SlipsUp (a : Binary64) (places : Nat) : Prop :=
  ∃ scaled again, Scales a places scaled ∧ Scales (a.roundPlaces places) places again ∧
    again.size = scaled.nearestWhole + 1 / 2

theorem SlipsUp.roundPlaces_again (h : SlipsUp a places) : ∃ n negative,
    (twoPow 51 ≤ n ∧ n < twoPow 52) ∧ a.roundPlaces places = unscaled negative n places ∧
      (a.roundPlaces places).roundPlaces places = unscaled negative (n + 1) places := by
  obtain ⟨scaled, again, hscaled, hagain, hhalf⟩ := h
  have honce := roundPlaces_of_scales hscaled
  rw [honce] at hagain
  obtain ⟨hrange, htwice⟩ :=
    roundPlaces_unscaled_of_half (nearestWhole_le_of_scales hscaled) hagain hhalf
  exact ⟨scaled.nearestWhole, scaled.negative, hrange, honce, honce ▸ htwice⟩

theorem roundPlaces_again_of_not_slipsUp (h : ¬ SlipsUp a places) :
    (a.roundPlaces places).roundPlaces places = a.roundPlaces places := by
  by_cases hscales : ∃ scaled, Scales a places scaled
  · obtain ⟨scaled, hscaled⟩ := hscales
    have honce := roundPlaces_of_scales hscaled
    rw [honce]
    refine roundPlaces_unscaled (nearestWhole_le_of_scales hscaled) fun again hagain hhalf => ?_
    exact h ⟨scaled, again, hscaled, honce ▸ hagain, hhalf⟩
  · have hkept := roundPlaces_of_not_scales hscales
    rw [hkept, hkept]

/-- Rounding a rounded number changes nothing, with one exception: among the whole numbers of 52 bits the
product may fall on the half above, and then the number goes up by one last place. -/
theorem roundPlaces_twice (a : Binary64) (places : Nat) :
    ((a.roundPlaces places).roundPlaces places = a.roundPlaces places ↔ ¬ SlipsUp a places) ∧
      (SlipsUp a places → ∃ n negative, (twoPow 51 ≤ n ∧ n < twoPow 52) ∧
        a.roundPlaces places = unscaled negative n places ∧
        (a.roundPlaces places).roundPlaces places = unscaled negative (n + 1) places) := by
  refine ⟨⟨fun hsame hslips => ?_, roundPlaces_again_of_not_slipsUp⟩, SlipsUp.roundPlaces_again⟩
  obtain ⟨n, negative, ⟨hlow, hhigh⟩, honce, htwice⟩ := hslips.roundPlaces_again
  rw [htwice, honce] at hsame
  exact unscaled_ne_succ ((twoPow_pos 51).trans_le hlow) hhigh hsame.symm

/-- Rounded to three places twice, a number with three places changes twice. -/
theorem roundPlaces_drifts :
    (ofNumeral ⟨false, 4432951258432028, -3⟩).isFinite = true ∧
      ((ofNumeral ⟨false, 4432951258432028, -3⟩).roundPlaces 3).text = "4432951258432.029" ∧
      (((ofNumeral ⟨false, 4432951258432028, -3⟩).roundPlaces 3).roundPlaces 3).text =
        "4432951258432.03" ∧
      ((ofNumeral ⟨false, 4432951258432028, -3⟩).roundPlaces 3).roundPlaces 3 ≠
        (ofNumeral ⟨false, 4432951258432028, -3⟩).roundPlaces 3 := by
  decide +kernel

end Binary64

end DerivedForm.Number
