import DerivedForm.Proofs.Number.Places

/-!
# Roundings without an error

A ratio that is the size of a number of the format is rounded to this number, so the whole numbers up
to `2 ^ 53` are held exactly. No ratio below `2 ^ 1023` is rounded to an infinity; therefore 64-bit
integers and results rounded to decimal places stay finite, and such a result is never a negative zero.
-/

namespace DerivedForm.Number

theorem unitsPerOne_pos : 0 < unitsPerOne := twoPow_pos 1074

theorem cast_unitsPerOne_pos : (0 : ℚ) < unitsPerOne := by exact_mod_cast unitsPerOne_pos

namespace Finite

def Normalized (x : Finite) : Prop := x.magnitude = 0 → x.negative = false

theorem size_nonneg (x : Finite) : 0 ≤ x.size := by
  unfold size
  positivity

theorem size_zero (negative : Bool) : (zero negative).size = 0 := by
  rw [size, magnitude_zero, Nat.cast_zero, zero_div]

theorem magnitude_eq_zero_iff {x : Finite} : x.magnitude = 0 ↔ x.significand = 0 := by
  have hpos := twoPow_pos (x.exponent + 1074).toNat
  unfold magnitude
  rw [Nat.mul_eq_zero]
  omega

theorem magnitude_of_size {x : Finite} {n : Nat} (h : x.size = n) :
    x.magnitude = n * unitsPerOne := by
  rw [size, div_eq_iff cast_unitsPerOne_pos.ne'] at h
  exact_mod_cast h

theorem magnitude_div (x y : Finite) : (x.magnitude / y.magnitude : ℚ) = x.size / y.size := by
  unfold size
  rw [div_div_div_cancel_right₀ cast_unitsPerOne_pos.ne']

theorem units_eq_of_same {x y : Finite} (h : x.same y = true) : x.units = y.units := by
  simpa [same] using h

theorem eq_of_same_of_normalized {x y : Finite} (hx : x.Normalized) (hy : y.Normalized)
    (h : x.same y = true) : x = y := by
  rcases eq_or_zero_of_same h with heq | ⟨hxzero, hyzero⟩
  · exact heq
  · exact eq_of_magnitude_eq ((hx hxzero).trans (hy hyzero).symm) (hxzero.trans hyzero.symm)

theorem units_of_isWhole {x : Finite} (h : x.isWhole = true) : x.units = x.truncate * unitsPerOne := by
  have hdvd : unitsPerOne ∣ x.magnitude := Nat.dvd_of_mod_eq_zero (beq_iff_eq.mp h)
  have hmagnitude : x.magnitude / unitsPerOne * unitsPerOne = x.magnitude :=
    Nat.div_mul_cancel hdvd
  have hcast : ((x.magnitude / unitsPerOne : Nat) : Int) * unitsPerOne = x.magnitude := by
    exact_mod_cast hmagnitude
  simp only [units, truncate]
  split
  · rw [Int.neg_mul, hcast]
  · exact hcast.symm

theorem whole_of_units {x : Finite} {n : Int} (h : x.units = n * unitsPerOne) :
    x.isWhole = true ∧ x.truncate = n := by
  have hmag : x.magnitude = n.natAbs * unitsPerOne := by
    rw [← natAbs_units, h, Int.natAbs_mul, Int.natAbs_natCast]
  have hquot : x.magnitude / unitsPerOne = n.natAbs := by
    rw [hmag, Nat.mul_div_cancel _ unitsPerOne_pos]
  refine ⟨by simp [isWhole, hmag], ?_⟩
  have hunit : (0 : Int) < unitsPerOne := by exact_mod_cast unitsPerOne_pos
  unfold truncate
  dsimp only
  rw [hquot]
  unfold units at h
  cases hneg : x.negative with
  | true =>
    rw [hneg, if_pos rfl] at h
    have hle : n * unitsPerOne ≤ 0 := by omega
    have hn : n ≤ 0 := nonpos_of_mul_nonpos_left hle hunit
    simp only [if_true]
    omega
  | false =>
    rw [hneg, if_neg Bool.false_ne_true] at h
    have hge : 0 ≤ n * unitsPerOne := by omega
    have hn : 0 ≤ n := nonneg_of_mul_nonneg_left hge hunit
    simp only [Bool.false_eq_true, if_false]
    omega

end Finite

namespace Binary64

theorem lastPlace_of_size {num den : Nat} (hden : 0 < den) {x : Finite} (hx : x.significand ≠ 0)
    (h : (num / den : ℚ) = x.size) : lastPlace num den = x.exponent := by
  have hpow : (0 : ℚ) < 2 ^ x.exponent := by positivity
  obtain ⟨hbits, hleast, -, hfull⟩ := x.canonical
  have hsize := x.size_eq
  have hsig : (1 : ℚ) ≤ x.significand := by exact_mod_cast Nat.one_le_iff_ne_zero.mpr hx
  have hnum : 0 < num := by
    rw [Nat.pos_iff_ne_zero]
    rintro rfl
    rw [hsize, Nat.cast_zero, zero_div] at h
    exact absurd h.symm (mul_pos (zero_lt_one.trans_le hsig) hpow).ne'
  have htwo : (1 : ℚ) < 2 := by norm_num
  obtain ⟨hlow, hhigh⟩ := floorLog2_bounds hnum hden
  rw [h, hsize] at hlow hhigh
  have hup : floorLog2 num den < 53 + x.exponent := by
    apply (zpow_lt_zpow_iff_right₀ htwo).mp
    rw [zpow_add₀ (by norm_num), ← cast_twoPow_53]
    refine lt_of_le_of_lt hlow (mul_lt_mul_of_pos_right ?_ hpow)
    exact_mod_cast hbits
  unfold lastPlace
  rcases hfull with hfull | hleast'
  · have hdown : 52 + x.exponent < floorLog2 num den + 1 := by
      apply (zpow_lt_zpow_iff_right₀ htwo).mp
      refine lt_of_le_of_lt ?_ hhigh
      rw [zpow_add₀ (by norm_num), ← cast_twoPow_52]
      gcongr
    omega
  · omega

theorem ofParts_of_canonical (negative : Bool) {significand : Nat} {exponent : ℤ}
    (h : Canonical significand exponent) :
    ofParts negative significand exponent = .finite ⟨negative, significand, exponent, h⟩ :=
  dif_pos h

theorem roundRatio_of_size (negative : Bool) {num den : Nat} (hden : 0 < den) {x : Finite}
    (hx : x.significand ≠ 0) (h : (num / den : ℚ) = x.size) :
    roundRatio negative num den = .finite (x.withSign negative) := by
  have hplace := lastPlace_of_size hden hx h
  have hpow : (0 : ℚ) < 2 ^ x.exponent := by positivity
  have hsden : 0 < den * twoPow x.exponent.toNat := Nat.mul_pos hden (twoPow_pos _)
  have hratio : num * twoPow (-x.exponent).toNat =
      x.significand * (den * twoPow x.exponent.toNat) := by
    have hscaled := scaled_eq num den x.exponent
    rw [h, x.size_eq, mul_div_assoc, div_self hpow.ne', mul_one,
      div_eq_iff (by exact_mod_cast hsden.ne')] at hscaled
    exact_mod_cast hscaled
  have hnum : num ≠ 0 := by
    rintro rfl
    rw [Nat.zero_mul] at hratio
    exact (Nat.mul_pos (Nat.pos_of_ne_zero hx) hsden).ne hratio
  unfold roundRatio
  rw [if_neg hnum]
  dsimp only
  rw [hplace, hratio, roundHalfEven_mul _ _ hsden]
  exact ofParts_of_canonical negative x.canonical

theorem isFinite_ofParts_normal (negative : Bool) {num den : Nat} (hden : 0 < den) {k : ℤ}
    (hlow : (2 : ℚ) ^ k ≤ num / den) (hhigh : (num / den : ℚ) < 2 ^ (k + 1))
    (hleast : -1022 ≤ k) (hlast : k < 1023) :
    (ofParts negative (roundHalfEven (num * twoPow (-(k - 52)).toNat)
      (den * twoPow (k - 52).toNat)) (k - 52)).isFinite = true := by
  obtain ⟨hslow, hshigh⟩ := scaled_bits hden hlow hhigh
  set significand :=
    roundHalfEven (num * twoPow (-(k - 52)).toNat) (den * twoPow (k - 52).toNat)
  have hfit : (significand * 2 ^ (k - 52) : ℚ) < 2 ^ (1024 : ℤ) := by
    calc (significand * 2 ^ (k - 52) : ℚ) ≤ 2 ^ (53 : ℤ) * 2 ^ (k - 52) := by
          gcongr
          rw [← cast_twoPow_53]
          exact_mod_cast hshigh
      _ = 2 ^ (k + 1) := by
          rw [← zpow_add₀ (by norm_num)]
          congr 1
          omega
      _ < 2 ^ (1024 : ℤ) := by
          apply (zpow_lt_zpow_iff_right₀ (by norm_num : (1 : ℚ) < 2)).mpr
          omega
  obtain ⟨y, hy, -⟩ := size_ofParts negative hslow hshigh (by omega) hfit
  rw [hy]
  rfl

theorem isFinite_ofParts_least (negative : Bool) {num den : Nat} (hden : 0 < den)
    (hhigh : (num / den : ℚ) < 2 ^ (-1022 : ℤ)) :
    (ofParts negative (roundHalfEven (num * twoPow (-(-1074 : ℤ)).toNat)
      (den * twoPow (-1074 : ℤ).toNat)) (-1074)).isFinite = true := by
  have hsden : 0 < den * twoPow (-1074 : ℤ).toNat := Nat.mul_pos hden (twoPow_pos _)
  have hscaled := scaled_eq num den (-1074)
  set scaledNum := num * twoPow (-(-1074 : ℤ)).toNat
  set scaledDen := den * twoPow (-1074 : ℤ).toNat
  have hpow : (0 : ℚ) < 2 ^ (-1074 : ℤ) := by positivity
  have hsmall : (scaledNum / scaledDen : ℚ) < twoPow 52 := by
    rw [hscaled, div_lt_iff₀ hpow, cast_twoPow_52, ← zpow_add₀ (by norm_num)]
    exact hhigh
  have hquot : scaledNum / scaledDen < twoPow 52 := by
    rw [Nat.div_lt_iff_lt_mul hsden]
    exact_mod_cast (div_lt_iff₀ (by exact_mod_cast hsden)).mp hsmall
  have hup := (roundHalfEven_bounds scaledNum scaledDen).2
  have hbits : twoPow 52 < twoPow 53 := by decide
  rw [ofParts_of_canonical negative ⟨by omega, le_rfl, by decide, Or.inr rfl⟩]
  rfl

/-- Below the last binade of the format nothing is rounded to an infinity. -/
theorem isFinite_roundRatio (negative : Bool) {num den : Nat} (hden : 0 < den)
    (h : (num / den : ℚ) < 2 ^ (1023 : ℤ)) : (roundRatio negative num den).isFinite = true := by
  by_cases hnum : num = 0
  · subst hnum
    rw [roundRatio_zero]
    rfl
  obtain ⟨hlow, hhigh⟩ := floorLog2_bounds (Nat.pos_of_ne_zero hnum) hden
  have htwo : (1 : ℚ) < 2 := by norm_num
  have hlast := (zpow_lt_zpow_iff_right₀ htwo).mp (lt_of_le_of_lt hlow h)
  unfold roundRatio
  rw [if_neg hnum]
  dsimp only
  rcases le_or_gt (-1022) (floorLog2 num den) with hk | hk
  · have hplace : lastPlace num den = floorLog2 num den - 52 := by
      unfold lastPlace
      omega
    rw [hplace]
    exact isFinite_ofParts_normal negative hden hlow hhigh hk hlast
  · have hplace : lastPlace num den = -1074 := by
      unfold lastPlace
      omega
    rw [hplace]
    apply isFinite_ofParts_least negative hden
    exact hhigh.trans_le (zpow_le_zpow_right₀ htwo.le (by omega))

end Binary64

namespace Finite

theorem exists_size_eq {n : Nat} (hn : n ≠ 0) (hle : n ≤ twoPow 53) :
    ∃ x : Finite, x.significand ≠ 0 ∧ x.size = n := by
  rcases Nat.lt_or_eq_of_le hle with hlt | rfl
  · have hlow := Nat.log2_self_le hn
    have hhigh := @Nat.lt_log2_self n
    have hk : n.log2 ≤ 52 := by
      have := (Nat.log2_lt hn).mpr hlt
      omega
    obtain ⟨d, hd⟩ : ∃ d, n.log2 + d = 52 := ⟨52 - n.log2, by omega⟩
    have hpos := twoPow_pos d
    have hfull : twoPow 52 ≤ n * twoPow d := by
      rw [← hd, twoPow_add]
      exact Nat.mul_le_mul_right _ hlow
    have hbits : n * twoPow d < twoPow 53 := by
      have hsum : 53 = (n.log2 + 1) + d := by omega
      rw [hsum, twoPow_add]
      exact Nat.mul_lt_mul_of_pos_right hhigh hpos
    refine ⟨⟨false, n * twoPow d, -d, hbits, by omega, by omega, Or.inl hfull⟩,
      (Nat.mul_pos (Nat.pos_of_ne_zero hn) hpos).ne', ?_⟩
    rw [size_eq, Nat.cast_mul, cast_twoPow, mul_assoc, ← zpow_add₀ (by norm_num)]
    simp
  · refine ⟨⟨false, twoPow 52, 1, by decide⟩, (twoPow_pos 52).ne', ?_⟩
    rw [size_eq, cast_twoPow_52, cast_twoPow_53, ← zpow_add₀ (by norm_num)]
    norm_num

end Finite

namespace Binary64

theorem roundRatio_natural (negative : Bool) {n : Nat} (hle : n ≤ twoPow 53) :
    ∃ x, roundRatio negative n 1 = .finite x ∧ x.size = n ∧ x.negative = negative := by
  by_cases hn : n = 0
  · subst hn
    refine ⟨Finite.zero negative, roundRatio_zero negative 1, ?_, rfl⟩
    rw [Finite.size_zero, Nat.cast_zero]
  · obtain ⟨x, hx, hsize⟩ := Finite.exists_size_eq hn hle
    have hratio : (n / (1 : Nat) : ℚ) = x.size := by simp [hsize]
    exact ⟨x.withSign negative, roundRatio_of_size negative one_pos hx hratio, hsize, rfl⟩

theorem units_ofInt {n : Int} (h : n.natAbs ≤ twoPow 53) :
    ∃ x, ofInt n = .finite x ∧ x.units = n * unitsPerOne := by
  obtain ⟨x, hx, hsize, hsign⟩ := roundRatio_natural (decide (n < 0)) h
  refine ⟨x, hx, ?_⟩
  rw [Finite.units, hsign, Finite.magnitude_of_size hsize, Nat.cast_mul]
  by_cases hneg : n < 0
  · rw [if_pos (decide_eq_true hneg), Int.ofNat_natAbs_of_nonpos hneg.le, Int.neg_mul, Int.neg_neg]
  · rw [if_neg (by simpa using hneg), Int.natAbs_of_nonneg (not_lt.mp hneg)]

theorem isFinite_ofInt (n : Int64) : (ofInt n.toInt).isFinite = true := by
  apply isFinite_roundRatio _ one_pos
  have hle : n.toInt.natAbs ≤ twoPow 63 := by
    have hmin := n.minValue_le_toInt
    have hmax := n.toInt_le
    have hlow : Int64.minValue.toInt = -(twoPow 63 : Int) := by decide
    have hhigh : Int64.maxValue.toInt < (twoPow 63 : Int) := by decide
    omega
  calc (n.toInt.natAbs / (1 : Nat) : ℚ) = n.toInt.natAbs := by simp
    _ ≤ twoPow 63 := by exact_mod_cast hle
    _ = 2 ^ (63 : ℤ) := cast_twoPow 63
    _ < 2 ^ (1023 : ℤ) := zpow_lt_zpow_right₀ (by norm_num) (by norm_num)

theorem add_zero_of_ne {x : Finite} (h : x.magnitude ≠ 0) :
    Binary64.finite x + 0 = .finite x := by
  have hzero : (0 : Binary64) = .finite (Finite.zero false) := by decide +kernel
  have hnone : (Finite.zero false).units = 0 := by decide
  have hunits : x.units ≠ 0 := by
    rwa [← Int.natAbs_ne_zero, Finite.natAbs_units]
  have hsig : x.significand ≠ 0 := fun hsig => h (Finite.magnitude_eq_zero_iff.mpr hsig)
  have hsign : decide (x.units < 0) = x.negative := by
    unfold Finite.units
    cases x.negative with
    | false => simp
    | true => simp; omega
  rw [hzero, finite_add, Finite.add, hnone, Int.add_zero, if_neg hunits, Finite.natAbs_units,
    roundRatio_of_size _ unitsPerOne_pos hsig rfl, hsign]
  rfl

theorem add_zero_normalized (x : Finite) : ∃ y : Finite, Binary64.finite x + 0 = .finite y ∧
    y.Normalized := by
  by_cases hzero : x.magnitude = 0
  · have hx : x = Finite.zero x.negative :=
      Finite.eq_of_magnitude_eq rfl (hzero.trans (Finite.magnitude_zero _).symm)
    refine ⟨Finite.zero false, ?_, fun _ => rfl⟩
    rw [hx]
    exact zero_add_zero x.negative
  · exact ⟨x, add_zero_of_ne hzero, fun h => absurd h hzero⟩

theorem isFinite_div {x y : Finite} (hx : x.size ≤ twoPow 53) (hy : 1 ≤ y.size) :
    (Binary64.finite x / .finite y).isFinite = true := by
  have hmag := Finite.magnitude_pos_of_one_le hy
  rw [finite_div, Finite.div, if_neg hmag]
  apply isFinite_roundRatio _ (Nat.pos_of_ne_zero hmag)
  calc (x.magnitude / y.magnitude : ℚ) = x.size / y.size := x.magnitude_div y
    _ ≤ x.size := div_le_self x.size_nonneg hy
    _ ≤ twoPow 53 := hx
    _ = 2 ^ (53 : ℤ) := cast_twoPow_53
    _ < 2 ^ (1023 : ℤ) := zpow_lt_zpow_right₀ (by norm_num) (by norm_num)

theorem less_wholeBound_iff {x : Finite} :
    (Binary64.finite x).abs.less wholeBound = true ↔ x.magnitude < twoPow 52 * unitsPerOne := by
  obtain ⟨bound, hbound, hunits⟩ :=
    units_ofInt (n := (twoPow 52 : Int)) (by rw [Int.natAbs_natCast]; decide)
  have hless : (Binary64.finite x).abs.less wholeBound =
      decide ((x.withSign false).units < bound.units) := by
    rw [wholeBound, hbound]
    rfl
  rw [hless, decide_eq_true_eq, Finite.units_withSign, if_neg Bool.false_ne_true, hunits]
  exact_mod_cast Iff.rfl

/-- A number that is smaller than the bound of the fractions is rounded to a whole number exactly. -/
theorem size_roundWhole {x : Finite} (h : (Binary64.finite x).abs.less wholeBound = true) :
    ∃ y, x.roundWhole = .finite y ∧ y.size ≤ twoPow 53 := by
  have hlt := less_wholeBound_iff.mp h
  have hle : roundHalfUp x.magnitude unitsPerOne ≤ twoPow 53 := by
    have hbits : twoPow 53 = 2 * twoPow 52 := by decide
    have hunit : unitsPerOne ≤ twoPow 52 * unitsPerOne := Nat.le_mul_of_pos_left _ (twoPow_pos 52)
    unfold roundHalfUp
    rw [hbits]
    apply Nat.div_le_of_le_mul
    calc 2 * x.magnitude + unitsPerOne
        ≤ 2 * (twoPow 52 * unitsPerOne) + 2 * (twoPow 52 * unitsPerOne) := by omega
      _ = 2 * unitsPerOne * (2 * twoPow 52) := by ring
  obtain ⟨y, hy, hsize, -⟩ := roundRatio_natural x.negative hle
  exact ⟨y, hy, hsize ▸ by exact_mod_cast hle⟩

/-- A number is kept as it is, or scaled to a number below the bound, rounded and scaled back. -/
theorem roundPlaces_cases (a : Binary64) (places : Nat) :
    a.roundPlaces places = a ∨ ∃ scaled : Finite, a * decimalFactor places = .finite scaled ∧
      (Binary64.finite scaled).abs.less wholeBound = true ∧
      a.roundPlaces places =
        (Binary64.finite scaled).roundWhole / decimalFactor places + 0 := by
  unfold roundPlaces
  dsimp only
  split
  · exact Or.inl rfl
  · rename_i hkept
    simp only [Bool.or_eq_true, not_or, Bool.not_eq_true', Bool.not_eq_false] at hkept
    obtain ⟨hfinite, hless⟩ := hkept
    obtain ⟨scaled, hscaled⟩ := (isFinite_eq_true_iff _).mp hfinite
    rw [hscaled] at hless ⊢
    exact Or.inr ⟨scaled, rfl, hless, rfl⟩

/-- A finite number rounded to decimal places is finite, and a zero result is the positive zero. -/
theorem roundPlaces_normalized (x : Finite) (places : Nat) :
    ∃ y : Finite, (Binary64.finite x).roundPlaces places = .finite y ∧ y.Normalized := by
  by_cases hzero : x.magnitude = 0
  · exact ⟨Finite.zero false, roundPlaces_zero hzero places, fun _ => rfl⟩
  rcases roundPlaces_cases (.finite x) places with hkept | ⟨scaled, -, hless, hscaled⟩
  · exact ⟨x, hkept, fun h => absurd h hzero⟩
  · obtain ⟨factor, hfactor, hone⟩ := decimalFactor_finite places
    obtain ⟨whole, hwhole, hsize⟩ := size_roundWhole hless
    obtain ⟨result, hresult⟩ := (isFinite_eq_true_iff _).mp (isFinite_div hsize hone)
    have hwhole' : (Binary64.finite scaled).roundWhole = .finite whole := hwhole
    rw [hscaled, hfactor, hwhole', hresult]
    exact add_zero_normalized result

end Binary64

end DerivedForm.Number
