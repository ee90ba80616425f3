import DerivedForm.Proofs.Number.Exact

/-!
# Rounding and the range of the format

A rounding depends on the ratio alone, not on the numerator and the denominator that write it. Ratios
of `2 ^ 1024` and more are rounded to an infinity, ratios below `2 ^ -1075` to a zero, and a natural
number of at most 64 bits to a natural number.
-/

namespace DerivedForm.Number

theorem floorLog2_eq {num den : Nat} (hnum : 0 < num) (hden : 0 < den) {k : ℤ}
    (hlow : (2 : ℚ) ^ k ≤ num / den) (hhigh : (num / den : ℚ) < 2 ^ (k + 1)) :
    floorLog2 num den = k := by
  obtain ⟨hlow', hhigh'⟩ := floorLog2_bounds hnum hden
  have htwo : (1 : ℚ) < 2 := by norm_num
  have hup := (zpow_lt_zpow_iff_right₀ htwo).mp (lt_of_le_of_lt hlow' hhigh)
  have hdown := (zpow_lt_zpow_iff_right₀ htwo).mp (lt_of_le_of_lt hlow hhigh')
  omega

theorem le_floorLog2 {num den : Nat} (hnum : 0 < num) (hden : 0 < den) {k : ℤ}
    (h : (2 : ℚ) ^ k ≤ num / den) : k ≤ floorLog2 num den := by
  have hlt := lt_of_le_of_lt h (floorLog2_bounds hnum hden).2
  have := (zpow_lt_zpow_iff_right₀ (by norm_num : (1 : ℚ) < 2)).mp hlt
  omega

theorem floorLog2_lt {num den : Nat} (hnum : 0 < num) (hden : 0 < den) {k : ℤ}
    (h : (num / den : ℚ) < 2 ^ k) : floorLog2 num den < k :=
  (zpow_lt_zpow_iff_right₀ (by norm_num : (1 : ℚ) < 2)).mp
    (lt_of_le_of_lt (floorLog2_bounds hnum hden).1 h)

theorem roundHalfEven_mul_mul {num den c : Nat} (hc : 0 < c) :
    roundHalfEven (num * c) (den * c) = roundHalfEven num den := by
  have hbelow : 2 * (num % den * c) < den * c ↔ 2 * (num % den) < den := by
    rw [← Nat.mul_assoc, Nat.mul_lt_mul_right hc]
  have htie : 2 * (num % den * c) = den * c ↔ 2 * (num % den) = den := by
    rw [← Nat.mul_assoc, Nat.mul_left_inj hc.ne']
  simp only [roundHalfEven, Nat.mul_div_mul_right _ _ hc, Nat.mul_mod_mul_right, hbelow, htie]

theorem roundHalfEven_congr {num den num' den' : Nat} (hden : 0 < den) (hden' : 0 < den')
    (h : num * den' = num' * den) : roundHalfEven num den = roundHalfEven num' den' := by
  calc roundHalfEven num den = roundHalfEven (num * den') (den * den') :=
        (roundHalfEven_mul_mul hden').symm
    _ = roundHalfEven (num' * den) (den' * den) := by rw [h, Nat.mul_comm den]
    _ = roundHalfEven num' den' := roundHalfEven_mul_mul hden

namespace Binary64

theorem ofParts_zero (negative : Bool) : ofParts negative 0 (-1074) = zero negative :=
  ofParts_of_canonical negative (by decide)

theorem ofParts_of_lt (negative : Bool) (significand : Nat) {exponent : ℤ} (h : 971 < exponent) :
    ofParts negative significand exponent = .infinite negative := by
  have hnot : ¬ Canonical significand exponent := fun hc => by
    have := hc.2.2.1
    omega
  have hnot' : ¬ Canonical (significand / 2) (exponent + 1) := fun hc => by
    have := hc.2.2.1
    omega
  simp [ofParts, hnot, hnot']

theorem roundRatio_congr (negative : Bool) {num den num' den' : Nat} (hden : 0 < den)
    (hden' : 0 < den') (h : (num / den : ℚ) = num' / den') :
    roundRatio negative num den = roundRatio negative num' den' := by
  have hd : (den : ℚ) ≠ 0 := by exact_mod_cast hden.ne'
  have hd' : (den' : ℚ) ≠ 0 := by exact_mod_cast hden'.ne'
  have hcross : num * den' = num' * den := by exact_mod_cast (div_eq_div_iff hd hd').mp h
  rcases Nat.eq_zero_or_pos num with rfl | hnum
  · obtain rfl : num' = 0 := by
      rw [Nat.zero_mul] at hcross
      exact (Nat.mul_eq_zero.mp hcross.symm).resolve_right hden.ne'
    rw [roundRatio_zero, roundRatio_zero]
  · have hnum' : 0 < num' := by
      rw [Nat.pos_iff_ne_zero]
      rintro rfl
      rw [Nat.zero_mul] at hcross
      exact (Nat.mul_pos hnum hden').ne' hcross
    obtain ⟨hlow, hhigh⟩ := floorLog2_bounds hnum' hden'
    have hplace : lastPlace num den = lastPlace num' den' := by
      unfold lastPlace
      rw [floorLog2_eq hnum hden (h ▸ hlow) (h ▸ hhigh)]
    simp only [roundRatio, hnum.ne', hnum'.ne', if_false, hplace]
    congr 1
    apply roundHalfEven_congr (Nat.mul_pos hden (twoPow_pos _)) (Nat.mul_pos hden' (twoPow_pos _))
    rw [Nat.mul_mul_mul_comm, hcross, Nat.mul_mul_mul_comm]

theorem roundRatio_of_range_le (negative : Bool) {num den : Nat} (hden : 0 < den)
    (h : (2 : ℚ) ^ (1024 : ℤ) ≤ num / den) : roundRatio negative num den = .infinite negative := by
  have hnum : 0 < num := by
    rw [Nat.pos_iff_ne_zero]
    rintro rfl
    rw [Nat.cast_zero, zero_div] at h
    exact absurd h (not_le.mpr (by positivity))
  have hlog := le_floorLog2 hnum hden h
  simp only [roundRatio, hnum.ne', if_false]
  apply ofParts_of_lt
  unfold lastPlace
  omega

theorem roundHalfEven_of_lt_range {num den : Nat} (hden : 0 < den)
    (h : (num / den : ℚ) < 2 ^ (-1075 : ℤ)) : roundHalfEven (num * unitsPerOne) den = 0 := by
  have hd : (0 : ℚ) < den := by exact_mod_cast hden
  have hunit : (unitsPerOne : ℚ) = 2 ^ (1074 : ℤ) := cast_twoPow 1074
  -- the unit is too long to be looked into
  generalize unitsPerOne = unit at hunit ⊢
  have hhalf : 2 * (num * unit) < den := by
    have hcast : (2 * (num * unit) : ℚ) < den := by
      calc (2 * (num * unit) : ℚ) = num * (2 ^ (1 : ℤ) * 2 ^ (1074 : ℤ)) := by
            rw [hunit, zpow_one]
            ring
        _ = num * 2 ^ (1075 : ℤ) := by rw [← zpow_add₀ (by norm_num : (2 : ℚ) ≠ 0)]; rfl
        _ < 2 ^ (-1075 : ℤ) * den * 2 ^ (1075 : ℤ) := by
            gcongr
            exact (div_lt_iff₀ hd).mp h
        _ = den * (2 ^ (-1075 : ℤ) * 2 ^ (1075 : ℤ)) := by ring
        _ = den := by rw [zpow_neg_mul_zpow_self _ (by norm_num : (2 : ℚ) ≠ 0), mul_one]
    exact_mod_cast hcast
  have hsmall : num * unit < den := by omega
  simp [roundHalfEven, Nat.div_eq_of_lt hsmall, Nat.mod_eq_of_lt hsmall, hhalf]

theorem roundRatio_of_lt_range (negative : Bool) {num den : Nat} (hden : 0 < den)
    (h : (num / den : ℚ) < 2 ^ (-1075 : ℤ)) : roundRatio negative num den = zero negative := by
  rcases Nat.eq_zero_or_pos num with rfl | hnum
  · exact roundRatio_zero negative den
  have hlog := floorLog2_lt hnum hden h
  have hplace : lastPlace num den = -1074 := by
    unfold lastPlace
    omega
  have hround : roundHalfEven (num * twoPow (-(-1074 : ℤ)).toNat)
      (den * twoPow (-1074 : ℤ).toNat) = 0 := by
    change roundHalfEven (num * unitsPerOne) (den * 1) = 0
    rw [Nat.mul_one]
    exact roundHalfEven_of_lt_range hden h
  simp only [roundRatio, hnum.ne', if_false, hplace, hround]
  exact ofParts_zero negative

/-- A natural number of more than 53 bits loses its last places and stays a natural number. -/
theorem roundRatio_natural_of_lt (negative : Bool) {n k : Nat} (hlow : twoPow 53 ≤ n)
    (hhigh : n < twoPow k) (hk : k ≤ 1023) :
    ∃ x m, roundRatio negative n 1 = .finite x ∧ x.size = (m : Nat) ∧ m ≤ twoPow k := by
  have hn : 0 < n := (twoPow_pos 53).trans_le hlow
  have hone : (n / (1 : Nat) : ℚ) = n := by simp
  have hleast : 53 ≤ floorLog2 n 1 := by
    apply le_floorLog2 hn one_pos
    rw [hone, ← cast_twoPow_53]
    exact_mod_cast hlow
  have hmost : floorLog2 n 1 < k := by
    apply floorLog2_lt hn one_pos
    rw [hone, ← cast_twoPow]
    exact_mod_cast hhigh
  obtain ⟨hfloor, hceil⟩ := floorLog2_bounds hn one_pos
  have hplace : lastPlace n 1 = floorLog2 n 1 - 52 := by
    unfold lastPlace
    omega
  obtain ⟨places, hplaces⟩ : ∃ places : Nat, floorLog2 n 1 - 52 = places :=
    ⟨(floorLog2 n 1 - 52).toNat, by omega⟩
  obtain ⟨hslow, hshigh⟩ := scaled_bits one_pos hfloor hceil
  rw [hplaces] at hslow hshigh hplace
  have hround : roundRatio negative n 1 = ofParts negative (roundHalfEven
      (n * twoPow (-(places : ℤ)).toNat) (1 * twoPow (places : ℤ).toNat)) places := by
    simp only [roundRatio, hn.ne', if_false, hplace]
  set significand := roundHalfEven (n * twoPow (-(places : ℤ)).toNat)
    (1 * twoPow (places : ℤ).toNat)
  have hle : significand * twoPow places ≤ twoPow k := by
    calc significand * twoPow places ≤ twoPow 53 * twoPow places := Nat.mul_le_mul_right _ hshigh
      _ = twoPow (53 + places) := (twoPow_add 53 places).symm
      _ ≤ twoPow k := Nat.pow_le_pow_right (by decide) (by omega)
  have hsize : (significand * 2 ^ (places : ℤ) : ℚ) = (significand * twoPow places : Nat) := by
    rw [Nat.cast_mul, cast_twoPow]
  have hfit : (significand * 2 ^ (places : ℤ) : ℚ) < 2 ^ (1024 : ℤ) := by
    calc (significand * 2 ^ (places : ℤ) : ℚ) ≤ twoPow k := by
          rw [hsize]
          exact_mod_cast hle
      _ = 2 ^ (k : ℤ) := cast_twoPow k
      _ < 2 ^ (1024 : ℤ) := zpow_lt_zpow_right₀ (by norm_num) (by omega)
  obtain ⟨x, hx, hxsize⟩ := size_ofParts negative hslow hshigh (by omega) hfit
  exact ⟨x, significand * twoPow places, hround.trans hx, hxsize.trans hsize, hle⟩

theorem roundRatio_int64 (negative : Bool) {n : Nat} (h : n ≤ twoPow 63) :
    ∃ x m, roundRatio negative n 1 = .finite x ∧ x.size = (m : Nat) ∧ m ≤ twoPow 63 := by
  have hbits : twoPow 53 ≤ twoPow 63 := by decide
  rcases Nat.lt_or_eq_of_le h with hlt | rfl
  · rcases Nat.le_total n (twoPow 53) with hsmall | hlarge
    · obtain ⟨x, hx, hsize, -⟩ := roundRatio_natural negative hsmall
      exact ⟨x, n, hx, hsize, h⟩
    · exact roundRatio_natural_of_lt negative hlarge hlt (by decide)
  · set x : Finite := ⟨negative, twoPow 52, 11, by decide⟩ with hx
    have hsize : x.size = (twoPow 63 : Nat) := by
      rw [Finite.size_eq, cast_twoPow, cast_twoPow, ← zpow_add₀ (by norm_num)]
      rfl
    have hratio : (twoPow 63 / (1 : Nat) : ℚ) = x.size := by simp [hsize]
    exact ⟨x, twoPow 63, roundRatio_of_size negative one_pos (twoPow_pos 52).ne' hratio, hsize,
      le_rfl⟩

end Binary64

end DerivedForm.Number
