import DerivedForm.Proofs.Number.Exact

/-!
# How near a rounding is

A rounding picks a multiple of the last place, and it is off by half of that place at most. So the error
is at most one part in `2 ^ 53` of the ratio, or half of the least number where the format has no smaller
place. It never passes a multiple of 53 bits of some place: a ratio below one is rounded to a number that
is not above it, and a ratio above one to a number that is not below it.
-/

namespace DerivedForm.Number

theorem roundHalfEven_le {num den n : Nat} (hden : 0 < den) (h : (num / den : ℚ) ≤ n) :
    roundHalfEven num den ≤ n := by
  have hd : (0 : ℚ) < den := by exact_mod_cast hden
  have hmul : num ≤ n * den := by exact_mod_cast (div_le_iff₀ hd).mp h
  rcases Nat.lt_or_eq_of_le hmul with hlt | rfl
  · have hquot : num / den < n := (Nat.div_lt_iff_lt_mul hden).mpr hlt
    have := (roundHalfEven_bounds num den).2
    omega
  · exact (roundHalfEven_mul n den hden).le

theorem sub_half_le_roundHalfEven (num : Nat) {den : Nat} (hden : 0 < den) :
    (num / den : ℚ) - 1 / 2 ≤ roundHalfEven num den := by
  have hd : (0 : ℚ) < den := by exact_mod_cast hden
  have hdiv : num = den * (num / den) + num % den := (Nat.div_add_mod num den).symm
  have hrest := Nat.mod_lt num hden
  have htwice : 2 * num ≤ den * (2 * roundHalfEven num den + 1) := by
    unfold roundHalfEven
    dsimp only
    split
    · rw [Nat.mul_add, Nat.mul_left_comm]
      omega
    · rw [Nat.mul_add, Nat.mul_left_comm, Nat.mul_add]
      omega
  have hcast : (2 * num : ℚ) ≤ den * (2 * roundHalfEven num den + 1) := by exact_mod_cast htwice
  have hratio : (num / den : ℚ) ≤ (2 * roundHalfEven num den + 1) / 2 := by
    rw [div_le_div_iff₀ hd two_pos]
    linarith
  linarith

theorem abs_roundHalfEven_sub_le (num : Nat) {den : Nat} (hden : 0 < den) :
    |(roundHalfEven num den : ℚ) - num / den| ≤ 1 / 2 := by
  rw [abs_le]
  have hlow := sub_half_le_roundHalfEven num hden
  have hhigh := @roundHalfEven_le_add_half num den hden
  constructor <;> linarith

namespace Binary64

variable {num den : Nat}

/-- A ratio has at most 53 bits before its last place, and no fewer unless that is the least place. -/
theorem lastPlace_bounds (hnum : 0 < num) (hden : 0 < den) :
    -1074 ≤ lastPlace num den ∧ (num / den : ℚ) < 2 ^ (lastPlace num den + 53) ∧
      (lastPlace num den = -1074 ∨ (2 : ℚ) ^ (lastPlace num den + 52) ≤ num / den) := by
  obtain ⟨hlow, hhigh⟩ := floorLog2_bounds hnum hden
  have hle : floorLog2 num den - 52 ≤ lastPlace num den := le_max_left _ _
  refine ⟨le_max_right _ _, hhigh.trans_le ?_, ?_⟩
  · exact zpow_le_zpow_right₀ (by norm_num) (by omega)
  · rcases max_choice (floorLog2 num den - 52) (-1074) with hmax | hmax
    · right
      have hplace : lastPlace num den + 52 = floorLog2 num den := by
        unfold lastPlace
        omega
      rwa [hplace]
    · exact Or.inl hmax

theorem size_of_ofParts {negative : Bool} {significand : Nat} {place : ℤ} {y : Finite}
    (hbits : significand ≤ twoPow 53) (hplace : -1074 ≤ place)
    (h : ofParts negative significand place = .finite y) : y.size = significand * 2 ^ place := by
  unfold ofParts at h
  split at h
  · cases h
    exact Finite.size_eq _
  · split at h
    · rename_i hc
      -- only a significand of more than 53 bits is halved
      have hfull : twoPow 52 ≤ significand / 2 := hc.2.2.2.resolve_right (by omega)
      have htop : twoPow 53 = 2 * twoPow 52 := by decide
      obtain rfl : significand = twoPow 53 := by omega
      have hhalf : twoPow 53 / 2 = twoPow 52 := by decide
      cases h
      calc (Finite.size _ : ℚ) = (twoPow 53 / 2 : Nat) * 2 ^ (place + 1) := Finite.size_eq _
        _ = 2 ^ (52 : ℤ) * (2 ^ place * 2) := by
          rw [hhalf, cast_twoPow_52, zpow_add_one₀ (by norm_num)]
        _ = twoPow 53 * 2 ^ place := by
          rw [cast_twoPow_53]
          norm_num
          ring
    · cases h

/-- What a rounding is: a multiple of the last place, nearest to the ratio. -/
theorem exists_significand {negative : Bool} {y : Finite} (hnum : 0 < num) (hden : 0 < den)
    (h : roundRatio negative num den = .finite y) : ∃ scaledNum scaledDen : Nat, 0 < scaledDen ∧
      (num / den : ℚ) = scaledNum / scaledDen * 2 ^ lastPlace num den ∧
      y.size = roundHalfEven scaledNum scaledDen * 2 ^ lastPlace num den := by
  obtain ⟨hleast, hhigh, -⟩ := lastPlace_bounds hnum hden
  have hscaled := scaled_eq num den (lastPlace num den)
  simp only [roundRatio, hnum.ne', if_false] at h
  set place := lastPlace num den
  have hpow : (0 : ℚ) < 2 ^ place := by positivity
  have hsden : 0 < den * twoPow place.toNat := Nat.mul_pos hden (twoPow_pos _)
  refine ⟨_, _, hsden, ?_, size_of_ofParts (roundHalfEven_le hsden ?_) hleast h⟩
  · rw [hscaled, div_mul_cancel₀ _ hpow.ne']
  · rw [hscaled, div_le_iff₀ hpow, cast_twoPow_53, ← zpow_add₀ (by norm_num)]
    refine hhigh.le.trans_eq ?_
    congr 1
    omega

/-- A rounding is off by one part in `2 ^ 53` at most, or by half of the least number. -/
theorem abs_size_sub_le {negative : Bool} {y : Finite} (hden : 0 < den)
    (h : roundRatio negative num den = .finite y) :
    |y.size - num / den| ≤ max (num / den * 2 ^ (-53 : ℤ) : ℚ) (2 ^ (-1075 : ℤ)) := by
  rcases Nat.eq_zero_or_pos num with rfl | hnum
  · rw [roundRatio_zero] at h
    cases h
    rw [Finite.size_zero, Nat.cast_zero, zero_div, sub_zero, abs_zero]
    exact le_max_of_le_right (by positivity)
  obtain ⟨-, -, hfull⟩ := lastPlace_bounds hnum hden
  obtain ⟨scaledNum, scaledDen, hsden, hratio, hsize⟩ := exists_significand hnum hden h
  have hhalf := abs_roundHalfEven_sub_le scaledNum hsden
  have herror : |y.size - num / den| ≤ 2 ^ (lastPlace num den - 1) := by
    rw [hsize, hratio, ← sub_mul, abs_mul, abs_of_pos (by positivity : (0 : ℚ) < 2 ^ lastPlace num den),
      zpow_sub_one₀ (by norm_num), mul_comm]
    gcongr
    rw [← one_div]
    exact hhalf
  refine herror.trans ?_
  rcases hfull with hleast | hfull
  · rw [hleast]
    exact le_max_right _ _
  · apply le_max_of_le_left
    have hsum : lastPlace num den - 1 = lastPlace num den + 52 + -53 := by omega
    rw [hsum, zpow_add₀ (by norm_num)]
    gcongr

theorem exists_multiple_of_le {fine coarse : ℤ} (m : Nat) (h : fine ≤ coarse) :
    ∃ k : Nat, (m * 2 ^ coarse : ℚ) = k * 2 ^ fine := by
  obtain ⟨shift, rfl⟩ : ∃ shift : Nat, coarse = shift + fine := ⟨(coarse - fine).toNat, by omega⟩
  refine ⟨m * twoPow shift, ?_⟩
  rw [zpow_add₀ (by norm_num), Nat.cast_mul, cast_twoPow, mul_assoc]

/-- A ratio that is not below a multiple of 53 bits is not rounded below it. -/
theorem le_size_of_le {negative : Bool} {y : Finite} {m : Nat} {place : ℤ} (hnum : 0 < num)
    (hden : 0 < den) (h : roundRatio negative num den = .finite y) (hm : m ≤ twoPow 53)
    (hplace : -1074 ≤ place) (hle : (m * 2 ^ place : ℚ) ≤ num / den) :
    (m * 2 ^ place : ℚ) ≤ y.size := by
  obtain ⟨hleast, -, hfull⟩ := lastPlace_bounds hnum hden
  obtain ⟨scaledNum, scaledDen, hsden, hratio, hsize⟩ := exists_significand hnum hden h
  have hpow : (0 : ℚ) < 2 ^ lastPlace num den := by positivity
  rcases le_or_gt (lastPlace num den) place with hfine | hcoarse
  · obtain ⟨k, hmultiple⟩ := exists_multiple_of_le m hfine
    rw [hmultiple, hratio, mul_le_mul_iff_left₀ hpow] at hle
    rw [hmultiple, hsize]
    gcongr
    exact le_roundHalfEven hsden hle
  · have hbits := hfull.resolve_left (by omega)
    rw [hratio, zpow_add₀ (by norm_num), mul_comm, mul_le_mul_iff_left₀ hpow,
      ← cast_twoPow_52] at hbits
    calc (m * 2 ^ place : ℚ) ≤ twoPow 53 * 2 ^ place := by gcongr
      _ = 2 ^ (53 + place) := by rw [cast_twoPow_53, ← zpow_add₀ (by norm_num)]
      _ ≤ 2 ^ (52 + lastPlace num den) := zpow_le_zpow_right₀ (by norm_num) (by omega)
      _ = twoPow 52 * 2 ^ lastPlace num den := by rw [cast_twoPow_52, ← zpow_add₀ (by norm_num)]
      _ ≤ y.size := by
        rw [hsize]
        gcongr
        exact le_roundHalfEven hsden hbits

theorem size_le_of_le {negative : Bool} {y : Finite} {m : Nat} {place : ℤ} (hnum : 0 < num)
    (hden : 0 < den) (h : roundRatio negative num den = .finite y) (hm : m < twoPow 53)
    (hplace : -1074 ≤ place) (hle : (num / den : ℚ) ≤ m * 2 ^ place) :
    y.size ≤ m * 2 ^ place := by
  obtain ⟨hleast, -, hfull⟩ := lastPlace_bounds hnum hden
  obtain ⟨scaledNum, scaledDen, hsden, hratio, hsize⟩ := exists_significand hnum hden h
  have hpow : (0 : ℚ) < 2 ^ lastPlace num den := by positivity
  rcases le_or_gt (lastPlace num den) place with hfine | hcoarse
  · obtain ⟨k, hmultiple⟩ := exists_multiple_of_le m hfine
    rw [hmultiple, hratio, mul_le_mul_iff_left₀ hpow] at hle
    rw [hmultiple, hsize]
    gcongr
    exact roundHalfEven_le hsden hle
  · -- the ratio would have more than 53 bits before the place
    exfalso
    have hbits := hfull.resolve_left (by omega)
    have hlt : (m * 2 ^ place : ℚ) < 2 ^ (lastPlace num den + 52) := by
      calc (m * 2 ^ place : ℚ) < twoPow 53 * 2 ^ place := by gcongr
        _ = 2 ^ (53 + place) := by rw [cast_twoPow_53, ← zpow_add₀ (by norm_num)]
        _ ≤ 2 ^ (lastPlace num den + 52) := zpow_le_zpow_right₀ (by norm_num) (by omega)
    exact absurd (hbits.trans hle) (not_le.mpr hlt)

end Binary64

end DerivedForm.Number
