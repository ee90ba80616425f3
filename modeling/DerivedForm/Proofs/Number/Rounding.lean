import DerivedForm.Number.Binary64
import Mathlib.Algebra.Order.Field.Power
import Mathlib.Data.Rat.Cast.Order
import Mathlib.Tactic.FieldSimp
import Mathlib.Tactic.Linarith
import Mathlib.Tactic.Positivity
import Mathlib.Tactic.Ring

/-!
# How far a rounding is from the exact ratio

Ratios and finite numbers are compared as rational numbers. A ratio of at least one that stays
clear of the upper end of the format is rounded to a finite number, which is larger than the ratio
by at most one part in `2 ^ 53` and is not less than one.
-/

namespace DerivedForm.Number

theorem twoPow_pos (k : Nat) : 0 < twoPow k := Nat.pow_pos (by decide)

theorem twoPow_add (j k : Nat) : twoPow (j + k) = twoPow j * twoPow k := Nat.pow_add 2 j k

theorem cast_twoPow (k : Nat) : (twoPow k : ℚ) = 2 ^ (k : ℤ) := by
  rw [zpow_natCast]
  exact_mod_cast Nat.cast_pow 2 k

theorem cast_twoPow_52 : (twoPow 52 : ℚ) = 2 ^ (52 : ℤ) := cast_twoPow 52

theorem cast_twoPow_53 : (twoPow 53 : ℚ) = 2 ^ (53 : ℤ) := cast_twoPow 53

theorem twoPow_toNat_div (k : ℤ) :
    (twoPow k.toNat : ℚ) / twoPow (-k).toNat = 2 ^ k := by
  rw [cast_twoPow, cast_twoPow, ← zpow_sub₀ (by norm_num)]
  congr 1
  omega

theorem belowPowTwo_iff {num den : Nat} (hden : 0 < den) (k : ℤ) :
    belowPowTwo num den k = true ↔ (num / den : ℚ) < 2 ^ k := by
  have hd : (0 : ℚ) < den := by exact_mod_cast hden
  have hs : (0 : ℚ) < twoPow (-k).toNat := by exact_mod_cast twoPow_pos _
  rw [← twoPow_toNat_div, div_lt_div_iff₀ hd hs, mul_comm (twoPow k.toNat : ℚ)]
  simp only [belowPowTwo, decide_eq_true_eq]
  exact_mod_cast Iff.rfl

theorem cast_log2_bounds {n : Nat} (hn : 0 < n) :
    (2 : ℚ) ^ (n.log2 : ℤ) ≤ n ∧ (n : ℚ) < 2 ^ ((n.log2 : ℤ) + 1) := by
  have hlow := Nat.log2_self_le hn.ne'
  have hhigh := @Nat.lt_log2_self n
  constructor
  · rw [zpow_natCast]
    exact_mod_cast hlow
  · rw [← Int.natCast_succ, zpow_natCast]
    exact_mod_cast hhigh

theorem floorLog2_bounds {num den : Nat} (hnum : 0 < num) (hden : 0 < den) :
    (2 : ℚ) ^ floorLog2 num den ≤ num / den ∧
      (num / den : ℚ) < 2 ^ (floorLog2 num den + 1) := by
  obtain ⟨hnlow, hnhigh⟩ := cast_log2_bounds hnum
  obtain ⟨hdlow, hdhigh⟩ := cast_log2_bounds hden
  have hd : (0 : ℚ) < den := by exact_mod_cast hden
  have hlow : (2 : ℚ) ^ ((num.log2 : ℤ) - den.log2 - 1) ≤ num / den := by
    rw [le_div_iff₀ hd]
    calc (2 : ℚ) ^ ((num.log2 : ℤ) - den.log2 - 1) * den
        ≤ 2 ^ ((num.log2 : ℤ) - den.log2 - 1) * 2 ^ ((den.log2 : ℤ) + 1) := by gcongr
      _ = 2 ^ (num.log2 : ℤ) := by
        rw [← zpow_add₀ (by norm_num)]
        congr 1
        omega
      _ ≤ num := hnlow
  have hhigh : (num / den : ℚ) < 2 ^ ((num.log2 : ℤ) - den.log2 + 1) := by
    rw [div_lt_iff₀ hd]
    calc (num : ℚ) < 2 ^ ((num.log2 : ℤ) + 1) := hnhigh
      _ = 2 ^ ((num.log2 : ℤ) - den.log2 + 1) * 2 ^ (den.log2 : ℤ) := by
        rw [← zpow_add₀ (by norm_num)]
        congr 1
        omega
      _ ≤ 2 ^ ((num.log2 : ℤ) - den.log2 + 1) * den := by gcongr
  unfold floorLog2
  dsimp only
  split
  · rename_i h
    rw [belowPowTwo_iff hden] at h
    exact ⟨hlow, by simpa using h⟩
  · rename_i h
    rw [belowPowTwo_iff hden, not_lt] at h
    exact ⟨h, hhigh⟩

theorem roundHalfEven_le_add_half {num den : Nat} (hden : 0 < den) :
    (roundHalfEven num den : ℚ) ≤ num / den + 1 / 2 := by
  have hd : (0 : ℚ) < den := by exact_mod_cast hden
  have hdiv : num = den * (num / den) + num % den := (Nat.div_add_mod num den).symm
  have htwice : 2 * den * roundHalfEven num den ≤ 2 * num + den := by
    unfold roundHalfEven
    dsimp only
    split
    · rw [Nat.mul_assoc]
      omega
    · rw [Nat.mul_assoc, Nat.mul_add]
      omega
  have hcast : (2 : ℚ) * den * roundHalfEven num den ≤ 2 * num + den := by exact_mod_cast htwice
  rw [div_add_div _ _ hd.ne' two_ne_zero, le_div_iff₀ (by positivity)]
  linarith

theorem le_roundHalfEven {num den n : Nat} (hden : 0 < den) (h : (n : ℚ) ≤ num / den) :
    n ≤ roundHalfEven num den := by
  have hd : (0 : ℚ) < den := by exact_mod_cast hden
  have hmul : n * den ≤ num := by exact_mod_cast (le_div_iff₀ hd).mp h
  exact ((Nat.le_div_iff_mul_le hden).mpr hmul).trans (roundHalfEven_bounds num den).1

theorem floorLog2_nonneg {num den : Nat} (hnum : 0 < num) (hden : 0 < den)
    (hone : 1 ≤ (num / den : ℚ)) : 0 ≤ floorLog2 num den := by
  have hlt : (2 : ℚ) ^ (0 : ℤ) < 2 ^ (floorLog2 num den + 1) := by
    simpa using lt_of_le_of_lt hone (floorLog2_bounds hnum hden).2
  have := (zpow_lt_zpow_iff_right₀ (by norm_num : (1 : ℚ) < 2)).mp hlt
  omega

theorem zpow_split (k : ℤ) : (2 : ℚ) ^ k = 2 ^ (52 : ℤ) * 2 ^ (k - 52) := by
  rw [← zpow_add₀ (by norm_num)]
  congr 1
  omega

theorem scaled_eq (num den : Nat) (place : ℤ) :
    ((num * twoPow (-place).toNat : Nat) / (den * twoPow place.toNat : Nat) : ℚ) =
      num / den / 2 ^ place := by
  rw [← twoPow_toNat_div]
  push_cast
  field_simp

/-- Scaled by the place of its last bit, a ratio has 53 bits before the point. -/
theorem scaled_bits {num den : Nat} {k : ℤ} (hden : 0 < den)
    (hlow : (2 : ℚ) ^ k ≤ num / den) (hhigh : (num / den : ℚ) < 2 ^ (k + 1)) :
    twoPow 52 ≤
        roundHalfEven (num * twoPow (-(k - 52)).toNat) (den * twoPow (k - 52).toNat) ∧
      roundHalfEven (num * twoPow (-(k - 52)).toNat) (den * twoPow (k - 52).toNat) ≤
        twoPow 53 := by
  have hpow : (0 : ℚ) < 2 ^ (k - 52) := by positivity
  have hscaled := scaled_eq num den (k - 52)
  have hsden : 0 < den * twoPow (k - 52).toNat := Nat.mul_pos hden (twoPow_pos _)
  set scaledNum := num * twoPow (-(k - 52)).toNat
  set scaledDen := den * twoPow (k - 52).toNat
  have hbits : (twoPow 52 : ℚ) ≤ scaledNum / scaledDen := by
    rw [hscaled, le_div_iff₀ hpow, cast_twoPow_52]
    exact zpow_split k ▸ hlow
  have hbits' : (scaledNum / scaledDen : ℚ) < twoPow 53 := by
    rw [hscaled, div_lt_iff₀ hpow, cast_twoPow_53, ← zpow_add₀ (by norm_num)]
    refine lt_of_lt_of_eq hhigh ?_
    congr 1
    omega
  have hquot : scaledNum / scaledDen < twoPow 53 := by
    rw [Nat.div_lt_iff_lt_mul hsden]
    exact_mod_cast (div_lt_iff₀ (by exact_mod_cast hsden)).mp hbits'
  have hup := (roundHalfEven_bounds scaledNum scaledDen).2
  exact ⟨le_roundHalfEven hsden hbits, by omega⟩

theorem scaled_le {num den : Nat} {k : ℤ} (hden : 0 < den) (hlow : (2 : ℚ) ^ k ≤ num / den) :
    (roundHalfEven (num * twoPow (-(k - 52)).toNat) (den * twoPow (k - 52).toNat) *
      2 ^ (k - 52) : ℚ) ≤ num / den * (1 + 2 ^ (-53 : ℤ)) := by
  have hpow : (0 : ℚ) < 2 ^ (k - 52) := by positivity
  have hsden : 0 < den * twoPow (k - 52).toNat := Nat.mul_pos hden (twoPow_pos _)
  have hhalf := scaled_eq num den (k - 52) ▸ roundHalfEven_le_add_half hsden
  -- half of the last place is one part in `2 ^ 53` of the first one
  have hulp : (1 / 2 : ℚ) * 2 ^ (k - 52) = 2 ^ k * 2 ^ (-53 : ℤ) := by
    rw [zpow_split k]
    norm_num
    ring
  calc (roundHalfEven (num * twoPow (-(k - 52)).toNat) (den * twoPow (k - 52).toNat) *
        2 ^ (k - 52) : ℚ)
      ≤ (num / den / 2 ^ (k - 52) + 1 / 2) * 2 ^ (k - 52) := by gcongr
    _ = num / den + 2 ^ k * 2 ^ (-53 : ℤ) := by
      rw [add_mul, div_mul_cancel₀ _ hpow.ne', hulp]
    _ ≤ num / den + num / den * 2 ^ (-53 : ℤ) := by gcongr
    _ = num / den * (1 + 2 ^ (-53 : ℤ)) := by ring

namespace Finite

def size (x : Finite) : ℚ := x.magnitude / unitsPerOne

theorem size_eq (x : Finite) : x.size = x.significand * 2 ^ x.exponent := by
  have hexp : 0 ≤ x.exponent + 1074 := by
    have := x.canonical.2.1
    omega
  have hunit : (unitsPerOne : ℚ) = 2 ^ (1074 : ℤ) := cast_twoPow 1074
  rw [size, magnitude, hunit, Nat.cast_mul, cast_twoPow, Int.toNat_of_nonneg hexp,
    mul_div_assoc, ← zpow_sub₀ (by norm_num)]
  congr 2
  omega

end Finite

namespace Binary64

theorem size_ofParts (negative : Bool) {significand : Nat} {place : ℤ}
    (hlow : twoPow 52 ≤ significand) (hhigh : significand ≤ twoPow 53) (hplace : -1074 ≤ place)
    (hfit : (significand * 2 ^ place : ℚ) < 2 ^ (1024 : ℤ)) :
    ∃ y : Finite, ofParts negative significand place = .finite y ∧
      y.size = significand * 2 ^ place := by
  have hpow : (0 : ℚ) < 2 ^ place := by positivity
  -- the significand has 53 bits, so the bound on the product is one on the place
  have hbound : place ≤ 971 := by
    have hlt : (2 : ℚ) ^ (52 + place) < 2 ^ (1024 : ℤ) := by
      refine lt_of_le_of_lt ?_ hfit
      rw [zpow_add₀ (by norm_num)]
      gcongr
      rw [← cast_twoPow_52]
      exact_mod_cast hlow
    have := (zpow_lt_zpow_iff_right₀ (by norm_num : (1 : ℚ) < 2)).mp hlt
    omega
  by_cases hs : significand < twoPow 53
  · have hc : Canonical significand place := ⟨hs, hplace, hbound, Or.inl hlow⟩
    exact ⟨⟨negative, significand, place, hc⟩, by simp [ofParts, hc], Finite.size_eq _⟩
  · obtain rfl : significand = twoPow 53 := le_antisymm hhigh (not_lt.mp hs)
    have hnot : ¬ Canonical (twoPow 53) place := fun hc => absurd hc.1 (lt_irrefl _)
    have hhalf : twoPow 53 / 2 = twoPow 52 := by decide
    have hlast : place + 1 ≤ 971 := by
      have hlt : (2 : ℚ) ^ (53 + place) < 2 ^ (1024 : ℤ) := by
        rwa [zpow_add₀ (by norm_num), ← cast_twoPow_53]
      have := (zpow_lt_zpow_iff_right₀ (by norm_num : (1 : ℚ) < 2)).mp hlt
      omega
    have hc : Canonical (twoPow 53 / 2) (place + 1) :=
      ⟨by decide, by omega, hlast, Or.inl (by decide)⟩
    refine ⟨⟨negative, twoPow 53 / 2, place + 1, hc⟩, by simp [ofParts, hnot, hc], ?_⟩
    calc (Finite.size _ : ℚ) = (twoPow 53 / 2 : Nat) * 2 ^ (place + 1) := Finite.size_eq _
      _ = 2 ^ (52 : ℤ) * 2 ^ (place + 1) := by rw [hhalf, cast_twoPow_52]
      _ = 2 ^ (53 : ℤ) * 2 ^ place := by
        rw [← zpow_add₀ (by norm_num), ← zpow_add₀ (by norm_num)]
        congr 1
        omega
      _ = twoPow 53 * 2 ^ place := by rw [cast_twoPow_53]

/-- Rounding adds at most one part in `2 ^ 53` and does not fall below one. -/
theorem roundRatio_of_one_le {negative : Bool} {num den : Nat} (hden : 0 < den)
    (hone : 1 ≤ (num / den : ℚ))
    (hfit : (num / den : ℚ) * (1 + 2 ^ (-53 : ℤ)) < 2 ^ (1024 : ℤ)) :
    ∃ y : Finite, roundRatio negative num den = .finite y ∧
      1 ≤ y.size ∧ y.size ≤ num / den * (1 + 2 ^ (-53 : ℤ)) := by
  have hd : (0 : ℚ) < den := by exact_mod_cast hden
  have hnum : 0 < num := by
    have hle : (den : ℚ) ≤ num := (one_le_div hd).mp hone
    exact hden.trans_le (by exact_mod_cast hle)
  have hbounds := floorLog2_bounds hnum hden
  have hk0 := floorLog2_nonneg hnum hden hone
  have hplace : lastPlace num den = floorLog2 num den - 52 := by
    unfold lastPlace
    omega
  set k := floorLog2 num den
  obtain ⟨hslow, hshigh⟩ := scaled_bits hden hbounds.1 hbounds.2
  have hround := scaled_le hden hbounds.1
  set significand :=
    roundHalfEven (num * twoPow (-(k - 52)).toNat) (den * twoPow (k - 52).toNat)
  obtain ⟨y, hy, hsize⟩ := size_ofParts negative hslow hshigh (by omega)
    (lt_of_le_of_lt hround hfit)
  refine ⟨y, ?_, ?_, hsize ▸ hround⟩
  · simp only [roundRatio, hnum.ne', if_false, hplace]
    exact hy
  · rw [hsize]
    calc (1 : ℚ) ≤ 2 ^ k := one_le_zpow₀ (by norm_num) hk0
      _ = 2 ^ (52 : ℤ) * 2 ^ (k - 52) := zpow_split k
      _ ≤ significand * 2 ^ (k - 52) := by
        gcongr
        rw [← cast_twoPow_52]
        exact_mod_cast hslow

end Binary64

end DerivedForm.Number
