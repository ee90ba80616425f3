import DerivedForm.Number.Numeral
import DerivedForm.Proofs.Number.Range

/-!
# Shortest numerals

The number nearest to a numeral is the rounding of the exact value of the numeral: where the power of ten
is cut, the number is infinite or zero anyway. So spellings of one value have one number, and the shortest
numeral of a number, whose final zeros are stripped after the search, reads back as that number.
-/

namespace DerivedForm.Number

def Numeral.value (n : Numeral) : ℚ := n.coefficient * 10 ^ n.exponent

theorem Numeral.exists_ratio (n : Numeral) :
    ∃ num den : Nat, 0 < den ∧ n.value = num / den := by
  have hnonneg : 0 ≤ n.value := by
    unfold value
    positivity
  refine ⟨n.value.num.toNat, n.value.den, n.value.pos, ?_⟩
  have hnum : ((n.value.num.toNat : ℤ) : ℚ) = n.value.num := by
    rw [Int.toNat_of_nonneg (Rat.num_nonneg.mpr hnonneg)]
  rw [← Int.cast_natCast, hnum, Rat.num_div_den]

theorem two_zpow_le_ten_pow {j : ℤ} {k : Nat} (h : j ≤ 3 * k) : (2 : ℚ) ^ j ≤ 10 ^ k := by
  calc (2 : ℚ) ^ j ≤ 2 ^ (3 * (k : ℤ)) := zpow_le_zpow_right₀ (by norm_num) h
    _ = 8 ^ k := by
      rw [zpow_mul, zpow_natCast]
      norm_num
    _ ≤ 10 ^ k := pow_le_pow_left₀ (by norm_num) (by norm_num) k

namespace Binary64

variable {n : Numeral} {num den : Nat}

theorem ofNumeral_natural (hden : 0 < den) (hexp : 0 ≤ n.exponent)
    (h : n.value = num / den) : ofNumeral n = roundRatio n.negative num den := by
  obtain ⟨places, hplaces⟩ := Int.eq_ofNat_of_zero_le hexp
  have hvalue : n.value = n.coefficient * 10 ^ places := by
    rw [Numeral.value, hplaces, zpow_natCast]
  have hreduced : ofNumeral n =
      roundRatio n.negative (n.coefficient * tenPow (min places beyondRange)) 1 := by
    simp [ofNumeral, hplaces]
  rw [hreduced]
  rcases Nat.le_total places beyondRange with hle | hge
  · rw [min_eq_left hle]
    apply roundRatio_congr _ one_pos hden
    rw [← h, hvalue, Nat.cast_mul, cast_tenPow, Nat.cast_one, div_one]
  · rcases Nat.eq_zero_or_pos n.coefficient with hzero | hpos
    · rw [hzero, Nat.zero_mul]
      have hnum : (num / den : ℚ) = (0 : Nat) / (1 : Nat) := by
        rw [← h, hvalue, hzero]
        simp
      exact (roundRatio_congr _ hden one_pos hnum).symm
    · -- from this power on both sides are beyond the format
      have hone : (1 : ℚ) ≤ n.coefficient := by exact_mod_cast hpos
      have hbeyond : ∀ k, beyondRange ≤ k → (2 : ℚ) ^ (1024 : ℤ) ≤ n.coefficient * 10 ^ k := by
        intro k hk
        have hk' : (1024 : ℤ) ≤ 3 * k := by
          unfold beyondRange at hk
          omega
        calc (2 : ℚ) ^ (1024 : ℤ) ≤ 10 ^ k := two_zpow_le_ten_pow hk'
          _ ≤ n.coefficient * 10 ^ k := le_mul_of_one_le_left (by positivity) hone
      rw [min_eq_right hge, roundRatio_of_range_le, roundRatio_of_range_le _ hden]
      · rw [← h, hvalue]
        exact hbeyond places hge
      · exact one_pos
      · rw [Nat.cast_mul, cast_tenPow, Nat.cast_one, div_one]
        exact hbeyond beyondRange le_rfl

theorem ofNumeral_fraction (hden : 0 < den) (hexp : n.exponent < 0)
    (h : n.value = num / den) : ofNumeral n = roundRatio n.negative num den := by
  obtain ⟨places, hplaces⟩ : ∃ places : Nat, n.exponent = -places :=
    ⟨n.exponent.natAbs, by omega⟩
  have hvalue : n.value = n.coefficient / 10 ^ places := by
    rw [Numeral.value, hplaces, zpow_neg, zpow_natCast, div_eq_mul_inv]
  have hneg : ¬ 0 ≤ n.exponent := not_le.mpr hexp
  have habs : n.exponent.natAbs = places := by omega
  set cut := n.coefficient.log2 + beyondRange with hcut
  have hreduced : ofNumeral n =
      roundRatio n.negative n.coefficient (tenPow (min places cut)) := by
    simp only [ofNumeral, hneg, if_false, habs, hcut]
  have hten : ∀ k, 0 < tenPow k := fun k => Nat.pow_pos (by decide)
  rw [hreduced]
  rcases Nat.le_total places cut with hle | hge
  · rw [min_eq_left hle]
    apply roundRatio_congr _ (hten _) hden
    rw [← h, hvalue, cast_tenPow]
  · -- from this power on both sides are less than half of the least number
    have hsmall : ∀ k, cut ≤ k → (n.coefficient / 10 ^ k : ℚ) < 2 ^ (-1075 : ℤ) := by
      intro k hk
      have hcoefficient : (n.coefficient : ℚ) < 2 ^ ((n.coefficient.log2 : ℤ) + 1) := by
        rw [← Int.natCast_succ, zpow_natCast]
        exact_mod_cast @Nat.lt_log2_self n.coefficient
      have hk' : (n.coefficient.log2 : ℤ) + 1 + 1075 ≤ 3 * k := by
        unfold beyondRange at hcut
        omega
      rw [div_lt_iff₀ (by positivity)]
      calc (n.coefficient : ℚ) < 2 ^ ((n.coefficient.log2 : ℤ) + 1) := hcoefficient
        _ = 2 ^ (-1075 : ℤ) * 2 ^ ((n.coefficient.log2 : ℤ) + 1 + 1075) := by
          have hsum : -1075 + ((n.coefficient.log2 : ℤ) + 1 + 1075) = n.coefficient.log2 + 1 := by
            omega
          rw [← zpow_add₀ (by norm_num), hsum]
        _ ≤ 2 ^ (-1075 : ℤ) * 10 ^ k := by
          gcongr
          exact two_zpow_le_ten_pow hk'
    rw [min_eq_right hge, roundRatio_of_lt_range, roundRatio_of_lt_range _ hden]
    · rw [← h, hvalue]
      exact hsmall places hge
    · exact hten cut
    · rw [cast_tenPow]
      exact hsmall cut le_rfl

/-- The number nearest to a numeral is the rounding of its exact value. -/
theorem ofNumeral_eq (hden : 0 < den) (h : n.value = num / den) :
    ofNumeral n = roundRatio n.negative num den := by
  rcases le_or_gt 0 n.exponent with hexp | hexp
  · exact ofNumeral_natural hden hexp h
  · exact ofNumeral_fraction hden hexp h

theorem ofNumeral_congr {m : Numeral} (hsign : n.negative = m.negative)
    (h : n.value = m.value) : ofNumeral n = ofNumeral m := by
  obtain ⟨num, den, hden, hm⟩ := m.exists_ratio
  rw [ofNumeral_eq hden (h.trans hm), ofNumeral_eq hden hm, hsign]

end Binary64

namespace Numeral

theorem stripZeros_spec (n : Nat) : n = (stripZeros n).1 * 10 ^ (stripZeros n).2 := by
  induction n using Nat.strong_induction_on with
  | _ n ih =>
    rw [stripZeros]
    split
    · rename_i h
      calc n = n / 10 * 10 := by omega
        _ = (stripZeros (n / 10)).1 * 10 ^ (stripZeros (n / 10)).2 * 10 := by
          rw [← ih (n / 10) (by omega)]
        _ = (stripZeros (n / 10)).1 * 10 ^ ((stripZeros (n / 10)).2 + 1) := by
          rw [pow_succ, Nat.mul_assoc]
    · simp

theorem value_stripped (n : Numeral) : n.stripped.value = n.value := by
  have hspec := stripZeros_spec n.coefficient
  have hcast : (n.coefficient : ℚ) =
      (stripZeros n.coefficient).1 * 10 ^ (stripZeros n.coefficient).2 := by exact_mod_cast hspec
  simp only [stripped]
  split
  · rename_i h
    simp [value, hcast, h]
  · rw [value, value, hcast, zpow_add₀ (by norm_num), zpow_natCast]
    ring

theorem negative_stripped (n : Numeral) : n.stripped.negative = n.negative := by
  simp only [stripped]
  split <;> rfl

end Numeral

namespace Finite

variable {x : Finite} {tie : Tie}

theorem value_units (negative : Bool) (units places : Nat) :
    Numeral.value ⟨negative, units * Nat.pow 5 places, -places⟩ = units / (twoPow places : ℚ) := by
  have hfive : ((Nat.pow 5 places : Nat) : ℚ) = 5 ^ places := Nat.cast_pow 5 places
  have hten : (10 : ℚ) ^ places = 5 ^ places * 2 ^ places := by
    rw [← mul_pow]
    norm_num
  rw [Numeral.value, Nat.cast_mul, hfive, zpow_neg, zpow_natCast, hten, cast_twoPow, zpow_natCast]
  field_simp

theorem ofNumeral_exactNumeral (hx : x.significand ≠ 0) :
    Binary64.ofNumeral x.exactNumeral = .finite x := by
  have hvalue : x.exactNumeral.value = x.magnitude / unitsPerOne := by
    -- under a name the number of places keeps the powers from being evaluated
    obtain ⟨places, hplaces⟩ : ∃ places, places = 1074 := ⟨_, rfl⟩
    have hexp : (-1074 : ℤ) = -places := by omega
    rw [exactNumeral, unitsPerOne, hexp, ← hplaces, value_units]
  rw [Binary64.ofNumeral_eq unitsPerOne_pos hvalue]
  exact Binary64.roundRatio_of_size _ unitsPerOne_pos hx rfl

theorem ofNumeral_searchGrids (hx : x.significand ≠ 0) (place : Int) (grids : Nat) :
    Binary64.ofNumeral (x.searchGrids tie place grids) = .finite x := by
  induction grids generalizing place with
  | zero => exact ofNumeral_exactNumeral hx
  | succ grids ih =>
    simp only [searchGrids]
    split
    · rename_i n hn
      simpa [readsBack] using readsBack_onGrid? hn
    · exact ih (place - 1)

theorem eq_zero_of_significand (h : x.significand = 0) : x = .zero x.negative := by
  have hexp : x.exponent = -1074 := by
    rcases x.canonical.2.2.2 with hlow | hlow
    · exact absurd (h ▸ hlow) (by decide)
    · exact hlow
  obtain ⟨negative, significand, exponent, canonical⟩ := x
  simp only at h hexp
  subst h hexp
  rfl

/-- The shortest numeral of a number reads back as the number. -/
theorem ofNumeral_shortest (x : Finite) (tie : Tie) :
    Binary64.ofNumeral (x.shortest tie) = .finite x := by
  by_cases hx : x.significand = 0
  · have hzero : Binary64.ofNumeral ⟨x.negative, 0, 0⟩ = .finite (.zero x.negative) := by
      simp [Binary64.ofNumeral, Binary64.zero]
    simpa [shortest, hx, ← eq_zero_of_significand hx] using hzero
  · simp only [shortest, hx, if_false]
    rw [Binary64.ofNumeral_congr (Numeral.negative_stripped _) (Numeral.value_stripped _)]
    exact ofNumeral_searchGrids hx x.topPlace 20

end Finite

end DerivedForm.Number
