import DerivedForm.Number.Arithmetic
import DerivedForm.Proofs.Number.Rounding

/-!
# The rounding of results

The power of ten by which a result is scaled is finite for every number of places, although its
computation rounds. Rounding to decimal places therefore sees a number only up to the sign of zero.
-/

namespace DerivedForm.Number

def slack : ℚ := 1 + 2 ^ (-53 : ℤ)

theorem one_le_slack : 1 ≤ slack := by
  unfold slack
  norm_num

theorem slack_pow_le {n : Nat} (hn : n ≤ 1000) : slack ^ n ≤ 1 + 2 * n * 2 ^ (-53 : ℤ) := by
  induction n with
  | zero => simp
  | succ n ih =>
    have hcast : (n : ℚ) ≤ 1000 := by exact_mod_cast (by omega : n ≤ 1000)
    calc slack ^ (n + 1) = slack ^ n * slack := pow_succ _ _
      _ ≤ (1 + 2 * n * 2 ^ (-53 : ℤ)) * slack := by
        have := one_le_slack
        gcongr
        exact ih (by omega)
      _ ≤ 1 + 2 * ((n + 1 : Nat) : ℚ) * 2 ^ (-53 : ℤ) := by
        unfold slack
        push_cast
        norm_num
        linarith

theorem cast_tenPow (k : Nat) : (tenPow k : ℚ) = 10 ^ k := by exact_mod_cast Nat.cast_pow 10 k

theorem tenPow_le {m n : Nat} (h : m ≤ n) : tenPow m ≤ tenPow n :=
  Nat.pow_le_pow_right (by decide) h

theorem tenPow_mul_slack_lt {n : Nat} (hn : n ≤ 308) :
    (10 : ℚ) ^ n * slack ^ (2 * n) < 2 ^ (1024 : ℤ) := by
  have hslack : slack ^ (2 * n) ≤ 11 / 10 := by
    have hcast : (n : ℚ) ≤ 308 := by exact_mod_cast hn
    refine (slack_pow_le (by omega)).trans ?_
    push_cast
    norm_num
    linarith
  have hpos : 0 ≤ slack ^ (2 * n) := pow_nonneg (zero_le_one.trans one_le_slack) _
  have hmono := tenPow_le hn
  have hpow : 11 * tenPow 308 < 10 * twoPow 1024 := by decide +kernel
  have htop : (twoPow 1024 : ℚ) = 2 ^ (1024 : ℤ) := cast_twoPow 1024
  -- the two powers are too long to be looked into
  generalize tenPow 308 = t at hmono hpow
  generalize twoPow 1024 = top at hpow htop
  have hmono' : (tenPow n : ℚ) ≤ t := by exact_mod_cast hmono
  have hcast : (11 * t : ℚ) < 10 * top := by exact_mod_cast hpow
  calc (10 : ℚ) ^ n * slack ^ (2 * n) = tenPow n * slack ^ (2 * n) := by rw [cast_tenPow]
    _ ≤ t * (11 / 10) := mul_le_mul hmono' hslack hpos t.cast_nonneg
    _ < top := by linarith
    _ = 2 ^ (1024 : ℤ) := htop

theorem Finite.magnitude_mul_div (x y : Finite) :
    ((x.magnitude * y.magnitude : Nat) / (unitsPerOne * unitsPerOne : Nat) : ℚ) =
      x.size * y.size := by
  unfold size
  push_cast
  exact (div_mul_div_comm _ _ _ _).symm

namespace Binary64

theorem mul_of_one_le {x y : Finite} (hx : 1 ≤ x.size) (hy : 1 ≤ y.size)
    (hfit : x.size * y.size * slack < 2 ^ (1024 : ℤ)) :
    ∃ z : Finite, Binary64.finite x * .finite y = .finite z ∧
      1 ≤ z.size ∧ z.size ≤ x.size * y.size * slack := by
  have hratio := x.magnitude_mul_div y
  have hunits : 0 < unitsPerOne * unitsPerOne := Nat.mul_pos (twoPow_pos _) (twoPow_pos _)
  have hone : 1 ≤ x.size * y.size := one_le_mul_of_one_le_of_one_le hx hy
  rw [finite_mul]
  unfold Finite.mul
  rw [← hratio] at hfit hone ⊢
  exact roundRatio_of_one_le hunits hone hfit

/-- The number is finite, not less than one, and `n` roundings away from `10 ^ k` at most. -/
def Near (a : Binary64) (k n : Nat) : Prop :=
  ∃ x, a = .finite x ∧ 1 ≤ x.size ∧ x.size ≤ 10 ^ k * slack ^ n

theorem Near.mul {a b : Binary64} {j k m n : Nat} (ha : Near a j m) (hb : Near b k n)
    (hfit : j + k ≤ 308) (hcount : m + n + 1 ≤ 2 * (j + k)) :
    Near (a * b) (j + k) (m + n + 1) := by
  obtain ⟨x, rfl, hx, hxle⟩ := ha
  obtain ⟨y, rfl, hy, hyle⟩ := hb
  have hslack := one_le_slack
  have hle : x.size * y.size * slack ≤ 10 ^ (j + k) * slack ^ (m + n + 1) := by
    calc x.size * y.size * slack
        ≤ (10 ^ j * slack ^ m) * (10 ^ k * slack ^ n) * slack := by gcongr
      _ = 10 ^ (j + k) * slack ^ (m + n + 1) := by ring
  have hlt : x.size * y.size * slack < 2 ^ (1024 : ℤ) := by
    refine (hle.trans ?_).trans_lt (tenPow_mul_slack_lt hfit)
    gcongr
  obtain ⟨z, hz, hone, hzle⟩ := mul_of_one_le hx hy hlt
  exact ⟨z, hz, hone, hzle.trans hle⟩

/-- The loop keeps its result near `10 ^ j`, with two roundings for each factor ten, and its base
near `10 ^ k`, with one fewer. -/
theorem powLoop_finite {result base : Binary64} {exponent j k : Nat}
    (hresult : Near result j (2 * j)) (hbase : exponent ≠ 0 → Near base k (2 * k - 1))
    (hk : 1 ≤ k) (hsum : j + k * exponent ≤ 308) :
    ∃ y, powLoop result base exponent = .finite y ∧ 1 ≤ y.size := by
  induction exponent using Nat.strongRecOn generalizing result base j k with
  | ind exponent ih =>
    rw [powLoop]
    split
    · obtain ⟨r, hr, hone, -⟩ := hresult
      exact ⟨r, hr, hone⟩
    · rename_i hne
      have hb := hbase hne
      have hsplit : k * exponent = (k + k) * (exponent / 2) + k * (exponent % 2) := by
        calc k * exponent = k * (2 * (exponent / 2) + exponent % 2) := by
              rw [Nat.div_add_mod]
          _ = (k + k) * (exponent / 2) + k * (exponent % 2) := by ring
      -- the square of the base is only needed when another step follows
      have hsquare : exponent / 2 ≠ 0 → Near (base * base) (k + k) (2 * (k + k) - 1) := by
        intro hhalf
        have hle : (k + k) * 1 ≤ (k + k) * (exponent / 2) := Nat.mul_le_mul_left _ (by omega)
        have hcount : 2 * k - 1 + (2 * k - 1) + 1 = 2 * (k + k) - 1 := by omega
        rw [← hcount]
        exact hb.mul hb (by omega) (by omega)
      split
      · rename_i hodd
        rw [hodd, Nat.mul_one] at hsplit
        have hcount : 2 * j + (2 * k - 1) + 1 = 2 * (j + k) := by omega
        have hproduct : Near (result * base) (j + k) (2 * (j + k)) := by
          rw [← hcount]
          exact hresult.mul hb (by omega) hcount.le
        exact ih (exponent / 2) (by omega) hproduct hsquare (by omega) (by omega)
      · exact ih (exponent / 2) (by omega) hresult hsquare (by omega) (by omega)

theorem size_one : ∃ x, (1 : Binary64) = .finite x ∧ x.size = 1 := by
  refine ⟨⟨false, twoPow 52, -52, by decide⟩, by decide +kernel, ?_⟩
  rw [Finite.size_eq, cast_twoPow_52]
  norm_num

theorem size_ten : ∃ x, (10 : Binary64) = .finite x ∧ x.size = 10 := by
  refine ⟨⟨false, 5629499534213120, -49, by decide⟩, by decide +kernel, ?_⟩
  rw [Finite.size_eq]
  norm_num

theorem decimalFactor_finite (places : Nat) :
    ∃ x, decimalFactor places = .finite x ∧ 1 ≤ x.size := by
  obtain ⟨one, hone, hsize⟩ := size_one
  obtain ⟨ten, hten, htsize⟩ := size_ten
  refine powLoop_finite (j := 0) (k := 1) ⟨one, hone, hsize.ge, ?_⟩ (fun _ => ⟨ten, hten, ?_, ?_⟩)
    le_rfl (by omega)
  · simp [hsize]
  · rw [htsize]
    norm_num
  · have := one_le_slack
    rw [htsize]
    norm_num
    exact this

end Binary64

namespace Finite

theorem magnitude_pos_of_one_le {x : Finite} (h : 1 ≤ x.size) : x.magnitude ≠ 0 := by
  intro hzero
  rw [size, hzero, Nat.cast_zero, zero_div] at h
  exact absurd h (not_le.mpr one_pos)

theorem exponent_le_of_magnitude_eq {x y : Finite} (h : x.magnitude = y.magnitude) :
    y.exponent ≤ x.exponent := by
  by_contra hlt
  obtain ⟨hx, hxlow, -, -⟩ := x.canonical
  obtain ⟨-, -, -, hy⟩ := y.canonical
  have hy52 : twoPow 52 ≤ y.significand := hy.resolve_right (by omega)
  obtain ⟨d, hd⟩ : ∃ d : Nat, (y.exponent + 1074).toNat = (x.exponent + 1074).toNat + 1 + d :=
    ⟨(y.exponent - x.exponent - 1).toNat, by omega⟩
  have hpos := twoPow_pos (x.exponent + 1074).toNat
  unfold magnitude at h
  rw [hd, twoPow_add, twoPow_add] at h
  have hcancel : x.significand = y.significand * (twoPow 1 * twoPow d) := by
    refine Nat.eq_of_mul_eq_mul_right hpos ?_
    rw [h]
    ring
  have hbig : twoPow 53 ≤ y.significand * (twoPow 1 * twoPow d) := by
    calc twoPow 53 = twoPow 52 * (twoPow 1 * 1) := by decide
      _ ≤ y.significand * (twoPow 1 * twoPow d) :=
        Nat.mul_le_mul hy52 (Nat.mul_le_mul le_rfl (twoPow_pos d))
  omega

theorem eq_of_magnitude_eq {x y : Finite} (hsign : x.negative = y.negative)
    (h : x.magnitude = y.magnitude) : x = y := by
  have hexp : x.exponent = y.exponent :=
    le_antisymm (exponent_le_of_magnitude_eq h.symm) (exponent_le_of_magnitude_eq h)
  have hsig : x.significand = y.significand := by
    unfold magnitude at h
    rw [hexp] at h
    exact Nat.eq_of_mul_eq_mul_right (twoPow_pos _) h
  cases x
  cases y
  simp_all

theorem eq_or_zero_of_same {x y : Finite} (h : x.same y = true) :
    x = y ∨ x.magnitude = 0 ∧ y.magnitude = 0 := by
  have hunits : x.units = y.units := by simpa [same] using h
  have hmag : x.magnitude = y.magnitude := by rw [← natAbs_units, ← natAbs_units, hunits]
  by_cases hsign : x.negative = y.negative
  · exact Or.inl (eq_of_magnitude_eq hsign hmag)
  · right
    unfold units at hunits
    cases hx : x.negative <;> cases hy : y.negative <;> simp_all

theorem magnitude_zero (negative : Bool) : (zero negative).magnitude = 0 := Nat.zero_mul _

theorem eq_zero_of_magnitude {x : Finite} (h : x.magnitude = 0) : x = .zero x.negative :=
  eq_of_magnitude_eq rfl (h.trans (magnitude_zero _).symm)

end Finite

namespace Binary64

@[simp] theorem roundRatio_zero (negative : Bool) (den : Nat) :
    roundRatio negative 0 den = zero negative := by
  simp [roundRatio]

theorem zero_mul_finite (negative : Bool) (y : Finite) :
    zero negative * .finite y = zero (negative != y.negative) := by
  rw [zero, finite_mul, Finite.mul, Finite.magnitude_zero, Nat.zero_mul, roundRatio_zero]
  rfl

theorem zero_div_finite (negative : Bool) {y : Finite} (h : y.magnitude ≠ 0) :
    zero negative / .finite y = zero (negative != y.negative) := by
  rw [zero, finite_div, Finite.div, if_neg h, Finite.magnitude_zero, roundRatio_zero]
  rfl

theorem zero_add_zero (negative : Bool) : zero negative + 0 = zero false := by
  cases negative <;> decide +kernel

theorem roundPlaces_zero {x : Finite} (h : x.magnitude = 0) (places : Nat) :
    (Binary64.finite x).roundPlaces places = zero false := by
  obtain ⟨factor, hfactor, hone⟩ := decimalFactor_finite places
  have hne := Finite.magnitude_pos_of_one_le hone
  have hscaled : ∃ b, Binary64.finite x * .finite factor = zero b :=
    ⟨_, by rw [finite_mul, Finite.mul, h, Nat.zero_mul, roundRatio_zero]⟩
  obtain ⟨b, hb⟩ := hscaled
  have hkept : (!(zero b).isFinite || !(zero b).abs.less wholeBound) = false := by
    cases b <;> decide +kernel
  have hwhole : (zero b).roundWhole = zero b := by cases b <;> decide +kernel
  unfold roundPlaces
  rw [hfactor]
  dsimp only
  rw [hb, hkept, hwhole, zero_div_finite b hne, zero_add_zero]
  rfl

theorem roundPlaces_eq_of_same {x y : Finite} (h : x.same y = true) (places : Nat) :
    (Binary64.finite x).roundPlaces places = (Binary64.finite y).roundPlaces places := by
  rcases Finite.eq_or_zero_of_same h with rfl | ⟨hx, hy⟩
  · rfl
  · rw [roundPlaces_zero hx, roundPlaces_zero hy]

end Binary64

end DerivedForm.Number
