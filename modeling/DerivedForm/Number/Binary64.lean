/-!
# The binary64 format

Every inexact step of the library's arithmetic rounds an exact ratio of natural numbers.
-/

namespace DerivedForm.Number

def twoPow (k : Nat) : Nat := Nat.pow 2 k

def tenPow (k : Nat) : Nat := Nat.pow 10 k

def roundHalfEven (num den : Nat) : Nat :=
  let quotient := num / den
  let rest := num % den
  if 2 * rest < den ∨ (2 * rest = den ∧ quotient % 2 = 0) then quotient else quotient + 1

def roundHalfUp (num den : Nat) : Nat := (2 * num + den) / (2 * den)

def belowPowTwo (num den : Nat) (k : Int) : Bool :=
  num * twoPow (-k).toNat < den * twoPow k.toNat

def floorLog2 (num den : Nat) : Int :=
  let k : Int := (num.log2 : Int) - den.log2
  if belowPowTwo num den k then k - 1 else k

theorem roundHalfEven_bounds (num den : Nat) :
    num / den ≤ roundHalfEven num den ∧ roundHalfEven num den ≤ num / den + 1 := by
  unfold roundHalfEven
  dsimp only
  split <;> omega

theorem roundHalfEven_mul (q den : Nat) (h : 0 < den) : roundHalfEven (q * den) den = q := by
  simp [roundHalfEven, Nat.mul_div_cancel q h, h]

/-!
## Binary64 numbers

The numbers that decimal fields hold and formulas compute with: IEEE 754 binary64, as an exact
mathematical type. A finite number is a sign, a significand and an exponent in their one canonical
form, so two finite numbers are equal as terms exactly if they have the same bits. Its value is
always a whole number of *units* of `2 ^ -1074`, the smallest positive number of the format; sums,
products, quotients and comparisons are made on these integers, and `roundRatio` brings an exact
result back into the format.
-/

/-- `significand * 2 ^ exponent` is the canonical form of a number of the format: the significand
has 53 bits, or fewer at the least exponent. -/
def Canonical (significand : Nat) (exponent : Int) : Prop :=
  significand < twoPow 53 ∧ -1074 ≤ exponent ∧ exponent ≤ 971 ∧
    (twoPow 52 ≤ significand ∨ exponent = -1074)

instance (significand : Nat) (exponent : Int) : Decidable (Canonical significand exponent) :=
  inferInstanceAs (Decidable (_ ∧ _))

structure Finite where
  negative : Bool
  significand : Nat
  exponent : Int
  canonical : Canonical significand exponent
  deriving DecidableEq

/-- A binary64 number. The payload of a NaN carries no meaning here, so there is one of them. -/
inductive Binary64 where
  | nan
  | infinite (negative : Bool)
  | finite (x : Finite)
  deriving DecidableEq

def unitsPerOne : Nat := twoPow 1074

namespace Finite

def zero (negative : Bool) : Finite := ⟨negative, 0, -1074, by decide⟩

def magnitude (x : Finite) : Nat := x.significand * twoPow (x.exponent + 1074).toNat

/-- The exact value, in units of `2 ^ -1074`. -/
def units (x : Finite) : Int := if x.negative then -(x.magnitude : Int) else x.magnitude

def withSign (x : Finite) (negative : Bool) : Finite := { x with negative }

def isWhole (x : Finite) : Bool := x.magnitude % unitsPerOne == 0

def truncate (x : Finite) : Int :=
  let whole : Int := (x.magnitude / unitsPerOne : Nat)
  if x.negative then -whole else whole

def same (x y : Finite) : Bool := x.units == y.units

theorem units_withSign (x : Finite) (negative : Bool) :
    (x.withSign negative).units = if negative then -(x.magnitude : Int) else x.magnitude := rfl

theorem natAbs_units (x : Finite) : x.units.natAbs = x.magnitude := by
  unfold units
  split <;> simp

end Finite

namespace Binary64

def zero (negative : Bool) : Binary64 := .finite (.zero negative)

instance : Inhabited Binary64 := ⟨zero false⟩

/-- `± significand * 2 ^ exponent` for a significand of at most `2 ^ 53`; infinite above the range. -/
def ofParts (negative : Bool) (significand : Nat) (exponent : Int) : Binary64 :=
  if h : Canonical significand exponent then .finite ⟨negative, significand, exponent, h⟩
  else if h : Canonical (significand / 2) (exponent + 1) then
    .finite ⟨negative, significand / 2, exponent + 1, h⟩
  else .infinite negative

def lastPlace (num den : Nat) : Int := max (floorLog2 num den - 52) (-1074)

/-- The number nearest to `± num / den`, with ties to the even significand: the one rounding of all
arithmetic. The denominator is positive. -/
def roundRatio (negative : Bool) (num den : Nat) : Binary64 :=
  if num = 0 then zero negative
  else
    let place := lastPlace num den
    ofParts negative (roundHalfEven (num * twoPow (-place).toNat) (den * twoPow place.toNat)) place

def ofInt (n : Int) : Binary64 := roundRatio (n < 0) n.natAbs 1

def isFinite : Binary64 → Bool
  | .finite _ => true
  | _ => false

def finite? : Binary64 → Option Finite
  | .finite x => some x
  | _ => none

/-- Equality of numbers: the two zeros are equal and a NaN equals nothing. -/
def same : Binary64 → Binary64 → Bool
  | .finite x, .finite y => x.same y
  | .infinite a, .infinite b => a == b
  | _, _ => false

def less : Binary64 → Binary64 → Bool
  | .finite x, .finite y => x.units < y.units
  | .finite _, .infinite negative => !negative
  | .infinite negative, .finite _ => negative
  | .infinite a, .infinite b => a && !b
  | _, _ => false

def abs : Binary64 → Binary64
  | .nan => .nan
  | .infinite _ => .infinite false
  | .finite x => .finite (x.withSign false)

def neg : Binary64 → Binary64
  | .nan => .nan
  | .infinite negative => .infinite !negative
  | .finite x => .finite (x.withSign !x.negative)

instance : Neg Binary64 := ⟨neg⟩

@[simp] theorem isFinite_finite (x : Finite) : (Binary64.finite x).isFinite = true := rfl

theorem isFinite_eq_true_iff (a : Binary64) : a.isFinite = true ↔ ∃ x, a = .finite x := by
  cases a <;> simp [isFinite]

theorem neg_neg (a : Binary64) : - -a = a := by
  match a with
  | .nan => rfl
  | .infinite negative => exact congrArg Binary64.infinite (Bool.not_not negative)
  | .finite ⟨negative, _, _, _⟩ =>
    show Binary64.finite _ = _
    simp [Finite.withSign]

end Binary64

end DerivedForm.Number
