import DerivedForm.Number.Binary64

/-!
# Arithmetic of binary64 numbers

Sum, difference, product and quotient are the exact results on units, rounded once. What has no
exact result is a NaN, and dividing a nonzero number by a zero gives an infinity.
-/

namespace DerivedForm.Number

namespace Finite

/-- The rounded sum. A sum of zero is negative only if both terms are. -/
def add (x y : Finite) : Binary64 :=
  let sum := x.units + y.units
  if sum = 0 then .zero (x.negative && y.negative)
  else .roundRatio (sum < 0) sum.natAbs unitsPerOne

def mul (x y : Finite) : Binary64 :=
  .roundRatio (x.negative != y.negative) (x.magnitude * y.magnitude) (unitsPerOne * unitsPerOne)

def div (x y : Finite) : Binary64 :=
  let negative := x.negative != y.negative
  if y.magnitude = 0 then if x.magnitude = 0 then .nan else .infinite negative
  else .roundRatio negative x.magnitude y.magnitude

end Finite

namespace Binary64

def add : Binary64 → Binary64 → Binary64
  | .finite x, .finite y => x.add y
  | .finite _, .infinite b => .infinite b
  | .infinite a, .finite _ => .infinite a
  | .infinite a, .infinite b => if a = b then .infinite a else .nan
  | _, _ => .nan

def mul : Binary64 → Binary64 → Binary64
  | .finite x, .finite y => x.mul y
  | .finite x, .infinite b => if x.magnitude = 0 then .nan else .infinite (x.negative != b)
  | .infinite a, .finite y => if y.magnitude = 0 then .nan else .infinite (a != y.negative)
  | .infinite a, .infinite b => .infinite (a != b)
  | _, _ => .nan

def div : Binary64 → Binary64 → Binary64
  | .finite x, .finite y => x.div y
  | .finite x, .infinite b => zero (x.negative != b)
  | .infinite a, .finite y => .infinite (a != y.negative)
  | _, _ => .nan

instance : Add Binary64 := ⟨add⟩
instance : Sub Binary64 := ⟨fun a b => add a (neg b)⟩
instance : Mul Binary64 := ⟨mul⟩
instance : Div Binary64 := ⟨div⟩

instance (n : Nat) : OfNat Binary64 n := ⟨ofInt n⟩

theorem finite_add (x y : Finite) : Binary64.finite x + .finite y = x.add y := rfl

theorem finite_mul (x y : Finite) : Binary64.finite x * .finite y = x.mul y := rfl

theorem finite_div (x y : Finite) : Binary64.finite x / .finite y = x.div y := rfl

theorem add_comm (a b : Binary64) : a + b = b + a := by
  show add a b = add b a
  match a, b with
  | .finite x, .finite y => simp [add, Finite.add, Int.add_comm x.units, Bool.and_comm x.negative]
  | .infinite p, .infinite q => cases p <;> cases q <;> rfl
  | .finite _, .infinite _ | .infinite _, .finite _ => rfl
  | .nan, .nan | .nan, .finite _ | .nan, .infinite _ | .finite _, .nan | .infinite _, .nan => rfl

end Binary64

/-!
## Rounding to decimal places

The result of a formula is rounded to the places that its field declares: scaled by a power of ten,
rounded to a whole number with halves away from zero, and scaled back. The power of ten is the one
that repeated squaring computes in binary64, and both scalings round.
-/

def Finite.roundWhole (x : Finite) : Binary64 :=
  .roundRatio x.negative (roundHalfUp x.magnitude unitsPerOne) 1

namespace Binary64

def roundWhole : Binary64 → Binary64
  | .finite x => x.roundWhole
  | a => a

def powLoop (result base : Binary64) (exponent : Nat) : Binary64 :=
  if exponent = 0 then result
  else powLoop (if exponent % 2 = 1 then result * base else result) (base * base) (exponent / 2)
  termination_by exponent

def pow (base : Binary64) (exponent : Nat) : Binary64 := powLoop 1 base exponent

/-- The factor that moves `places` decimals before the point; the format has none above `10 ^ 308`. -/
def decimalFactor (places : Nat) : Binary64 := pow 10 (min places 308)

def wholeBound : Binary64 := ofInt (twoPow 52)

/-- The number rounded to `places` decimals, halves away from zero. A number whose scaled form is
infinite or has no fraction any more is kept as it is; a zero result is the positive zero. -/
def roundPlaces (value : Binary64) (places : Nat) : Binary64 :=
  let factor := decimalFactor places
  let scaled := value * factor
  if !scaled.isFinite || !scaled.abs.less wholeBound then value
  else scaled.roundWhole / factor + 0

end Binary64

end DerivedForm.Number
