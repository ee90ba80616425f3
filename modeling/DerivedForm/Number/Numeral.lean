import DerivedForm.Number.Binary64

/-!
# Decimal numerals

A decimal numeral as written: a sign, a whole coefficient and a power of ten. `read?` accepts an
optional sign, ASCII digits with at most one point among or beside them, and an optional power of
ten after `e`; `positional` writes a numeral with all its zeros and never a power of ten.
-/

namespace DerivedForm.Number

/-- The number `± coefficient * 10 ^ exponent` in one of its spellings. -/
structure Numeral where
  negative : Bool
  coefficient : Nat
  exponent : Int
  deriving DecidableEq, Repr

namespace Numeral

def digitsValue (digits : List Char) : Nat :=
  digits.foldl (fun n digit => 10 * n + (digit.toNat - '0'.toNat)) 0

def digitsOf (n : Nat) : List Char := Nat.toDigits 10 n

def splitSign : List Char → Bool × List Char
  | '-' :: rest => (true, rest)
  | '+' :: rest => (false, rest)
  | rest => (false, rest)

def readSigned? (s : List Char) : Option Int :=
  let (negative, digits) := splitSign s
  if digits.isEmpty || !digits.all Char.isDigit then none
  else
    let n : Int := digitsValue digits
    some (if negative then -n else n)

def readExponent? : List Char → Option Int
  | [] => some 0
  | c :: rest => if c == 'e' || c == 'E' then readSigned? rest else none

def splitFraction : List Char → List Char × List Char
  | '.' :: rest => (rest.takeWhile Char.isDigit, rest.dropWhile Char.isDigit)
  | rest => ([], rest)

def readUnsigned? (negative : Bool) (s : List Char) : Option Numeral :=
  let whole := s.takeWhile Char.isDigit
  let (fraction, rest) := splitFraction (s.dropWhile Char.isDigit)
  if whole.isEmpty && fraction.isEmpty then none
  else
    (readExponent? rest).map fun exponent =>
      ⟨negative, digitsValue (whole ++ fraction), exponent - fraction.length⟩

def read? (s : List Char) : Option Numeral :=
  let (negative, rest) := splitSign s
  readUnsigned? negative rest

def pointed (digits : List Char) (places : Nat) : List Char :=
  let padded := List.replicate (places + 1 - digits.length) '0' ++ digits
  padded.take (padded.length - places) ++ '.' :: padded.drop (padded.length - places)

def signText (n : Numeral) : List Char := if n.negative then ['-'] else []

def positional (n : Numeral) : List Char :=
  let digits := digitsOf n.coefficient
  n.signText ++
    if 0 ≤ n.exponent then digits ++ List.replicate n.exponent.toNat '0'
    else pointed digits n.exponent.natAbs

def stripZeros (n : Nat) : Nat × Nat :=
  if _h : n ≠ 0 ∧ n % 10 = 0 then
    let (rest, zeros) := stripZeros (n / 10)
    (rest, zeros + 1)
  else (n, 0)
  termination_by n

def stripped (n : Numeral) : Numeral :=
  let (coefficient, zeros) := stripZeros n.coefficient
  if coefficient = 0 then ⟨n.negative, 0, 0⟩ else ⟨n.negative, coefficient, n.exponent + zeros⟩

end Numeral

/-!
## Reading binary64 numbers

The nearest number to a decimal numeral, and the texts that name a number: numerals and the words
for infinity and NaN.
-/

namespace Binary64

/-- From this power of ten on, every coefficient but zero is beyond the format. -/
def beyondRange : Nat := 400

/-- The number nearest to a numeral. The power of ten is cut where it cannot matter any more: a
coefficient `c > 0` is less than `10 ^ (log2 c + 1)`, so the number is already infinite or zero. -/
def ofNumeral (n : Numeral) : Binary64 :=
  if 0 ≤ n.exponent then
    roundRatio n.negative (n.coefficient * tenPow (min n.exponent.toNat beyondRange)) 1
  else
    roundRatio n.negative n.coefficient
      (tenPow (min n.exponent.natAbs (n.coefficient.log2 + beyondRange)))

def ofWord? (negative : Bool) (s : List Char) : Option Binary64 :=
  let word := s.map Char.toLower
  if word = "inf".toList ∨ word = "infinity".toList then some (.infinite negative)
  else if word = "nan".toList then some .nan
  else none

def read? (s : List Char) : Option Binary64 :=
  match Numeral.read? s with
  | some n => some (ofNumeral n)
  | none =>
    let (negative, word) := Numeral.splitSign s
    ofWord? negative word

end Binary64

/-!
## Whole numbers in 64 bits

Integer fields hold signed 64-bit integers. They are read from decimal digits or taken from binary64
numbers without a fraction.
-/

def int64OfInt? (n : Int) : Option Int64 :=
  if Int64.minValue.toInt ≤ n ∧ n ≤ Int64.maxValue.toInt then some (.ofInt n) else none

def readInt64? (s : List Char) : Option Int64 := (Numeral.readSigned? s).bind int64OfInt?

def integerText (n : Int) : List Char :=
  (if n < 0 then ['-'] else []) ++ Numeral.digitsOf n.natAbs

namespace Finite

/-- The integer with this value, if the value is a whole number between `-2 ^ 63` and `2 ^ 63`, both
excluded. -/
def toInt64? (x : Finite) : Option Int64 :=
  if x.isWhole ∧ x.magnitude < twoPow 63 * unitsPerOne then some (.ofInt x.truncate) else none

def toInt64Clamped (x : Finite) : Int64 := .ofIntClamp x.truncate

end Finite

theorem int64OfInt?_toInt (n : Int64) : int64OfInt? n.toInt = some n := by
  have h : Int64.minValue.toInt ≤ n.toInt ∧ n.toInt ≤ Int64.maxValue.toInt :=
    ⟨n.minValue_le_toInt, n.toInt_le⟩
  simp only [int64OfInt?, if_pos h, Int64.ofInt_toInt]

/-!
## The shortest numeral of a number

Of all decimal numerals that read back as a number, the one with the fewest digits, and of those the
nearest. The grids of the powers of ten are tried from coarse to fine; on each of them only the two
neighbours of the number matter. Reading back is tested with the reader itself.
-/

inductive Tie where
  | up
  | even
  deriving DecidableEq

namespace Finite

def readsBack (x : Finite) (n : Numeral) : Bool := decide (Binary64.ofNumeral n = .finite x)

def exactNumeral (x : Finite) : Numeral := ⟨x.negative, x.magnitude * Nat.pow 5 1074, -1074⟩

/-- The nearest multiple of `10 ^ place` that reads back, if one of the two neighbours does. -/
def onGrid? (x : Finite) (tie : Tie) (place : Int) : Option Numeral :=
  let num := x.magnitude * tenPow (-place).toNat
  let den := unitsPerOne * tenPow place.toNat
  let below : Numeral := ⟨x.negative, num / den, place⟩
  let above : Numeral := ⟨x.negative, num / den + 1, place⟩
  let twice := 2 * (num % den)
  let preferBelow := twice < den || (twice == den && tie == .even && num / den % 2 == 0)
  match x.readsBack below, x.readsBack above with
  | true, true => some (if preferBelow then below else above)
  | true, false => some below
  | false, true => some above
  | false, false => none

def searchGrids (x : Finite) (tie : Tie) (place : Int) : Nat → Numeral
  | 0 => x.exactNumeral
  | grids + 1 =>
    match x.onGrid? tie place with
    | some n => n
    | none => searchGrids x tie (place - 1) grids

/-- A power of ten above the number: 30103 / 100000 is a little more than the logarithm of 2. -/
def topPlace (x : Finite) : Int := ((x.magnitude.log2 : Int) - 1073) * 30103 / 100000 + 1

/-- The shortest numeral that reads back, without zeros at its end. Seventeen digits are always
enough; the grids above the first digit of the number are the remaining ones. -/
def shortest (x : Finite) (tie : Tie) : Numeral :=
  if x.significand = 0 then ⟨x.negative, 0, 0⟩
  else (x.searchGrids tie x.topPlace 20).stripped

theorem readsBack_onGrid? {x : Finite} {tie : Tie} {place : Int} {n : Numeral}
    (h : x.onGrid? tie place = some n) : x.readsBack n = true := by
  unfold onGrid? at h
  dsimp only at h
  split at h
  · rename_i below above
    rw [← Option.some.inj h]
    split
    · exact below
    · exact above
  · rename_i below _
    rw [← Option.some.inj h]
    exact below
  · rename_i _ above
    rw [← Option.some.inj h]
    exact above
  · exact absurd h (by simp)

end Finite

/-- The text of a finite number that forms show and formulas read: the shortest numeral,
positional, with a half going up. -/
def Finite.text (x : Finite) : String := String.ofList (x.shortest .up).positional

def Binary64.text : Binary64 → String
  | .nan => "NaN"
  | .infinite negative => if negative then "-inf" else "inf"
  | .finite x => x.text

end DerivedForm.Number
