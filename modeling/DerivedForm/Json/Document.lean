import DerivedForm.Json.Reader
import DerivedForm.Number.Arithmetic
import DerivedForm.Number.Numeral

/-!
# JSON documents

Objects of a document list their members by key, in the order of the keys' characters; the last of
several entries with one key wins.
-/

namespace DerivedForm.Json

abbrev Entries (α : Type) := List (String × α)

namespace Entries

variable {α : Type}

def insert (key : String) (value : α) : Entries α → Entries α
  | [] => [(key, value)]
  | (k, v) :: rest =>
    if key = k then (key, value) :: rest
    else if key < k then (key, value) :: (k, v) :: rest
    else (k, v) :: insert key value rest

def ofList (members : List (String × α)) : Entries α :=
  members.foldl (fun entries (key, value) => entries.insert key value) []

def find? (entries : Entries α) (key : String) : Option α := List.lookup key entries

end Entries

/-!
## JSON numbers

A JSON number is an integer if it is written without point and power of ten and fits in 64 bits, with
or without a sign; any other is a binary64 number. Its digits are collected in 64 bits and scaled
by one power of ten, so a long numeral may be read as a neighbour of the nearest number.

Integers are written plainly. Other numbers are written with the shortest digits that read back,
always with a point or a power of ten, positionally from 0.00001 up to below 10 ^ 16.
-/

open DerivedForm.Number (Binary64 Numeral)

inductive Numeric where
  | integer (n : Int)
  | decimal (x : Binary64)
  deriving DecidableEq

/-- Collects digits as long as the result has 64 bits; also the digits that are left over. -/
def collectDigits (significand : Nat) : List Char → Nat × List Char
  | [] => (significand, [])
  | digit :: rest =>
    let next := 10 * significand + (digit.toNat - '0'.toNat)
    if next < UInt64.size then collectDigits next rest else (significand, digit :: rest)

def powerOfTen (k : Nat) : Binary64 := .ofNumeral ⟨false, 1, k⟩

def greatestPower : Nat := 308

def scaleDown (x : Binary64) (k : Nat) : Binary64 :=
  if k ≤ greatestPower then x / powerOfTen k
  else if x.same 0 then x
  else scaleDown (x / powerOfTen greatestPower) (k - greatestPower)
  termination_by k
  decreasing_by simp only [greatestPower] at *; omega

def scale? (x : Binary64) (exponent : Int) : Option Binary64 :=
  if exponent < 0 then some (scaleDown x exponent.natAbs)
  else if exponent ≤ greatestPower then
    let product := x * powerOfTen exponent.toNat
    if product.isFinite then some product else none
  else if x.same 0 then some x
  else none

def NumberLiteral.decimal? (literal : NumberLiteral) : Option Binary64 :=
  let (whole, unused) := collectDigits 0 literal.whole
  let (significand, ignored) := collectDigits whole literal.fraction
  let places : Int := literal.fraction.length - ignored.length
  let exponent : Int := literal.exponent.getD 0 + unused.length - places
  (scale? (.ofInt significand) exponent).map fun x => if literal.negative then -x else x

/-- The value of a literal; none if it is beyond the format. A negative zero is no integer. -/
def NumberLiteral.value? (literal : NumberLiteral) : Option Numeric :=
  let (n, unused) := collectDigits 0 literal.whole
  if !literal.fraction.isEmpty || literal.exponent.isSome || !unused.isEmpty then
    literal.decimal?.map .decimal
  else if !literal.negative then some (.integer n)
  else if n = 0 ∨ DerivedForm.Number.twoPow 63 < n then some (.decimal (-.ofInt n))
  else some (.integer (-n))

def Numeric.toBinary64 : Numeric → Binary64
  | .integer n => .ofInt n
  | .decimal x => x

def scientificText (digits : List Char) (power : Int) : List Char :=
  let fraction := digits.drop 1
  digits.take 1 ++ (if fraction.isEmpty then [] else '.' :: fraction) ++
    'e' :: (if power < 0 then '-' else '+') :: Numeral.digitsOf power.natAbs

def numeralText (n : Numeral) : List Char :=
  let digits := Numeral.digitsOf n.coefficient
  let power : Int := digits.length + n.exponent - 1
  if n.coefficient = 0 then n.signText ++ "0.0".toList
  else if power < -5 ∨ 16 ≤ power then n.signText ++ scientificText digits power
  else if 0 ≤ n.exponent then n.positional ++ ".0".toList
  else n.positional

/-- A binary64 number as JSON text; what is not finite has none of its own and becomes `null`. -/
def decimalText : Binary64 → List Char
  | .finite x => numeralText (x.shortest .even)
  | _ => "null".toList

def Numeric.chars : Numeric → List Char
  | .integer n => DerivedForm.Number.integerText n
  | .decimal x => decimalText x

/-!
## Documents

The meaning of a JSON text: numbers are evaluated, objects are sorted by key and have each key once.
A document is nested at most 127 levels deep. `compact` writes it without any spacing.
-/

inductive Document where
  | null
  | bool (value : Bool)
  | number (value : Numeric)
  | string (value : String)
  | array (items : List Document)
  | object (members : List (String × Document))

namespace Document

/-- How deep the arrays and objects of a document may be nested. -/
def nestingLimit : Nat := 127

def ofTree? : Nat → Tree → Option Document
  | _, .null => some .null
  | _, .bool b => some (.bool b)
  | _, .number literal => literal.value?.map .number
  | _, .string literal => literal.map .string
  | 0, _ => none
  | nesting + 1, .array items => (items.mapM (ofTree? nesting)).map .array
  | nesting + 1, .object members =>
    (members.mapM fun (member : StringLiteral × Tree) => do
      let key ← member.1
      let value ← ofTree? nesting member.2
      some (key, value)).map fun members => .object (Entries.ofList members)

def read? (s : String) : Option Document := (Tree.read? s).bind (ofTree? nestingLimit)

def hexDigit (n : Nat) : Char := Nat.digitChar n

def charText (c : Char) : List Char :=
  match c with
  | '"' => ['\\', '"']
  | '\\' => ['\\', '\\']
  | '\x08' => ['\\', 'b']
  | '\x0c' => ['\\', 'f']
  | '\n' => ['\\', 'n']
  | '\r' => ['\\', 'r']
  | '\t' => ['\\', 't']
  | c =>
    if c.toNat < 0x20 then
      ['\\', 'u', '0', '0', hexDigit (c.toNat / 16), hexDigit (c.toNat % 16)]
    else [c]

def stringText (s : String) : List Char := '"' :: s.toList.flatMap charText ++ ['"']

mutual

def chars : Document → List Char
  | .null => "null".toList
  | .bool b => (if b then "true" else "false").toList
  | .number n => n.chars
  | .string s => stringText s
  | .array items => '[' :: itemChars items ++ [']']
  | .object members => '\x7b' :: memberChars members ++ ['\x7d']

def itemChars : List Document → List Char
  | [] => []
  | [item] => item.chars
  | item :: rest => item.chars ++ ',' :: itemChars rest

def memberChars : List (String × Document) → List Char
  | [] => []
  | [(key, value)] => stringText key ++ ':' :: value.chars
  | (key, value) :: rest => stringText key ++ ':' :: value.chars ++ ',' :: memberChars rest

end

def compact (d : Document) : String := String.ofList d.chars

end Document

end DerivedForm.Json
