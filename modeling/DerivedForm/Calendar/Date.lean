import DerivedForm.Number.Numeral
import DerivedForm.Text.Character

/-!
# Calendar dates

Dates of the proleptic Gregorian calendar, from the first day of the year -262143 to the last of the
year 262142, and their text: year, month and day joined by hyphens. A year of the usual four digits
is written plainly and any other with its sign.
-/

namespace DerivedForm.Calendar

def isLeapYear (year : Int) : Bool := year % 4 == 0 && (year % 100 != 0 || year % 400 == 0)

def daysInMonth (year : Int) (month : Nat) : Nat :=
  match month with
  | 1 | 3 | 5 | 7 | 8 | 10 | 12 => 31
  | 4 | 6 | 9 | 11 => 30
  | 2 => if isLeapYear year then 29 else 28
  | _ => 0

def IsDay (year : Int) (month day : Nat) : Prop :=
  -262143 ≤ year ∧ year ≤ 262142 ∧ 1 ≤ day ∧ day ≤ daysInMonth year month

instance (year : Int) (month day : Nat) : Decidable (IsDay year month day) :=
  inferInstanceAs (Decidable (_ ∧ _))

structure Date where
  year : Int
  month : Nat
  day : Nat
  isDay : IsDay year month day
  deriving DecidableEq

namespace Date

def ofNumbers? (year : Int) (month day : Nat) : Option Date :=
  if h : IsDay year month day then some ⟨year, month, day, h⟩ else none

def padded (width n : Nat) : List Char :=
  let digits := Number.Numeral.digitsOf n
  List.replicate (width - digits.length) '0' ++ digits

/-- A year of at most four digits plainly, any other with its sign; four digits at least. -/
def yearText (year : Int) : List Char :=
  if 0 ≤ year ∧ year ≤ 9999 then padded 4 year.natAbs
  else (if year < 0 then '-' else '+') :: padded 4 year.natAbs

def chars (d : Date) : List Char :=
  yearText d.year ++ '-' :: padded 2 d.month ++ '-' :: padded 2 d.day

def text (d : Date) : String := String.ofList d.chars

theorem ofNumbers?_self (d : Date) : ofNumbers? d.year d.month d.day = some d := by
  simp [ofNumbers?, d.isDay]

end Date

/-!
## Reading dates

A date is written in one of two patterns, `2024-02-29` or `29.02.2024`, or is the date of an
internet timestamp such as `2024-02-29T12:00:00Z`. The patterns are lists of parts, so that the
hyphenated pattern of stored dates, with blanks around its hyphens, is a third list and no third
reader.
-/

open DerivedForm.Number (Numeral)

inductive DatePart where
  | year
  | month
  | day
  | mark (c : Char)
  | blanks
  deriving DecidableEq

structure DateNumbers where
  year : Int := 0
  month : Nat := 0
  day : Nat := 0

def readDigits? (width : Nat) (s : List Char) : Option (Nat × List Char) :=
  let digits := (s.take width).takeWhile Char.isDigit
  if digits.isEmpty then none
  else some (Numeral.digitsValue digits, s.drop digits.length)

/-- A year: up to four digits, or a sign and any number of digits. -/
def readYear? : List Char → Option (Int × List Char)
  | '-' :: rest => (readDigits? rest.length rest).map fun (n, rest) => (-(n : Int), rest)
  | '+' :: rest => (readDigits? rest.length rest).map fun (n, rest) => ((n : Int), rest)
  | rest => (readDigits? 4 rest).map fun (n, rest) => ((n : Int), rest)

def readMark? (c : Char) (s : List Char) : Option (List Char) :=
  if s.head? = some c then some s.tail else none

def DatePart.read? (part : DatePart) (numbers : DateNumbers) (s : List Char) :
    Option (DateNumbers × List Char) :=
  match part with
  | .year =>
    (readYear? (Text.dropBlanks s)).map fun (n, rest) => ({ numbers with year := n }, rest)
  | .month =>
    (readDigits? 2 (Text.dropBlanks s)).map fun (n, rest) => ({ numbers with month := n }, rest)
  | .day =>
    (readDigits? 2 (Text.dropBlanks s)).map fun (n, rest) => ({ numbers with day := n }, rest)
  | .mark c => (readMark? c s).map fun rest => (numbers, rest)
  | .blanks => some (numbers, Text.dropBlanks s)

def readParts? : List DatePart → DateNumbers → List Char → Option DateNumbers
  | [], numbers, s => if s.isEmpty then some numbers else none
  | part :: parts, numbers, s =>
    (part.read? numbers s).bind fun (numbers, rest) => readParts? parts numbers rest

def readPattern? (pattern : List DatePart) (s : List Char) : Option Date :=
  (readParts? pattern {} s).bind fun numbers =>
    Date.ofNumbers? numbers.year numbers.month numbers.day

def hyphenated : List DatePart := [.year, .mark '-', .month, .mark '-', .day]

def dotted : List DatePart := [.day, .mark '.', .month, .mark '.', .year]

def spaced : List DatePart :=
  [.year, .blanks, .mark '-', .month, .blanks, .mark '-', .day, .blanks]

def readFixed? (width most : Nat) (s : List Char) : Option (Nat × List Char) :=
  match readDigits? width s with
  | some (n, rest) => if rest.length + width = s.length ∧ n ≤ most then some (n, rest) else none
  | none => none

def readSecondFraction? : List Char → Option (List Char)
  | '.' :: rest => (readDigits? rest.length rest).map (·.2)
  | rest => some rest

def readClock? (s : List Char) : Option (List Char) := do
  let (_, rest) ← readFixed? 2 23 s
  let rest ← readMark? ':' rest
  let (_, rest) ← readFixed? 2 59 rest
  some rest

/-- The offset from universal time that ends a timestamp: `Z`, or a sign with hours and minutes.
The minus sign may be the typographic one. -/
def isOffset : List Char → Bool
  | ['Z'] | ['z'] => true
  | sign :: rest =>
    (sign == '+' || sign == '-' || sign == '\u2212') && readClock? rest == some []
  | [] => false

def readSeconds? (s : List Char) : Option (List Char) := do
  let rest ← readMark? ':' s
  let (_, rest) ← readFixed? 2 60 rest
  readSecondFraction? rest

def isTimeWithOffset : List Char → Bool
  | mark :: rest =>
    (mark == 'T' || mark == 't' || mark == ' ') &&
      ((readClock? rest).bind readSeconds?).any isOffset
  | [] => false

/-- The date of an internet timestamp, as written, whatever its offset. -/
def readTimestamp? (s : List Char) : Option Date := do
  let (year, rest) ← readFixed? 4 9999 s
  let rest ← readMark? '-' rest
  let (month, rest) ← readFixed? 2 12 rest
  let rest ← readMark? '-' rest
  let (day, rest) ← readFixed? 2 31 rest
  if isTimeWithOffset rest then Date.ofNumbers? year month day else none

namespace Date

def readChars? (s : List Char) : Option Date :=
  readPattern? hyphenated s <|> readPattern? dotted s <|> readTimestamp? s

def read? (s : String) : Option Date := readChars? (Text.trimmed s.toList)

def readStored? (s : String) : Option Date := readPattern? spaced s.toList

end Date

end DerivedForm.Calendar
