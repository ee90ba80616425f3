import DerivedForm.Number.Numeral

/-!
# Reading JSON texts

A JSON text as it is written: numbers are still numerals, strings may hold halves of surrogate pairs,
and objects keep repeated keys. What a text means is decided by its reader: an object may refuse
repeated keys or let the last one win, and a member that nobody asks for is never evaluated.
-/

namespace DerivedForm.Json

/-- A number as written: digits before the point, digits after it, and a power of ten. -/
structure NumberLiteral where
  negative : Bool
  whole : List Char
  fraction : List Char
  exponent : Option Int
  deriving DecidableEq

/-- A string without its quotes; `none` if an escape in it is half of a surrogate pair. -/
abbrev StringLiteral := Option String

inductive Tree where
  | null
  | bool (value : Bool)
  | number (literal : NumberLiteral)
  | string (literal : StringLiteral)
  | array (items : List Tree)
  | object (members : List (StringLiteral × Tree))

/-!
## JSON tokens

The words and marks of a JSON text. Between them stand spaces, tabs and line ends only.
-/

inductive Token where
  | openBrace
  | closeBrace
  | openBracket
  | closeBracket
  | comma
  | colon
  | null
  | bool (value : Bool)
  | number (literal : NumberLiteral)
  | string (literal : StringLiteral)
  deriving DecidableEq

inductive StringPiece where
  | char (c : Char)
  | unit (n : Nat)

def hexDigit? (c : Char) : Option Nat :=
  if c.isDigit then some (c.toNat - '0'.toNat)
  else if 'a' ≤ c ∧ c ≤ 'f' then some (c.toNat - 'a'.toNat + 10)
  else if 'A' ≤ c ∧ c ≤ 'F' then some (c.toNat - 'A'.toNat + 10)
  else none

def escaped? : Char → Option Char
  | '"' => some '"'
  | '\\' => some '\\'
  | '/' => some '/'
  | 'b' => some '\x08'
  | 'f' => some '\x0c'
  | 'n' => some '\n'
  | 'r' => some '\r'
  | 't' => some '\t'
  | _ => none

/-- Reads a string from after its opening quote to its closing one. Control characters are written
with escapes only. -/
def readString? : List Char → Option (List StringPiece × List Char)
  | [] => none
  | '"' :: rest => some ([], rest)
  | '\\' :: 'u' :: a :: b :: c :: d :: rest => do
    let a ← hexDigit? a
    let b ← hexDigit? b
    let c ← hexDigit? c
    let d ← hexDigit? d
    let (pieces, rest) ← readString? rest
    some (.unit (((a * 16 + b) * 16 + c) * 16 + d) :: pieces, rest)
  | '\\' :: c :: rest => do
    let c ← escaped? c
    let (pieces, rest) ← readString? rest
    some (.char c :: pieces, rest)
  | c :: rest =>
    if c.toNat < 0x20 || c == '\\' then none
    else do
      let (pieces, rest) ← readString? rest
      some (.char c :: pieces, rest)

def isHighSurrogate (n : Nat) : Bool := 0xD800 ≤ n && n ≤ 0xDBFF

def isLowSurrogate (n : Nat) : Bool := 0xDC00 ≤ n && n ≤ 0xDFFF

def joinPieces? : List StringPiece → Option (List Char)
  | [] => some []
  | .char c :: rest => (joinPieces? rest).map (c :: ·)
  | .unit high :: .unit low :: rest =>
    if isHighSurrogate high then
      if isLowSurrogate low then
        (joinPieces? rest).map (Char.ofNat (0x10000 + (high - 0xD800) * 0x400 + (low - 0xDC00)) :: ·)
      else none
    else if isLowSurrogate high then none
    else (joinPieces? (.unit low :: rest)).map (Char.ofNat high :: ·)
  | .unit n :: rest =>
    if isHighSurrogate n || isLowSurrogate n then none
    else (joinPieces? rest).map (Char.ofNat n :: ·)

def readWhole? : List Char → Option (List Char × List Char)
  | '0' :: rest => some (['0'], rest)
  | rest =>
    let digits := rest.takeWhile Char.isDigit
    if digits.isEmpty then none else some (digits, rest.dropWhile Char.isDigit)

def readFraction? : List Char → Option (List Char × List Char)
  | '.' :: rest =>
    let digits := rest.takeWhile Char.isDigit
    if digits.isEmpty then none else some (digits, rest.dropWhile Char.isDigit)
  | rest => some ([], rest)

def readPower? : List Char → Option (Option Int × List Char)
  | [] => some (none, [])
  | c :: rest =>
    if c == 'e' || c == 'E' then
      let (negative, rest) := Number.Numeral.splitSign rest
      let digits := rest.takeWhile Char.isDigit
      if digits.isEmpty then none
      else
        let n : Int := Number.Numeral.digitsValue digits
        some (some (if negative then -n else n), rest.dropWhile Char.isDigit)
    else some (none, c :: rest)

def readNumber? (s : List Char) : Option (NumberLiteral × List Char) := do
  let (negative, s) := match s with
    | '-' :: rest => (true, rest)
    | rest => (false, rest)
  let (whole, s) ← readWhole? s
  let (fraction, s) ← readFraction? s
  let (exponent, s) ← readPower? s
  some (⟨negative, whole, fraction, exponent⟩, s)

def Token.first? : List Char → Option (Token × List Char)
  | '{' :: rest => some (.openBrace, rest)
  | '}' :: rest => some (.closeBrace, rest)
  | '[' :: rest => some (.openBracket, rest)
  | ']' :: rest => some (.closeBracket, rest)
  | ',' :: rest => some (.comma, rest)
  | ':' :: rest => some (.colon, rest)
  | '"' :: rest =>
    (readString? rest).map fun (pieces, rest) =>
      (.string ((joinPieces? pieces).map String.ofList), rest)
  | 'n' :: 'u' :: 'l' :: 'l' :: rest => some (.null, rest)
  | 't' :: 'r' :: 'u' :: 'e' :: rest => some (.bool true, rest)
  | 'f' :: 'a' :: 'l' :: 's' :: 'e' :: rest => some (.bool false, rest)
  | s => (readNumber? s).map fun (literal, rest) => (.number literal, rest)

def isSpacing (c : Char) : Bool := c == ' ' || c == '\t' || c == '\n' || c == '\r'

def tokensWithin? : Nat → List Char → Option (List Token)
  | _, [] => some []
  | 0, _ => none
  | limit + 1, c :: rest =>
    if isSpacing c then tokensWithin? limit rest
    else
      (Token.first? (c :: rest)).bind fun (token, rest) =>
        (tokensWithin? limit rest).map (token :: ·)

/-- The tokens of a text. Each takes at least one character, so the length is limit enough. -/
def tokens? (s : List Char) : Option (List Token) := tokensWithin? s.length s

/-!
## From tokens to trees

One pass over the tokens with a stack of the arrays and objects that are still open. What may come
next is part of the state, so a missing or spare comma is refused where it stands.
-/

/-- An array or object that is still open, with what it holds so far, last first. -/
inductive OpenContainer where
  | array (items : List Tree)
  | object (members : List (StringLiteral × Tree)) (key : StringLiteral)

inductive Expected where
  | value
  | itemOrClose
  | memberOrClose
  | key (members : List (StringLiteral × Tree))
  | colon (members : List (StringLiteral × Tree)) (key : StringLiteral)
  | afterValue (value : Tree)

structure ReaderState where
  containers : List OpenContainer
  expected : Expected

namespace ReaderState

def start : ReaderState := ⟨[], .value⟩

def takeValue? (containers : List OpenContainer) : Token → Option ReaderState
  | .openBracket => some ⟨containers, .itemOrClose⟩
  | .openBrace => some ⟨containers, .memberOrClose⟩
  | .null => some ⟨containers, .afterValue .null⟩
  | .bool b => some ⟨containers, .afterValue (.bool b)⟩
  | .number literal => some ⟨containers, .afterValue (.number literal)⟩
  | .string literal => some ⟨containers, .afterValue (.string literal)⟩
  | _ => none

def takeSeparator? (value : Tree) : List OpenContainer → Token → Option ReaderState
  | .array items :: containers, .comma => some ⟨.array (value :: items) :: containers, .value⟩
  | .array items :: containers, .closeBracket =>
    some ⟨containers, .afterValue (.array (value :: items).reverse)⟩
  | .object members key :: containers, .comma =>
    some ⟨containers, .key ((key, value) :: members)⟩
  | .object members key :: containers, .closeBrace =>
    some ⟨containers, .afterValue (.object ((key, value) :: members).reverse)⟩
  | _, _ => none

/-- Takes the next token, if it may stand here. -/
def step? (state : ReaderState) (token : Token) : Option ReaderState :=
  match state.expected, token with
  | .itemOrClose, .closeBracket => some ⟨state.containers, .afterValue (.array [])⟩
  | .itemOrClose, token => takeValue? (.array [] :: state.containers) token
  | .memberOrClose, .closeBrace => some ⟨state.containers, .afterValue (.object [])⟩
  | .memberOrClose, .string key => some ⟨state.containers, .colon [] key⟩
  | .key members, .string key => some ⟨state.containers, .colon members key⟩
  | .colon members key, .colon => some ⟨.object members key :: state.containers, .value⟩
  | .value, token => takeValue? state.containers token
  | .afterValue value, token => takeSeparator? value state.containers token
  | _, _ => none

def result? : ReaderState → Option Tree
  | ⟨[], .afterValue value⟩ => some value
  | _ => none

end ReaderState

def Tree.ofTokens? (tokens : List Token) : Option Tree :=
  (tokens.foldlM ReaderState.step? ReaderState.start).bind ReaderState.result?

def Tree.read? (s : String) : Option Tree := (tokens? s.toList).bind Tree.ofTokens?

/-!
## Members of JSON objects

Records are read from objects by key, in any order. Members that the record does not have are passed
over without a look at their values; members that it has stand there once.
-/

abbrev Members := List (StringLiteral × Tree)

namespace Members

def keysAreTexts (members : Members) : Bool := members.all fun member => member.1.isSome

def under (members : Members) (key : String) : List Tree :=
  members.filterMap fun member => if member.1 = some key then some member.2 else none

def optional? (members : Members) (key : String) : Option (Option Tree) :=
  match members.under key with
  | [] => some none
  | [value] => some (some value)
  | _ => none

end Members

/-- A name written as a string, or as the only key of an object that holds null. -/
def Tree.name? : Tree → Option String
  | .string literal => literal
  | .object [(key, .null)] => key
  | _ => none

end DerivedForm.Json
