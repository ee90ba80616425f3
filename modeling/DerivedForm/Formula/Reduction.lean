import DerivedForm.Number.Numeral
import DerivedForm.Text.Character
import DerivedForm.Number.Arithmetic

/-!
# Arithmetic of formulas

The text of a formula whose references are resolved holds numbers, the four operators, parentheses and
blanks, and nothing else.
-/

namespace DerivedForm.Formula

open DerivedForm.Number (Binary64)

inductive Operator where
  | add
  | subtract
  | multiply
  | divide
  deriving DecidableEq

inductive Token where
  | number (x : Binary64)
  | operator (op : Operator)
  | openParen
  | closeParen
  deriving DecidableEq

namespace Token

def isNumberChar (c : Char) : Bool := c.isDigit || c == '.'

def ofChar? : Char → Option Token
  | '+' => some (.operator .add)
  | '-' => some (.operator .subtract)
  | '*' => some (.operator .multiply)
  | '/' => some (.operator .divide)
  | '(' => some .openParen
  | ')' => some .closeParen
  | _ => none

/-- The tokens of a text. A number reaches as far as digits and points do, and has to be one. -/
def scan? : List Char → Option (List Token)
  | [] => some []
  | c :: rest =>
    if Text.isBlank c then scan? rest
    else if isNumberChar c then
      let digits := rest.takeWhile isNumberChar
      (Binary64.read? (c :: digits)).bind fun x =>
        (scan? (rest.drop digits.length)).map (.number x :: ·)
    else (ofChar? c).bind fun token => (scan? rest).map (token :: ·)
  termination_by s => s.length

end Token

/-!
## Reducing tokens to a number

Parenthesised groups are reduced innermost first, each to one number. What remains has no parentheses:
signs bind to their operand, products and quotients are taken from left to right, then sums and
differences. Division by a zero, a group without a finite value and any other order of tokens leave no
result.
-/

open DerivedForm.Number (Binary64 Finite)

abbrev Step := Operator × Binary64

/-- The operands of a run of tokens without parentheses, each with its operator and with its signs
taken into account. `awaiting` holds the operator whose operand comes next and whether the signs so
far make it negative. -/
def steps? (awaiting : Option (Operator × Bool)) : List Token → Option (List Step)
  | [] =>
    match awaiting with
    | none => some []
    | some _ => none
  | token :: rest =>
    match awaiting, token with
    | none, .operator op => steps? (some (op, false)) rest
    | some (op, negative), .operator .subtract => steps? (some (op, !negative)) rest
    | some (op, negative), .operator .add => steps? (some (op, negative)) rest
    | some (op, negative), .number x =>
      (steps? none rest).map ((op, if negative then -x else x) :: ·)
    | _, _ => none

def terms? (term : Binary64) : List Step → Option (Binary64 × List Step)
  | [] => some (term, [])
  | (.multiply, x) :: rest => terms? (term * x) rest
  | (.divide, x) :: rest => if x.same 0 then none else terms? (term / x) rest
  | (.add, x) :: rest => (terms? x rest).map fun (next, more) => (term, (.add, next) :: more)
  | (.subtract, x) :: rest =>
    (terms? x rest).map fun (next, more) => (term, (.subtract, next) :: more)

def addTerm (sum : Binary64) : Step → Binary64
  | (.add, x) => sum + x
  | (_, x) => sum - x

/-- The value of operands and operators; the operator of the first operand is not looked at. -/
def stepsValue? : List Step → Option Binary64
  | [] => none
  | (_, x) :: rest => (terms? x rest).map fun (first, more) => more.foldl addTerm first

def flatValue? (tokens : List Token) : Option Finite :=
  ((steps? (some (.add, false)) tokens).bind stepsValue?).bind Binary64.finite?

def splitLastOpen? : List Token → Option (List Token × List Token)
  | [] => none
  | token :: rest =>
    match splitLastOpen? rest with
    | some (before, after) => some (token :: before, after)
    | none => if token = .openParen then some ([], rest) else none

def splitFirstClose? : List Token → Option (List Token × List Token)
  | [] => none
  | token :: rest =>
    if token = .closeParen then some ([], rest)
    else (splitFirstClose? rest).map fun (inside, after) => (token :: inside, after)

theorem eq_of_splitLastOpen? {tokens before after : List Token}
    (h : splitLastOpen? tokens = some (before, after)) :
    tokens = before ++ .openParen :: after := by
  induction tokens generalizing before with
  | nil => cases h
  | cons token rest ih =>
    simp only [splitLastOpen?] at h
    split at h
    · rename_i b a hrest
      obtain ⟨rfl, rfl⟩ := Prod.mk.inj (Option.some.inj h)
      simp [ih hrest]
    · split at h
      · obtain ⟨rfl, rfl⟩ := Prod.mk.inj (Option.some.inj h)
        simp [*]
      · cases h

theorem eq_of_splitFirstClose? {tokens inside after : List Token}
    (h : splitFirstClose? tokens = some (inside, after)) :
    tokens = inside ++ .closeParen :: after := by
  induction tokens generalizing inside with
  | nil => cases h
  | cons token rest ih =>
    simp only [splitFirstClose?] at h
    split at h
    · obtain ⟨rfl, rfl⟩ := Prod.mk.inj (Option.some.inj h)
      simp [*]
    · obtain ⟨⟨i, a⟩, hrest, heq⟩ := Option.map_eq_some_iff.1 h
      obtain ⟨rfl, rfl⟩ := Prod.mk.inj heq
      simp [ih hrest]

/-- The last group of a list of tokens: what stands before it, in it and after it. -/
def lastGroup? (tokens : List Token) : Option (List Token × List Token × List Token) :=
  (splitLastOpen? tokens).bind fun (before, after) =>
    (splitFirstClose? after).map fun (inside, rest) => (before, inside, rest)

theorem eq_of_lastGroup? {tokens before inside after : List Token}
    (h : lastGroup? tokens = some (before, inside, after)) :
    tokens = before ++ .openParen :: (inside ++ .closeParen :: after) := by
  obtain ⟨⟨b, rest⟩, hopen, hgroup⟩ := Option.bind_eq_some_iff.1 h
  obtain ⟨⟨i, a⟩, hclose, heq⟩ := Option.map_eq_some_iff.1 hgroup
  simp only [Prod.mk.injEq] at heq
  obtain ⟨rfl, rfl, rfl⟩ := heq
  have hrest : rest = i ++ .closeParen :: a := eq_of_splitFirstClose? hclose
  rw [eq_of_splitLastOpen? hopen, hrest]

def reduce? (tokens : List Token) : Option Finite :=
  if .openParen ∈ tokens then
    match _h : lastGroup? tokens with
    | some (before, inside, after) =>
      match flatValue? inside with
      | some x => reduce? (before ++ .number (.finite x) :: after)
      | none => none
    | none => none
  else flatValue? tokens
  termination_by tokens.length
  decreasing_by
    rw [eq_of_lastGroup? _h]
    simp only [List.length_append, List.length_cons]
    omega

end DerivedForm.Formula
