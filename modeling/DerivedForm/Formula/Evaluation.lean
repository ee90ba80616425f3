import DerivedForm.Value.Basic
import DerivedForm.Text.Character
import DerivedForm.Formula.Reduction

/-!
# Formulas

The values that a formula may refer to stand in its bindings, by id.
-/

namespace DerivedForm

/-- Values by id. An id stands there once in bindings built by `insert`. -/
abbrev Bindings := List (String × Value)

namespace Bindings

def get? (bindings : Bindings) (id : String) : Option Value := bindings.lookup id

def ids (bindings : Bindings) : List String := bindings.map Prod.fst

def number? (bindings : Bindings) (id : String) : Option Number.Finite :=
  (bindings.get? id).bind Value.number?

def insert (id : String) (value : Value) : Bindings → Bindings
  | [] => [(id, value)]
  | (key, old) :: rest =>
    if id == key then (id, value) :: rest else (key, old) :: insert id value rest

def ofList (pairs : List (String × Value)) : Bindings :=
  pairs.foldl (fun bindings (id, value) => bindings.insert id value) []

theorem get?_insert (bindings : Bindings) (id key : String) (value : Value) :
    (bindings.insert id value).get? key = if key = id then some value else bindings.get? key := by
  unfold get?
  induction bindings with
  | nil =>
    by_cases h : key = id
    · simp [insert, h]
    · simp [insert, List.lookup_cons, beq_eq_false_iff_ne.2 h, h]
  | cons pair rest ih =>
    obtain ⟨k, v⟩ := pair
    unfold insert
    by_cases hk : id = k
    · subst hk
      by_cases h : key = id
      · simp [h]
      · simp [List.lookup_cons, beq_eq_false_iff_ne.2 h, h]
    · simp only [beq_eq_false_iff_ne.2 hk, Bool.false_eq_true, ↓reduceIte, List.lookup_cons, ih]
      by_cases h : key = id
      · subst h
        simp [beq_eq_false_iff_ne.2 hk]
      · simp [h]

end Bindings

end DerivedForm

/-!
## References in formulas

A formula is read from left to right as a list of pieces: references to fields, and single characters
of arithmetic. A reference is a name in braces, or the longest known id that stands between characters
which could not belong to it. A letter that starts no known id is an error, as is a brace that is not
closed.
-/

namespace DerivedForm.Formula

inductive Piece where
  | literal (c : Char)
  | reference (id : String)
  deriving DecidableEq

def startsWithWord (s : List Char) : Bool := s.head?.any Text.isWordChar

def startsWithId (s : List Char) (id : String) : Bool :=
  id.toList.isPrefixOf s && !startsWithWord (s.drop id.toList.length)

def longest? : List String → Option String
  | [] => none
  | id :: rest =>
    match longest? rest with
    | some other => if id.toList.length < other.toList.length then some other else some id
    | none => some id

def bareId? (ids : List String) (previous : Option Char) (s : List Char) : Option String :=
  if previous.any Text.isWordChar then none else longest? (ids.filter (startsWithId s))

/-- The pieces of a formula; `ids` are the known ids, without an empty one, and `previous` is the
last character of what has been read before. -/
def pieces? (ids : List String) (previous : Option Char) : List Char → Option (List Piece)
  | [] => some []
  | c :: rest =>
    if c = '\x7b' then
      let name := rest.takeWhile (· != '\x7d')
      if name.length < rest.length then
        (pieces? ids (some '\x7d') (rest.drop (name.length + 1))).map
          (.reference (String.ofList (Text.trimmed name)) :: ·)
      else none
    else
      match bareId? ids previous (c :: rest) with
      | some id =>
        (pieces? ids id.toList.getLast? (rest.drop (id.toList.length - 1))).map (.reference id :: ·)
      | none =>
        if !previous.any Text.isWordChar && Text.startsName c then none
        else (pieces? ids (some c) rest).map (.literal c :: ·)
  termination_by s => s.length
  decreasing_by
    all_goals simp only [List.length_drop, List.length_cons]
    all_goals omega

/-!
## Evaluating formulas

References are replaced by the text of the numbers they stand for, and the resulting text is read as
arithmetic. A negative number is put into parentheses, so that its sign stays with it. There is no
result if a reference is unknown or stands for no finite number.
-/

open DerivedForm.Number (Finite)

def operandText (x : Finite) : List Char :=
  if x.units < 0 then '(' :: x.text.toList ++ [')'] else x.text.toList

def Piece.text? (bindings : Bindings) : Piece → Option (List Char)
  | .literal c => some [c]
  | .reference id => (bindings.number? id).map operandText

def piecesText? (bindings : Bindings) (pieces : List Piece) : Option (List Char) :=
  (pieces.mapM (Piece.text? bindings)).map List.flatten

def resolve? (formula : String) (bindings : Bindings) : Option (List Char) :=
  (pieces? (bindings.ids.filter (· != "")) none formula.toList).bind (piecesText? bindings)

def evaluate? (formula : String) (bindings : Bindings) : Option Finite :=
  ((resolve? formula bindings).bind Token.scan?).bind reduce?

end DerivedForm.Formula
