import DerivedForm.Formula.Reduction
import Mathlib.Data.List.Basic

/-!
# The grammar of arithmetic

An expression is a sum of terms, a term a product of factors, and a factor an operand behind signs;
sums and products associate to the left, and an operand is a number or an expression in parentheses.
A phrase is a derivation in this grammar. It has the tokens that it derives and the value that they
compute. A phrase in which an operand stands can be rebuilt around another operand in its place.
-/

namespace DerivedForm.Formula

open DerivedForm.Number (Binary64 Finite)

inductive Sign where
  | plus
  | minus
  deriving DecidableEq

namespace Sign

def operator : Sign → Operator
  | plus => .add
  | minus => .subtract

def combine (x y : Binary64) : Sign → Binary64
  | plus => x + y
  | minus => x - y

def negate (signs : List Sign) : Bool := signs.count minus % 2 == 1

def tokens (signs : List Sign) : List Token := signs.map fun s => .operator s.operator

@[simp] theorem negate_nil : negate [] = false := rfl

@[simp] theorem negate_plus (signs : List Sign) : negate (plus :: signs) = negate signs := by
  simp [negate]

@[simp] theorem negate_minus (signs : List Sign) : negate (minus :: signs) = !negate signs := by
  rcases Nat.mod_two_eq_zero_or_one (signs.count minus) with h | h <;>
    simp [negate, Nat.add_mod, h]

end Sign

inductive Scale where
  | times
  | dividedBy
  deriving DecidableEq

namespace Scale

def operator : Scale → Operator
  | times => .multiply
  | dividedBy => .divide

def combine (x y : Binary64) : Scale → Binary64
  | times => x * y
  | dividedBy => x / y

def allows (y : Binary64) : Scale → Bool
  | times => true
  | dividedBy => !y.same 0

end Scale

inductive Rank where
  | operand
  | factor
  | term
  | expression
  deriving DecidableEq

inductive Phrase : Rank → Type
  | number (x : Binary64) : Phrase .operand
  | group (e : Phrase .expression) : Phrase .operand
  | signed (signs : List Sign) (a : Phrase .operand) : Phrase .factor
  | ofFactor (f : Phrase .factor) : Phrase .term
  | product (t : Phrase .term) (s : Scale) (f : Phrase .factor) : Phrase .term
  | ofTerm (t : Phrase .term) : Phrase .expression
  | sum (e : Phrase .expression) (s : Sign) (t : Phrase .term) : Phrase .expression

namespace Phrase

def tokens : {r : Rank} → Phrase r → List Token
  | _, number x => [.number x]
  | _, group e => .openParen :: (e.tokens ++ [.closeParen])
  | _, signed signs a => Sign.tokens signs ++ a.tokens
  | _, ofFactor f => f.tokens
  | _, product t s f => t.tokens ++ .operator s.operator :: f.tokens
  | _, ofTerm t => t.tokens
  | _, sum e s t => e.tokens ++ .operator s.operator :: t.tokens

def value : {r : Rank} → Phrase r → Binary64
  | _, number x => x
  | _, group e => e.value
  | _, signed signs a => if Sign.negate signs then -a.value else a.value
  | _, ofFactor f => f.value
  | _, product t s f => s.combine t.value f.value
  | _, ofTerm t => t.value
  | _, sum e s t => s.combine e.value t.value

/-- No divisor is a zero, and the groups have finite values. -/
def isProper : {r : Rank} → Phrase r → Bool
  | _, number _ => true
  | _, group e => e.isProper && e.value.isFinite
  | _, signed _ a => a.isProper
  | _, ofFactor f => f.isProper
  | _, product t s f => t.isProper && f.isProper && s.allows f.value
  | _, ofTerm t => t.isProper
  | _, sum e _ t => e.isProper && t.isProper

def result? {r : Rank} (p : Phrase r) : Option Finite :=
  if p.isProper then p.value.finite? else none

variable {r s : Rank}

theorem result?_eq_some_iff {p : Phrase r} {v : Finite} :
    p.result? = some v ↔ p.isProper = true ∧ p.value = .finite v := by
  unfold result?
  cases p.isProper <;> cases p.value <;> simp [Binary64.finite?]

theorem openParen_mem_of_closeParen_mem (p : Phrase r) (h : .closeParen ∈ p.tokens) :
    .openParen ∈ p.tokens := by
  induction p with
  | number x => simp [tokens] at h
  | group e ih => simp [tokens]
  | signed signs a ih => simp_all [tokens, Sign.tokens]
  | ofFactor f ih => exact ih h
  | ofTerm t ih => exact ih h
  | product t s f iht ihf | sum e s t iht ihf =>
    simp only [tokens, List.mem_append, List.mem_cons, reduceCtorEq, false_or] at h ⊢
    exact h.imp iht ihf

/-- The operand `a` stands in the phrase, with the given tokens before and after it: it is proper if
the phrase is, and another operand in its place makes a phrase of the same value if it has the value
of `a`. -/
structure Slot (p : Phrase r) (before : List Token) (a : Phrase .operand) (after : List Token) :
    Prop where
  proper : p.isProper = true → a.isProper = true
  replace : ∀ b : Phrase .operand, ∃ q : Phrase r, q.tokens = before ++ b.tokens ++ after ∧
    (b.value = a.value → b.isProper = a.isProper → q.value = p.value ∧ q.isProper = p.isProper)

structure Context (build : Phrase r → Phrase s) (before after : List Token) : Prop where
  tokens : ∀ p, (build p).tokens = before ++ p.tokens ++ after
  proper : ∀ p, (build p).isProper = true → p.isProper = true
  congr : ∀ p q, q.value = p.value → q.isProper = p.isProper →
    (build q).value = (build p).value ∧ (build q).isProper = (build p).isProper

theorem Slot.self (a : Phrase .operand) : a.Slot [] a [] where
  proper := id
  replace b := ⟨b, by simp, fun hvalue hproper => ⟨hvalue, hproper⟩⟩

theorem Slot.map {build : Phrase r → Phrase s} {pre post before after : List Token}
    (hbuild : Context build pre post) {p : Phrase r} {a : Phrase .operand}
    (h : p.Slot before a after) : (build p).Slot (pre ++ before) a (after ++ post) where
  proper hproper := h.proper (hbuild.proper p hproper)
  replace b := by
    obtain ⟨q, htokens, hsame⟩ := h.replace b
    refine ⟨build q, by simp [hbuild.tokens, htokens], fun hvalue hproper => ?_⟩
    obtain ⟨hv, hp⟩ := hsame hvalue hproper
    exact hbuild.congr p q hv hp

theorem context_group : Context group [.openParen] [.closeParen] where
  tokens p := by simp [Phrase.tokens]
  proper p h := (Bool.and_eq_true_iff.mp h).1
  congr p q hvalue hproper := by simp [value, isProper, hvalue, hproper]

theorem context_signed (signs : List Sign) : Context (signed signs) (Sign.tokens signs) [] where
  tokens p := by simp [Phrase.tokens]
  proper p h := h
  congr p q hvalue hproper := by simp [value, isProper, hvalue, hproper]

theorem context_ofFactor : Context ofFactor [] [] where
  tokens p := by simp [Phrase.tokens]
  proper p h := h
  congr p q hvalue hproper := ⟨hvalue, hproper⟩

theorem context_ofTerm : Context ofTerm [] [] where
  tokens p := by simp [Phrase.tokens]
  proper p h := h
  congr p q hvalue hproper := ⟨hvalue, hproper⟩

theorem context_product_left (s : Scale) (f : Phrase .factor) :
    Context (fun t => product t s f) [] (.operator s.operator :: f.tokens) where
  tokens p := by simp [Phrase.tokens]
  proper p h := by simp_all [isProper]
  congr p q hvalue hproper := by simp [value, isProper, hvalue, hproper]

theorem context_product_right (t : Phrase .term) (s : Scale) :
    Context (product t s) (t.tokens ++ [.operator s.operator]) [] where
  tokens p := by simp [Phrase.tokens]
  proper p h := by simp_all [isProper]
  congr p q hvalue hproper := by simp [value, isProper, hvalue, hproper]

theorem context_sum_left (s : Sign) (t : Phrase .term) :
    Context (fun e => sum e s t) [] (.operator s.operator :: t.tokens) where
  tokens p := by simp [Phrase.tokens]
  proper p h := by simp_all [isProper]
  congr p q hvalue hproper := by simp [value, isProper, hvalue, hproper]

theorem context_sum_right (e : Phrase .expression) (s : Sign) :
    Context (sum e s) (e.tokens ++ [.operator s.operator]) [] where
  tokens p := by simp [Phrase.tokens]
  proper p h := by simp_all [isProper]
  congr p q hvalue hproper := by simp [value, isProper, hvalue, hproper]

theorem split_separator {α : Type} {left right before rest : List α} {separator start : α}
    (hne : start ≠ separator) (h : left ++ separator :: right = before ++ start :: rest) :
    (∃ more, left = before ++ start :: more ∧ rest = more ++ separator :: right) ∨
      ∃ more, before = left ++ separator :: more ∧ right = more ++ start :: rest := by
  rcases List.append_eq_append_iff.mp h with ⟨between, hbefore, hright⟩ | ⟨between, hleft, hrest⟩
  · cases between with
    | nil => exact absurd (List.cons.inj hright).1.symm hne
    | cons first more =>
      obtain ⟨rfl, htail⟩ := List.cons.inj hright
      exact Or.inr ⟨more, hbefore, htail⟩
  · cases between with
    | nil => exact absurd (List.cons.inj hrest).1 hne
    | cons first more =>
      obtain ⟨rfl, htail⟩ := List.cons.inj hrest
      exact Or.inl ⟨more, hleft, htail⟩

theorem split_signs {signs : List Sign} {right before rest : List Token} {start : Token}
    (hoperator : ∀ op, start ≠ .operator op)
    (h : Sign.tokens signs ++ right = before ++ start :: rest) :
    ∃ more, before = Sign.tokens signs ++ more ∧ right = more ++ start :: rest := by
  rcases List.append_eq_append_iff.mp h with hsplit | ⟨between, hsigns, hrest⟩
  · exact hsplit
  · cases between with
    | nil => exact ⟨[], by simpa using hsigns.symm, hrest.symm⟩
    | cons first more =>
      obtain ⟨rfl, -⟩ := List.cons.inj hrest
      have hmem : start ∈ Sign.tokens signs := by simp [hsigns]
      obtain ⟨sign, -, heq⟩ := List.mem_map.mp hmem
      exact absurd heq.symm (hoperator _)

/-- Wherever a token that is neither an operator nor a closing parenthesis stands, an operand
begins. -/
theorem exists_slot (p : Phrase r) {before rest : List Token} {start : Token}
    (hoperator : ∀ op, start ≠ .operator op) (hclose : start ≠ .closeParen)
    (h : p.tokens = before ++ start :: rest) :
    ∃ a after, start :: rest = a.tokens ++ after ∧ p.Slot before a after := by
  induction p generalizing before rest with
  | number x =>
    cases before with
    | nil => exact ⟨number x, [], by simpa using h.symm, Slot.self _⟩
    | cons first others => simp [tokens] at h
  | group e ih =>
    cases before with
    | nil => exact ⟨group e, [], by simpa using h.symm, Slot.self _⟩
    | cons first others =>
      obtain ⟨rfl, hrest⟩ := List.cons.inj h
      rcases split_separator hclose hrest with ⟨more, he, rfl⟩ | ⟨more, -, hnil⟩
      · obtain ⟨a, after, htokens, hslot⟩ := ih he
        exact ⟨a, after ++ [Token.closeParen], by rw [← List.append_assoc, ← htokens]; rfl,
          hslot.map context_group⟩
      · simp at hnil
  | signed signs a ih =>
    obtain ⟨more, rfl, ha⟩ := split_signs hoperator h
    obtain ⟨b, after, htokens, hslot⟩ := ih ha
    exact ⟨b, after, htokens, by simpa using hslot.map (context_signed signs)⟩
  | ofFactor f ih =>
    obtain ⟨a, after, htokens, hslot⟩ := ih h
    exact ⟨a, after, htokens, by simpa using hslot.map context_ofFactor⟩
  | ofTerm t ih =>
    obtain ⟨a, after, htokens, hslot⟩ := ih h
    exact ⟨a, after, htokens, by simpa using hslot.map context_ofTerm⟩
  | product t s f iht ihf =>
    rcases split_separator (hoperator _) h with ⟨more, ht, rfl⟩ | ⟨more, rfl, hf⟩
    · obtain ⟨a, after, htokens, hslot⟩ := iht ht
      exact ⟨a, _, by rw [← List.append_assoc, ← htokens]; rfl,
        hslot.map (context_product_left s f)⟩
    · obtain ⟨a, after, htokens, hslot⟩ := ihf hf
      exact ⟨a, after, htokens, by simpa using hslot.map (context_product_right t s)⟩
  | sum e s t ihe iht =>
    rcases split_separator (hoperator _) h with ⟨more, he, rfl⟩ | ⟨more, rfl, ht⟩
    · obtain ⟨a, after, htokens, hslot⟩ := ihe he
      exact ⟨a, _, by rw [← List.append_assoc, ← htokens]; rfl,
        hslot.map (context_sum_left s t)⟩
    · obtain ⟨a, after, htokens, hslot⟩ := iht ht
      exact ⟨a, after, htokens, by simpa using hslot.map (context_sum_right e s)⟩

end Phrase

end DerivedForm.Formula
