import DerivedForm.Proofs.Formula.Derivation
import DerivedForm.Proofs.Formula.Scanning

/-!
# Numbers in place of their text

The text of a negative number is reduced like the number itself: its parentheses are a group, and a
group becomes one number. A minus sign without parentheses, as it is written before the negative
zero, makes no difference either, unless an operand stands before it; then it is an operator. Where
an operand stands before an operand there is no result.
-/

namespace DerivedForm.Formula

open DerivedForm.Number (Binary64 Finite)

namespace Token

def endsOperand : Token → Bool
  | number _ | closeParen => true
  | operator _ | openParen => false

def startsOperand : Token → Bool
  | number _ | openParen => true
  | operator _ | closeParen => false

end Token

def operandBehind (ended : Bool) (tokens : List Token) : Bool :=
  tokens.foldl (fun _ token => token.endsOperand) ended

variable {before inside after : List Token}

@[simp] theorem operandBehind_nil (ended : Bool) : operandBehind ended [] = ended := rfl

@[simp] theorem operandBehind_cons (ended : Bool) (token : Token) (rest : List Token) :
    operandBehind ended (token :: rest) = operandBehind token.endsOperand rest := rfl

@[simp] theorem operandBehind_append (ended : Bool) (s t : List Token) :
    operandBehind ended (s ++ t) = operandBehind (operandBehind ended s) t :=
  List.foldl_append

theorem splitFirstClose?_eq_none (h : .closeParen ∉ inside) : splitFirstClose? inside = none := by
  induction inside with
  | nil => rfl
  | cons token rest ih =>
    obtain ⟨hne, hrest⟩ := List.ne_and_not_mem_of_not_mem_cons h
    simp [splitFirstClose?, ih hrest, Ne.symm hne]

theorem reduce?_lastOpen (before : List Token) (h : .openParen ∉ after) :
    reduce? (before ++ .openParen :: after) = (splitFirstClose? after).bind fun (inside, rest) =>
      (flatValue? inside).bind fun x => reduce? (before ++ .number (.finite x) :: rest) := by
  have hgroup : lastGroup? (before ++ .openParen :: after) =
      (splitFirstClose? after).map fun (inside, rest) => (before, inside, rest) := by
    rw [lastGroup?, splitLastOpen?_append before h, Option.bind_some]
  cases hclose : splitFirstClose? after with
  | some split => exact reduce?_of_lastGroup? (by rw [hgroup, hclose, Option.map_some])
  | none =>
    rw [Option.bind_none, Option.eq_none_iff_forall_ne_some]
    intro v hv
    obtain ⟨b, i, a, hsome⟩ := exists_lastGroup? hv (by simp)
    rw [hgroup, hclose] at hsome
    cases hsome

theorem reduce?_group (before : List Token) (hopen : .openParen ∉ inside ++ .closeParen :: after)
    (hclose : .closeParen ∉ inside) :
    reduce? (before ++ .openParen :: (inside ++ .closeParen :: after)) =
      (flatValue? inside).bind fun x => reduce? (before ++ .number (.finite x) :: after) :=
  reduce?_of_lastGroup? (lastGroup?_append before hopen hclose)

theorem reduce?_unclosed (before : List Token) (hopen : .openParen ∉ after)
    (hclose : .closeParen ∉ after) : reduce? (before ++ .openParen :: after) = none := by
  rw [reduce?_lastOpen before hopen, splitFirstClose?_eq_none hclose, Option.bind_none]

/-- The tokens of `s` may be put in the place of those of `t`, whatever stands behind them. -/
def SameReduction (s t : List Token) : Prop := ∀ after, reduce? (s ++ after) = reduce? (t ++ after)

theorem SameReduction.append {s t : List Token} (h : SameReduction s t) (more : List Token) :
    SameReduction (s ++ more) (t ++ more) := by
  intro after
  rw [List.append_assoc, List.append_assoc, h]

theorem SameReduction.trans {s t u : List Token} (h : SameReduction s t) (h' : SameReduction t u) :
    SameReduction s u :=
  fun after => (h after).trans (h' after)

theorem sameReduction_of_noOpen {s t : List Token}
    (h : ∀ after, .openParen ∉ after → reduce? (s ++ after) = reduce? (t ++ after)) :
    SameReduction s t := by
  intro after
  induction hn : after.length using Nat.strongRecOn generalizing after with
  | _ n ih =>
    by_cases hopen : .openParen ∈ after
    · obtain ⟨before, rest, rfl, hlast⟩ := exists_last_open hopen
      rw [← List.append_assoc, ← List.append_assoc, reduce?_lastOpen _ hlast,
        reduce?_lastOpen _ hlast]
      refine Option.bind_congr fun split hsplit => Option.bind_congr fun x _ => ?_
      obtain ⟨inside, behind⟩ := split
      have hrest := eq_of_splitFirstClose? hsplit
      rw [List.append_assoc, List.append_assoc]
      refine ih _ ?_ _ rfl
      rw [← hn, hrest]
      simp only [List.length_append, List.length_cons]
      omega
    · exact h after hopen

theorem flatValue?_minus (y : Finite) :
    flatValue? [.operator .subtract, .number (.finite y)] = some (y.withSign !y.negative) := rfl

theorem sameReduction_group (before : List Token) (y : Finite) :
    SameReduction
      (before ++ [.openParen, .operator .subtract, .number (.finite y), .closeParen])
      (before ++ [.number (.finite (y.withSign !y.negative))]) := by
  refine sameReduction_of_noOpen fun after hafter => ?_
  have hreduced : reduce? (before ++ .openParen ::
      ([.operator .subtract, .number (.finite y)] ++ .closeParen :: after)) =
        reduce? (before ++ .number (.finite (y.withSign !y.negative)) :: after) := by
    rw [reduce?_group before (by simp [hafter]) (by simp), flatValue?_minus, Option.bind_some]
  simpa using hreduced

theorem steps?_minus (awaiting : Option (Operator × Bool)) (x : Binary64)
    (h : operandBehind awaiting.isNone before = false) (after : List Token) :
    steps? awaiting (before ++ .operator .subtract :: .number x :: after) =
      steps? awaiting (before ++ .number (-x) :: after) := by
  induction before generalizing awaiting with
  | nil =>
    obtain ⟨⟨op, negative⟩, rfl⟩ : ∃ waiting, awaiting = some waiting := by
      simpa [Option.isSome_iff_exists] using h
    cases negative <;> simp [steps?, Binary64.neg_neg]
  | cons token rest ih =>
    rw [operandBehind_cons] at h
    cases awaiting with
    | none =>
      cases token with
      | operator op => simpa [steps?] using ih (some (op, false)) h
      | number y | openParen | closeParen => simp [steps?]
    | some waiting =>
      obtain ⟨op, negative⟩ := waiting
      cases token with
      | number y => rw [List.cons_append, List.cons_append, steps?, steps?, ih none h]
      | operator sign =>
        cases sign with
        | add => simpa [steps?] using ih (some (op, negative)) h
        | subtract => simpa [steps?] using ih (some (op, !negative)) h
        | multiply | divide => simp [steps?]
      | openParen | closeParen => simp [steps?]

theorem flatValue?_append_minus (x : Binary64) (h : operandBehind false before = false)
    (after : List Token) :
    flatValue? (before ++ .operator .subtract :: .number x :: after) =
      flatValue? (before ++ .number (-x) :: after) := by
  rw [flatValue?, steps?_minus (some (.add, false)) x h]
  rfl

/-- Where no operand ends before it, a minus sign belongs to the number behind it. -/
theorem sameReduction_minus (x : Binary64) (h : operandBehind false before = false) :
    SameReduction (before ++ [.operator .subtract, .number x]) (before ++ [.number (-x)]) := by
  refine sameReduction_of_noOpen fun after hafter => ?_
  suffices hreduce : reduce? (before ++ .operator .subtract :: .number x :: after) =
      reduce? (before ++ .number (-x) :: after) by simpa using hreduce
  induction hn : before.length using Nat.strongRecOn generalizing before with
  | _ n ih =>
    by_cases hopen : .openParen ∈ before
    · obtain ⟨front, rest, rfl, hlast⟩ := exists_last_open hopen
      rw [operandBehind_append, operandBehind_cons] at h
      rw [List.append_assoc, List.append_assoc, List.cons_append, List.cons_append]
      by_cases hclose : .closeParen ∈ rest
      · -- the group ends before the sign
        obtain ⟨inside, behind, rfl, hinside⟩ := List.eq_append_cons_of_mem hclose
        rw [operandBehind_append, operandBehind_cons] at h
        rw [List.append_assoc, List.append_assoc, List.cons_append, List.cons_append,
          reduce?_group front (by simp_all) hinside, reduce?_group front (by simp_all) hinside]
        refine Option.bind_congr fun y _ => ?_
        have hshorter : (front ++ .number (.finite y) :: behind).length < n := by
          rw [← hn]
          simp only [List.length_append, List.length_cons]
          omega
        have hbehind : operandBehind false (front ++ .number (.finite y) :: behind) = false := by
          rwa [operandBehind_append, operandBehind_cons]
        simpa using ih _ hshorter hbehind rfl
      · by_cases hbehind : .closeParen ∈ after
        · -- the sign is in the group
          obtain ⟨inside, behind, rfl, hinside⟩ := List.eq_append_cons_of_mem hbehind
          have hgroup : ∀ tokens, .closeParen ∉ tokens → .openParen ∉ tokens →
              reduce? (front ++ .openParen :: (rest ++ (tokens ++ inside ++ .closeParen :: behind))) =
              (flatValue? (rest ++ (tokens ++ inside))).bind fun y =>
                reduce? (front ++ .number (.finite y) :: behind) := by
            intro tokens hclosed hopened
            rw [← List.append_assoc rest]
            exact reduce?_group front (by simp_all) (by simp_all)
          have hsign := hgroup [.operator .subtract, .number x] (by simp) (by simp)
          have hnumber := hgroup [.number (-x)] (by simp) (by simp)
          rw [List.singleton_append, ← flatValue?_append_minus x h] at hnumber
          simpa using hsign.trans hnumber.symm
        · rw [reduce?_unclosed front (by simp_all) (by simp_all),
            reduce?_unclosed front (by simp_all) (by simp_all)]
    · rw [reduce?_of_notMem (by simp [hopen, hafter]), reduce?_of_notMem (by simp [hopen, hafter]),
        flatValue?_append_minus x h]

theorem sameReduction_writtenTokens {x : Finite}
    (h : x = .zero true → operandBehind false before = false) :
    SameReduction (before ++ writtenTokens x) (before ++ [.number (.finite x)]) := by
  have hself : x.withSign x.negative = x := rfl
  unfold writtenTokens
  dsimp only
  split
  · rename_i hunits
    rw [Finite.negative_of_units_neg hunits] at hself
    have hgroup := sameReduction_group before (x.withSign false)
    rwa [show (x.withSign false).withSign (!(x.withSign false).negative) = x from hself] at hgroup
  · rename_i hunits
    split
    · rename_i hsign
      rw [hsign] at hself
      have hminus := sameReduction_minus (.finite (x.withSign false))
        (h (Finite.eq_zero_of_negative hsign hunits))
      rwa [show -Binary64.finite (x.withSign false) = .finite x from
        congrArg Binary64.finite hself] at hminus
    · rename_i hsign
      rw [Bool.not_eq_true] at hsign
      rw [hsign] at hself
      rw [hself]
      exact fun after => rfl

theorem SameReduction.operand {s t : List Token} (h : SameReduction s t) (tokens : List Token)
    {x : Finite} (hx : x = .zero true → operandBehind false (t ++ tokens) = false) :
    SameReduction (s ++ (tokens ++ writtenTokens x)) (t ++ tokens ++ [.number (.finite x)]) := by
  refine (h.append _).trans ?_
  rw [← List.append_assoc]
  exact sameReduction_writtenTokens hx

def Separated (s t : Token) : Prop := s.endsOperand = true → t.startsOperand = false

theorem isChain_cons_of_not_endsOperand {token : Token} {tokens : List Token}
    (htoken : token.endsOperand = false) (h : tokens.IsChain Separated) :
    (token :: tokens).IsChain Separated :=
  List.isChain_cons.mpr ⟨fun _ _ hends => absurd hends (by simp [htoken]), h⟩

theorem isChain_append_cons_of_not_startsOperand {token : Token} {s t : List Token}
    (htoken : token.startsOperand = false) (hs : s.IsChain Separated)
    (ht : (token :: t).IsChain Separated) : (s ++ token :: t).IsChain Separated := by
  refine List.isChain_append.mpr ⟨hs, ht, fun x _ y hy _ => ?_⟩
  obtain rfl : token = y := by simpa using hy
  exact htoken

namespace Phrase

theorem isChain_tokens {r : Rank} (p : Phrase r) : p.tokens.IsChain Separated := by
  induction p with
  | number x => exact List.isChain_singleton _
  | group e ih =>
    exact isChain_cons_of_not_endsOperand rfl
      (isChain_append_cons_of_not_startsOperand rfl ih (List.isChain_singleton _))
  | signed signs a ih =>
    induction signs with
    | nil => exact ih
    | cons sign others ihs => exact isChain_cons_of_not_endsOperand rfl ihs
  | ofFactor f ih | ofTerm t ih => exact ih
  | product t s f iht ihf | sum e s t iht ihf =>
    exact isChain_append_cons_of_not_startsOperand rfl iht (isChain_cons_of_not_endsOperand rfl ihf)

end Phrase

theorem operandBehind_false_eq (tokens : List Token) :
    operandBehind false tokens = tokens.getLast?.any Token.endsOperand := by
  induction tokens using List.reverseRecOn with
  | nil => rfl
  | append_singleton front token _ => simp

theorem separated_of_reduce? {x : Binary64} {v : Finite}
    (h : reduce? (before ++ .number x :: after) = some v) :
    operandBehind false before = false ∧ after.head?.any Token.startsOperand = false := by
  obtain ⟨e, he⟩ := Phrase.exists_tokens_of_reduce? h
  have hchain := e.isChain_tokens
  rw [he, List.isChain_append, List.isChain_cons] at hchain
  obtain ⟨-, ⟨hafter, -⟩, hbefore⟩ := hchain
  constructor
  · rw [operandBehind_false_eq]
    cases hlast : before.getLast? with
    | none => rfl
    | some token =>
      cases hends : token.endsOperand with
      | false => simp [hends]
      | true =>
        have hstarts := hbefore token (by simp [hlast]) (.number x) (by simp) hends
        cases hstarts
  · cases hhead : after.head? with
    | none => rfl
    | some token =>
      have hstarts := hafter token (by simp [hhead]) rfl
      simp [hstarts]

end DerivedForm.Formula
