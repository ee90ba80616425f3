import DerivedForm.Proofs.Formula.Exchange
import DerivedForm.Proofs.Formula.Spans

/-!
# References as operands

A reference is meant to be one operand: the number that it stands for, whatever is written next to
it. What is evaluated is a text, in which the digits of the number may meet other digits. Where they
do not, and where the sign of a negative zero does not follow an operand, the text has the value that
the operands have. An operand beside another leaves no result, so a formula that has a value when its
references are operands has this value as a text.
-/

namespace DerivedForm.Formula

open DerivedForm.Number (Binary64 Finite)

/-- The tokens of a formula in which every reference is one number. The characters between references
are scanned by themselves; `text` holds those that stand before the pieces. -/
def operandTokens? (bindings : Bindings) (text : List Char) : List Piece → Option (List Token)
  | [] => Token.scan? text
  | .literal c :: rest => operandTokens? bindings (text ++ [c]) rest
  | .reference id :: rest =>
    (Token.scan? text).bind fun tokens => (bindings.number? id).bind fun x =>
      (operandTokens? bindings [] rest).map fun more => tokens ++ .number (.finite x) :: more

def operandValue? (formula : String) (bindings : Bindings) : Option Finite :=
  ((pieces? (bindings.ids.filter (· != "")) none formula.toList).bind
    (operandTokens? bindings [])).bind reduce?

def Piece.fuses (bindings : Bindings) (piece next : Piece) : Bool :=
  match piece.text? bindings, next.text? bindings with
  | some s, some t => Token.fuses s t
  | _, _ => false

def Piece.isOperand : Piece → Bool
  | .literal c => Token.isNumberChar c
  | .reference _ => true

/-- The number of the reference is not continued by its neighbours, and if it is the negative zero,
then no operand ends before it. -/
structure StandsAlone (bindings : Bindings) (front : List Piece) (id : String) (back : List Piece) :
    Prop where
  left : front.getLast?.any (·.fuses bindings (.reference id)) = false
  right : back.head?.any (Piece.fuses bindings (.reference id)) = false
  zero : bindings.number? id = some (.zero true) →
    ∀ tokens, operandTokens? bindings [] front = some tokens → operandBehind false tokens = false

def AllStandAlone (bindings : Bindings) (pieces : List Piece) : Prop :=
  ∀ front id back, pieces = front ++ .reference id :: back → StandsAlone bindings front id back

variable {bindings : Bindings} {text : List Char} {front back pieces : List Piece} {id : String}
  {c : Char} {tokens : List Token}

theorem Token.fuses_append_right (s : List Char) {t : List Char} (ht : t ≠ []) (u : List Char) :
    fuses s (t ++ u) = fuses s t := by
  cases t with
  | nil => exact absurd rfl ht
  | cons d rest => rfl

theorem operandText_ne_nil (x : Finite) : operandText x ≠ [] := by
  intro hnil
  have hscanned := Token.scan?_operandText x
  rw [hnil, Token.scan?_nil, writtenTokens] at hscanned
  split at hscanned
  · cases hscanned
  · split at hscanned <;> cases hscanned

theorem Piece.text?_ne_nil {piece : Piece} {s : List Char} (h : piece.text? bindings = some s) :
    s ≠ [] := by
  cases piece with
  | literal c =>
    cases h
    exact List.cons_ne_nil c []
  | reference id =>
    obtain ⟨x, -, rfl⟩ := Option.map_eq_some_iff.mp h
    exact operandText_ne_nil x

theorem fuses_piecesText? {piece : Piece} {s u : List Char} (hs : piece.text? bindings = some s)
    (hu : piecesText? bindings back = some u)
    (h : back.head?.any (Piece.fuses bindings piece) = false) : Token.fuses s u = false := by
  cases back with
  | nil =>
    cases hu
    exact Token.fuses_nil_right s
  | cons next rest =>
    rw [piecesText?_cons] at hu
    obtain ⟨t, ht, hrest⟩ := Option.bind_eq_some_iff.mp hu
    obtain ⟨more, -, rfl⟩ := Option.map_eq_some_iff.mp hrest
    rw [Token.fuses_append_right s (Piece.text?_ne_nil ht)]
    simpa [Piece.fuses, hs, ht] using h

theorem Piece.isOperand_of_fuses {piece next : Piece} (h : piece.fuses bindings next = true) :
    piece.isOperand = true ∧ next.isOperand = true := by
  unfold Piece.fuses at h
  split at h
  · rename_i s t hs ht
    obtain ⟨hlast, hhead⟩ := Bool.and_eq_true_iff.mp h
    constructor
    · cases piece with
      | literal c =>
        cases hs
        exact hlast
      | reference id => rfl
    · cases next with
      | literal c =>
        cases ht
        exact hhead
      | reference id => rfl
  · cases h

theorem fuses_operandText {x : Finite} (hx : bindings.number? id = some x)
    (htext : ∀ c, text.getLast? = some c → front.getLast? = some (.literal c))
    (h : front.getLast?.any (·.fuses bindings (.reference id)) = false) :
    Token.fuses text (operandText x) = false := by
  cases hlast : text.getLast? with
  | none =>
    rw [List.getLast?_eq_none_iff.mp hlast]
    rfl
  | some c =>
    rw [htext c hlast] at h
    simpa [Piece.fuses, Piece.text?, hx, Token.fuses, hlast] using h

theorem scan?_operandText_append {x : Finite} {u : List Char}
    (hbefore : Token.fuses text (operandText x) = false)
    (hafter : Token.fuses (operandText x) u = false) :
    Token.scan? (text ++ (operandText x ++ u)) = (Token.scan? text).bind fun before =>
      (Token.scan? u).map fun after => before ++ writtenTokens x ++ after := by
  have hwhole : Token.fuses text (operandText x ++ u) = false := by
    rwa [Token.fuses_append_right text (operandText_ne_nil x)]
  rw [Token.scan?_append hwhole, Token.scan?_append hafter, Token.scan?_operandText]
  cases Token.scan? u <;> simp

/-- Where every reference stands alone, text and operands are reduced alike. The tokens `s` and `t`
are those of the pieces in `front`, up to the last reference; `text` is what stands behind it. -/
theorem reduce?_spliced (front pieces : List Piece) (text : List Char)
    (hall : AllStandAlone bindings (front ++ pieces)) {s t : List Token} (hsame : SameReduction s t)
    (htext : ∀ c, text.getLast? = some c → front.getLast? = some (.literal c))
    (htokens : ∀ more, operandTokens? bindings [] (front ++ more) =
      (operandTokens? bindings text more).map (t ++ ·)) :
    ((piecesText? bindings pieces).bind fun u =>
      (Token.scan? (text ++ u)).bind fun tokens => reduce? (s ++ tokens)) =
      (operandTokens? bindings text pieces).bind fun tokens => reduce? (t ++ tokens) := by
  induction pieces generalizing front text s t with
  | nil =>
    rw [piecesText?_nil, Option.bind_some, List.append_nil, operandTokens?]
    exact Option.bind_congr fun tokens _ => hsame tokens
  | cons piece rest ih =>
    cases piece with
    | literal c =>
      have hrest := ih (front ++ [.literal c]) (text ++ [c]) (by simpa using hall)
        hsame (by simp) (fun more => by simpa [operandTokens?] using htokens (.literal c :: more))
      rw [operandTokens?, ← hrest, piecesText?_cons, Piece.text?, Option.bind_some]
      cases piecesText? bindings rest <;> simp
    | reference id =>
      obtain ⟨hleft, hright, hzero⟩ := hall front id rest rfl
      rw [piecesText?_cons, Piece.text?, operandTokens?]
      cases hnumber : bindings.number? id with
      | none => cases Token.scan? text <;> rfl
      | some x =>
        have hreference : (Piece.reference id).text? bindings = some (operandText x) := by
          rw [Piece.text?, hnumber, Option.map_some]
        have hscanned : ∀ u, piecesText? bindings rest = some u →
            Token.scan? (text ++ (operandText x ++ u)) = (Token.scan? text).bind fun before =>
              (Token.scan? u).map fun after => before ++ writtenTokens x ++ after := fun u hu =>
          scan?_operandText_append (fuses_operandText hnumber htext hleft)
            (fuses_piecesText? hreference hu hright)
        cases hscan : Token.scan? text with
        | none =>
          cases hrest : piecesText? bindings rest with
          | none => rfl
          | some u => simp [hscanned u hrest, hscan]
        | some tokens =>
          have hfront : operandTokens? bindings [] front = some (t ++ tokens) := by
            simpa [operandTokens?, hscan] using htokens []
          -- from here on the number stands in both, as text in `s` and as an operand in `t`
          have hexchange : SameReduction (s ++ (tokens ++ writtenTokens x))
              (t ++ tokens ++ [.number (.finite x)]) :=
            hsame.operand tokens fun hx => hzero (hx ▸ hnumber) _ hfront
          have hrest := ih (front ++ [.reference id]) [] (by simpa using hall)
            hexchange (by simp) fun more => by
              have hmore := htokens (.reference id :: more)
              rw [operandTokens?, hscan, hnumber] at hmore
              simpa [Function.comp_def] using hmore
          have hoperands : ((operandTokens? bindings [] rest).map
              fun more => tokens ++ .number (.finite x) :: more).bind (fun ts => reduce? (t ++ ts)) =
                (operandTokens? bindings [] rest).bind fun more =>
                  reduce? (t ++ tokens ++ [.number (.finite x)] ++ more) := by
            cases operandTokens? bindings [] rest <;> simp
          rw [Option.bind_some, Option.bind_some, hoperands, ← hrest]
          cases htail : piecesText? bindings rest with
          | none => rfl
          | some u =>
            simp only [Option.map_some, Option.bind_some, hscanned u htail, hscan, List.nil_append]
            cases Token.scan? u <;> simp

theorem operandTokens?_reference (text : List Char) (front : List Piece) (id : String)
    (back : List Piece) :
    operandTokens? bindings text (front ++ .reference id :: back) =
      (operandTokens? bindings text front).bind fun before => (bindings.number? id).bind fun x =>
        (operandTokens? bindings [] back).map fun after => before ++ .number (.finite x) :: after := by
  induction front generalizing text with
  | nil => rfl
  | cons piece rest ih =>
    cases piece with
    | literal c => exact ih (text ++ [c])
    | reference other =>
      rw [List.cons_append, operandTokens?, operandTokens?, ih]
      cases Token.scan? text with
      | none => rfl
      | some tokens =>
        cases bindings.number? other with
        | none => rfl
        | some y =>
          cases operandTokens? bindings [] rest with
          | none => rfl
          | some before =>
            cases bindings.number? id with
            | none => rfl
            | some x => cases operandTokens? bindings [] back <;> simp

theorem exists_of_operandTokens? (text : List Char) (front : List Piece) {id : String}
    {back : List Piece}
    (h : operandTokens? bindings text (front ++ .reference id :: back) = some tokens) :
    ∃ before x after, operandTokens? bindings text front = some before ∧
      bindings.number? id = some x ∧ operandTokens? bindings [] back = some after ∧
      tokens = before ++ .number (.finite x) :: after := by
  rw [operandTokens?_reference] at h
  obtain ⟨before, hbefore, hmore⟩ := Option.bind_eq_some_iff.mp h
  obtain ⟨x, hx, hback⟩ := Option.bind_eq_some_iff.mp hmore
  obtain ⟨after, hafter, htokens⟩ := Option.map_eq_some_iff.mp hback
  exact ⟨before, x, after, hbefore, hx, hafter, htokens.symm⟩

theorem startsOperand_of_scan? {rest : List Char} (hc : Token.isNumberChar c = true)
    (h : Token.scan? (c :: rest) = some tokens) :
    tokens.head?.any Token.startsOperand = true := by
  rw [Token.scan?_number hc] at h
  obtain ⟨x, -, hrest⟩ := Option.bind_eq_some_iff.mp h
  obtain ⟨others, -, rfl⟩ := Option.map_eq_some_iff.mp hrest
  rfl

theorem startsOperand_of_number (hc : Token.isNumberChar c = true)
    (h : operandTokens? bindings (c :: text) pieces = some tokens) :
    tokens.head?.any Token.startsOperand = true := by
  induction pieces generalizing text with
  | nil => exact startsOperand_of_scan? hc h
  | cons piece rest ih =>
    cases piece with
    | literal d => exact ih h
    | reference id =>
      obtain ⟨before, x, after, hbefore, -, -, rfl⟩ := exists_of_operandTokens? (c :: text) [] h
      have hstarts := startsOperand_of_scan? hc hbefore
      cases before with
      | nil => cases hstarts
      | cons token others => exact hstarts

theorem startsOperand_of_operandTokens? {piece : Piece} (hpiece : piece.isOperand = true)
    (h : operandTokens? bindings [] (piece :: back) = some tokens) :
    tokens.head?.any Token.startsOperand = true := by
  cases piece with
  | literal c => exact startsOperand_of_number hpiece h
  | reference id =>
    obtain ⟨before, x, after, hnil, -, -, rfl⟩ := exists_of_operandTokens? [] [] h
    rw [operandTokens?, Token.scan?_nil] at hnil
    cases hnil
    rfl

theorem operandBehind_of_scan? (hc : Token.isNumberChar c = true)
    (h : Token.scan? (text ++ [c]) = some tokens) (ended : Bool) :
    operandBehind ended tokens = true := by
  fun_induction Token.scan? text generalizing tokens ended with
  | case1 =>
    rw [List.nil_append, Token.scan?_number hc] at h
    obtain ⟨x, -, hrest⟩ := Option.bind_eq_some_iff.mp h
    simp only [List.dropWhile_nil, Token.scan?_nil, Option.map_some, Option.some.injEq] at hrest
    rw [← hrest]
    rfl
  | case2 d rest hblank ih =>
    rw [List.cons_append, Token.scan?_blank hblank] at h
    exact ih h ended
  | case3 d rest hblank hnumber digits =>
    rename_i ih
    rw [drop_length_takeWhile] at ih
    rw [List.cons_append, Token.scan?_number hnumber] at h
    obtain ⟨x, -, hrest⟩ := Option.bind_eq_some_iff.mp h
    obtain ⟨others, hothers, rfl⟩ := Option.map_eq_some_iff.mp hrest
    rw [List.dropWhile_append] at hothers
    split at hothers
    · -- the number goes on to the end of the text
      rw [List.dropWhile_cons_of_pos hc, List.dropWhile_nil, Token.scan?_nil] at hothers
      cases hothers
      rfl
    · exact ih hothers _
  | case4 d rest hblank hnumber ih =>
    rw [List.cons_append, Token.scan?_mark (by simpa using hblank) (by simpa using hnumber)] at h
    obtain ⟨token, -, hrest⟩ := Option.bind_eq_some_iff.mp h
    obtain ⟨others, hothers, rfl⟩ := Option.map_eq_some_iff.mp hrest
    exact ih hothers _

theorem operandBehind_of_operandTokens? {piece : Piece} (hpiece : piece.isOperand = true)
    (h : operandTokens? bindings text (front ++ [piece]) = some tokens) (ended : Bool) :
    operandBehind ended tokens = true := by
  induction front generalizing text tokens ended with
  | nil =>
    cases piece with
    | literal c => exact operandBehind_of_scan? hpiece h ended
    | reference id =>
      obtain ⟨before, x, after, -, -, hnil, rfl⟩ := exists_of_operandTokens? text [] h
      rw [operandTokens?, Token.scan?_nil] at hnil
      cases hnil
      rw [operandBehind_append]
      rfl
  | cons first rest ih =>
    cases first with
    | literal d => exact ih h ended
    | reference id =>
      obtain ⟨before, x, after, -, -, hafter, rfl⟩ := exists_of_operandTokens? text [] h
      rw [operandBehind_append, operandBehind_cons]
      exact ih hafter _

theorem allStandAlone_of_reduce? {v : Finite}
    (htokens : operandTokens? bindings [] pieces = some tokens) (hreduced : reduce? tokens = some v) :
    AllStandAlone bindings pieces := by
  rintro front id back rfl
  obtain ⟨before, x, after, hbefore, -, hafter, rfl⟩ := exists_of_operandTokens? [] front htokens
  obtain ⟨hends, hstarts⟩ := separated_of_reduce? hreduced
  refine ⟨?_, ?_, fun _ tokens htokens => ?_⟩
  · cases hlast : front.getLast? with
    | none => rfl
    | some piece =>
      obtain ⟨init, rfl⟩ := List.getLast?_eq_some_iff.mp hlast
      refine Bool.eq_false_iff.mpr fun hfuses => ?_
      rw [operandBehind_of_operandTokens? (Piece.isOperand_of_fuses hfuses).1 hbefore] at hends
      cases hends
  · cases back with
    | nil => rfl
    | cons piece rest =>
      refine Bool.eq_false_iff.mpr fun hfuses => ?_
      rw [startsOperand_of_operandTokens? (Piece.isOperand_of_fuses hfuses).2 hafter] at hstarts
      cases hstarts
  · rw [hbefore] at htokens
    cases htokens
    exact hends

/-- A formula that has a value when every reference is one operand has this value. If the numbers of
its references are not continued by what stands next to them, and no negative zero follows an
operand, then it has a value only if it has one when every reference is one operand. -/
theorem evaluate?_of_operandValue? (formula : String) (bindings : Bindings) :
    (∀ v, operandValue? formula bindings = some v → evaluate? formula bindings = some v) ∧
      ((∀ pieces, pieces? (bindings.ids.filter (· != "")) none formula.toList = some pieces →
        AllStandAlone bindings pieces) → evaluate? formula bindings = operandValue? formula bindings) := by
  have hspliced : ∀ pieces, AllStandAlone bindings pieces →
      ((piecesText? bindings pieces).bind Token.scan?).bind reduce? =
        (operandTokens? bindings [] pieces).bind reduce? := by
    intro pieces hall
    have hsame : SameReduction [] [] := fun _ => rfl
    have hreduced := reduce?_spliced [] pieces [] hall hsame (by simp) (by simp)
    simpa [Option.bind_assoc] using hreduced
  constructor
  · intro v hv
    obtain ⟨tokens, htokens, hreduced⟩ := Option.bind_eq_some_iff.mp hv
    obtain ⟨pieces, hpieces, hoperands⟩ := Option.bind_eq_some_iff.mp htokens
    have hvalue := hspliced pieces (allStandAlone_of_reduce? hoperands hreduced)
    rw [hoperands, Option.bind_some, hreduced] at hvalue
    rwa [evaluate?, resolve?, hpieces, Option.bind_some]
  · intro hall
    rw [evaluate?, resolve?, operandValue?]
    cases hpieces : pieces? (bindings.ids.filter (· != "")) none formula.toList with
    | none => rfl
    | some pieces => exact hspliced pieces (hall pieces hpieces)

theorem evaluate?_of_operandValue?_balance :
    let bindings : Bindings := [("Net", .integer 100), ("Balance", .integer (-5))]
    ∃ v, Binary64.finite v = 110 ∧ operandValue? "\x7bNet\x7d - Balance * 2" bindings = some v ∧
      evaluate? "\x7bNet\x7d - Balance * 2" bindings = some v := by
  intro bindings
  have hvalue : (operandValue? "\x7bNet\x7d - Balance * 2" bindings).map Binary64.finite =
      some 110 := by decide +kernel
  obtain ⟨v, hv, hfinite⟩ := Option.map_eq_some_iff.mp hvalue
  exact ⟨v, hfinite, hv, (evaluate?_of_operandValue? _ bindings).1 v hv⟩

/-- The digits of a number join those that stand before its reference, and the sign of the negative
zero becomes an operator behind an operand. In both formulas two operands stand side by side. -/
theorem evaluate?_ne_operandValue? :
    let five : Bindings := [("A", .integer 5)]
    let zero : Bindings := [("A", .decimal (.zero true))]
    (evaluate? "2\x7bA\x7d" five).map Binary64.finite = some 25 ∧
      operandValue? "2\x7bA\x7d" five = none ∧
      (evaluate? "2 \x7bA\x7d" zero).map Binary64.finite = some 2 ∧
      operandValue? "2 \x7bA\x7d" zero = none := by
  decide +kernel

end DerivedForm.Formula
