import DerivedForm.Proofs.Recalculation.Operands

/-!
# Formulas of one reference

A formula that starts with a reference in braces and goes on with literal text reads the referenced
field and nothing else, if no field of the schema has an id that the text could be mistaken for. Its
value is a function of the number that the field stands for. Of two numbers that are equal, only the
zeros are written differently, so that the two zeros alone have to be tried.
-/

namespace DerivedForm

open DerivedForm.Number (Binary64 Finite)

namespace Formula

def referenceThen (name rest : List Char) : String :=
  String.ofList ('\x7b' :: (name ++ '\x7d' :: rest))

def valueAt? (rest : List Char) (x : Finite) : Option Finite :=
  (Token.scan? (operandText x ++ rest)).bind reduce?

def zerosAlike (rest : List Char) : Bool :=
  match valueAt? rest (.zero false), valueAt? rest (.zero true) with
  | some x, some y => x.same y
  | none, none => true
  | _, _ => false

/-- A character that begins neither a reference nor one of the ids. -/
structure Literal (ids : List String) (c : Char) : Prop where
  notOpen : c ≠ '\x7b'
  notName : Text.startsName c = false
  notId : ∀ id ∈ ids, id.toList.head? ≠ some c

instance (ids : List String) : DecidablePred (Literal ids) := fun c =>
  decidable_of_iff
    (c ≠ '\x7b' ∧ Text.startsName c = false ∧ ∀ id ∈ ids, id.toList.head? ≠ some c)
    ⟨fun h => ⟨h.1, h.2.1, h.2.2⟩, fun h => ⟨h.notOpen, h.notName, h.notId⟩⟩

def allLiteral (ids : List String) (rest : List Char) : Bool :=
  rest.all fun c => decide (Literal ids c)

theorem Literal.startsWithId {ids : List String} {c : Char} (h : Literal ids c) {id : String}
    (hid : id ∈ ids) (hne : id ≠ "") (rest : List Char) : startsWithId (c :: rest) id = false := by
  have hhead := h.notId id hid
  unfold Formula.startsWithId
  cases hchars : id.toList with
  | nil => exact absurd (String.toList_eq_nil_iff.mp hchars) hne
  | cons first more =>
    rw [hchars, List.head?_cons] at hhead
    have hfirst : first ≠ c := fun heq => hhead (congrArg some heq)
    simp [hfirst]

theorem pieces?_literals {ids : List String} (hne : "" ∉ ids) {cs : List Char}
    (h : ∀ c ∈ cs, Literal ids c) (previous : Option Char) :
    pieces? ids previous cs = some (cs.map .literal) := by
  induction cs generalizing previous with
  | nil =>
    rw [pieces?]
    rfl
  | cons c rest ih =>
    have hc := h c List.mem_cons_self
    have hbare : bareId? ids previous (c :: rest) = none := by
      have hnone : ids.filter (startsWithId (c :: rest)) = [] := by
        rw [List.filter_eq_nil_iff]
        intro id hid
        rw [hc.startsWithId hid (fun heq => hne (heq ▸ hid))]
        exact Bool.false_ne_true
      unfold bareId?
      rw [hnone]
      split <;> rfl
    rw [pieces?, if_neg hc.notOpen, hbare]
    dsimp only
    rw [hc.notName, Bool.and_false, if_neg Bool.false_ne_true,
      ih (fun c' hc' => h c' (List.mem_cons_of_mem _ hc'))]
    rfl

theorem pieces?_referenceThen {ids : List String} (hne : "" ∉ ids) {name rest : List Char}
    (hname : '\x7d' ∉ name) (h : ∀ c ∈ rest, Literal ids c) :
    pieces? ids none (referenceThen name rest).toList =
      some (.reference (String.ofList (Text.trimmed name)) :: rest.map .literal) := by
  have htake : (name ++ '\x7d' :: rest).takeWhile (· != '\x7d') = name := by
    have hall : ∀ c ∈ name, (c != '\x7d') = true := by
      intro c hc
      rw [bne_iff_ne]
      rintro rfl
      exact hname hc
    rw [List.takeWhile_append_of_pos hall]
    simp
  have hdrop : (name ++ '\x7d' :: rest).drop (name.length + 1) = rest := by simp
  rw [referenceThen, String.toList_ofList, pieces?, if_pos rfl]
  dsimp only
  rw [htake, hdrop, if_pos (by simp), pieces?_literals hne h]
  rfl

theorem piecesText?_reference (m : Bindings) (id : String) (cs : List Char) :
    piecesText? m (.reference id :: cs.map .literal) =
      (m.number? id).map fun x => operandText x ++ cs := by
  have hliterals : (cs.map Piece.literal).mapM (Piece.text? m) = some (cs.map fun c => [c]) := by
    induction cs with
    | nil => rfl
    | cons c rest ih =>
      rw [List.map_cons, List.mapM_cons, ih]
      rfl
  have hflatten : (cs.map fun c => [c]).flatten = cs := List.flatMap_singleton' cs
  have hreference : Piece.text? m (.reference id) = (m.number? id).map operandText := rfl
  unfold piecesText?
  rw [List.mapM_cons, hliterals, hreference]
  cases m.number? id with
  | none => rfl
  | some x => simp [hflatten]

/-- The value of such a formula depends on the number of the referenced field alone. -/
theorem evaluate?_referenceThen {m : Bindings} {name rest : List Char} (hname : '\x7d' ∉ name)
    (h : ∀ c ∈ rest, Literal m.ids c) :
    evaluate? (referenceThen name rest) m =
      (m.number? (String.ofList (Text.trimmed name))).bind (valueAt? rest) := by
  have hids : ∀ c ∈ rest, Literal (m.ids.filter (· != "")) c := by
    intro c hc
    refine ⟨(h c hc).notOpen, (h c hc).notName, fun id hid => ?_⟩
    exact (h c hc).notId id (List.mem_of_mem_filter hid)
  have hne : "" ∉ m.ids.filter (· != "") := by simp
  unfold evaluate? resolve?
  rw [pieces?_referenceThen hne hname hids, Option.bind_some, piecesText?_reference]
  cases m.number? (String.ofList (Text.trimmed name)) <;> rfl

theorem valueAt?_rel {rest : List Char} (hzero : zerosAlike rest = true) {x y : Finite}
    (h : x.same y = true) :
    Option.Rel (fun x y : Finite => x.same y = true) (valueAt? rest x) (valueAt? rest y) := by
  have hself : ∀ r : Option Finite, Option.Rel (fun x y : Finite => x.same y = true) r r := by
    intro r
    cases r with
    | none => exact .none
    | some x => exact .some x.same_refl
  rcases Finite.eq_or_zero_of_same h with rfl | ⟨hx, hy⟩
  · exact hself _
  · rw [Finite.eq_zero_of_magnitude hx, Finite.eq_zero_of_magnitude hy]
    unfold zerosAlike at hzero
    have hdiffer : Option.Rel (fun x y : Finite => x.same y = true)
        (valueAt? rest (.zero false)) (valueAt? rest (.zero true)) ∧
        Option.Rel (fun x y : Finite => x.same y = true)
          (valueAt? rest (.zero true)) (valueAt? rest (.zero false)) := by
      generalize valueAt? rest (.zero false) = r at hzero ⊢
      generalize valueAt? rest (.zero true) = t at hzero ⊢
      cases r <;> cases t
      · exact ⟨.none, .none⟩
      · cases hzero
      · cases hzero
      · exact ⟨.some hzero, .some (Finite.same_symm hzero)⟩
    cases x.negative <;> cases y.negative
    · exact hself _
    · exact hdiffer.1
    · exact hdiffer.2
    · exact hself _

end Formula

def Derivation.ofReference (name rest : List Char) (overridable : Bool) : Derivation :=
  ⟨Formula.referenceThen name rest, [String.ofList (Text.trimmed name)], 2, overridable⟩

theorem Derivation.readsOnlyInputs_ofReference {schema : Schema} {name rest : List Char}
    (overridable : Bool) (hname : '\x7d' ∉ name)
    (hrest : Formula.allLiteral (schema.definitions.map FieldDefinition.id) rest = true)
    (hzero : Formula.zerosAlike rest = true) :
    (ofReference name rest overridable).ReadsOnlyInputs schema := by
  intro m n hm hn hequal
  have hliteral : ∀ {m : Bindings}, m.Over schema → ∀ c ∈ rest, Formula.Literal m.ids c := by
    intro m hm c hc
    have hliteral := of_decide_eq_true (List.all_eq_true.mp hrest c hc)
    refine ⟨hliteral.notOpen, hliteral.notName, fun id hid => ?_⟩
    exact hliteral.notId id ((schema.contains_iff id).mp (hm.contained id hid))
  have hinput := hequal (String.ofList (Text.trimmed name)) List.mem_cons_self
  change Option.Rel _ (Formula.evaluate? (Formula.referenceThen name rest) m)
    (Formula.evaluate? (Formula.referenceThen name rest) n)
  rw [Formula.evaluate?_referenceThen hname (hliteral hm),
    Formula.evaluate?_referenceThen hname (hliteral hn)]
  unfold Bindings.number?
  generalize m.get? _ = v at hinput ⊢
  generalize n.get? _ = w at hinput ⊢
  cases hinput with
  | none => exact .none
  | @some v w hvalues =>
    have hnumbers := Value.rel_number?_of_equals hvalues
    rw [Option.bind_some, Option.bind_some]
    generalize v.number? = x at hnumbers ⊢
    generalize w.number? = y at hnumbers ⊢
    cases hnumbers with
    | none => exact .none
    | some hsame => exact Formula.valueAt?_rel hzero hsame

def invoiceFields : List FieldDefinition :=
  [⟨"note", "Note", .text, false, false, none⟩,
    ⟨"net", "Net price", .decimal, true, false, none⟩,
    ⟨"total", "With postage", .decimal, false, false,
      some (.ofReference ['g', 'r', 'o', 's', 's'] [' ', '+', ' ', '5'] false)⟩,
    ⟨"gross", "With tax", .decimal, false, false,
      some (.ofReference ['n', 'e', 't'] [' ', '*', ' ', '1', '.', '2'] true)⟩]

def loopFields : List FieldDefinition :=
  [⟨"debit", "Debit", .decimal, false, false,
      some (.ofReference ['c', 'r', 'e', 'd', 'i', 't'] [' ', '*', ' ', '2'] false)⟩,
    ⟨"credit", "Credit", .decimal, false, false,
      some (.ofReference ['d', 'e', 'b', 'i', 't'] [' ', '*', ' ', '2'] false)⟩]

namespace Schema

def invoice : Schema := ⟨invoiceFields, by decide⟩

def loopedInvoice : Schema := ⟨invoiceFields ++ loopFields, by decide⟩

def quotation : Schema := ⟨invoiceFields.map fun d => { d with required := false }, by decide⟩

theorem readsOnlyInputs_invoice : invoice.ReadsOnlyInputs := by
  intro d hd derivation hderivation
  have hcases : derivation = .ofReference ['g', 'r', 'o', 's', 's'] [' ', '+', ' ', '5'] false ∨
      derivation = .ofReference ['n', 'e', 't'] [' ', '*', ' ', '1', '.', '2'] true := by
    simp only [invoice, invoiceFields, List.mem_cons, List.not_mem_nil, or_false] at hd
    rcases hd with rfl | rfl | rfl | rfl <;> simp_all
  rcases hcases with rfl | rfl
  · exact Derivation.readsOnlyInputs_ofReference _ (by decide) (by decide) (by decide +kernel)
  · exact Derivation.readsOnlyInputs_ofReference _ (by decide) (by decide) (by decide +kernel)

theorem ReadsOnlyInputs.of_derivations {schema other : Schema} (h : schema.ReadsOnlyInputs)
    (hids : ∀ id, other.contains id = true → schema.contains id = true)
    (hderivations : ∀ d ∈ other.definitions, ∃ d' ∈ schema.definitions,
      d'.derivation = d.derivation) : other.ReadsOnlyInputs := by
  intro d hd derivation hderivation m n hm hn
  obtain ⟨d', hd', heq⟩ := hderivations d hd
  exact h d' hd' derivation (heq.trans hderivation) m n
    ⟨hm.nodup, fun id hid => hids id (hm.contained id hid)⟩
    ⟨hn.nodup, fun id hid => hids id (hn.contained id hid)⟩

theorem readsOnlyInputs_quotation : quotation.ReadsOnlyInputs := by
  apply readsOnlyInputs_invoice.of_derivations
  · intro id hid
    have hsame : quotation.definitions.map FieldDefinition.id =
        invoice.definitions.map FieldDefinition.id := by decide
    rwa [contains_iff, ← hsame, ← contains_iff]
  · intro d hd
    obtain ⟨d', hd', rfl⟩ := List.mem_map.mp hd
    exact ⟨d', hd', rfl⟩

theorem readsOnlyInputs_loopedInvoice : loopedInvoice.ReadsOnlyInputs := by
  intro d hd derivation hderivation
  have hcases : derivation = .ofReference ['g', 'r', 'o', 's', 's'] [' ', '+', ' ', '5'] false ∨
      derivation = .ofReference ['n', 'e', 't'] [' ', '*', ' ', '1', '.', '2'] true ∨
      derivation = .ofReference ['c', 'r', 'e', 'd', 'i', 't'] [' ', '*', ' ', '2'] false ∨
      derivation = .ofReference ['d', 'e', 'b', 'i', 't'] [' ', '*', ' ', '2'] false := by
    simp only [loopedInvoice, invoiceFields, loopFields, List.cons_append, List.nil_append,
      List.mem_cons, List.not_mem_nil, or_false] at hd
    rcases hd with rfl | rfl | rfl | rfl | rfl | rfl <;> simp_all
  rcases hcases with rfl | rfl | rfl | rfl
  · exact Derivation.readsOnlyInputs_ofReference _ (by decide) (by decide) (by decide +kernel)
  · exact Derivation.readsOnlyInputs_ofReference _ (by decide) (by decide) (by decide +kernel)
  · exact Derivation.readsOnlyInputs_ofReference _ (by decide) (by decide) (by decide +kernel)
  · exact Derivation.readsOnlyInputs_ofReference _ (by decide) (by decide) (by decide +kernel)

end Schema

end DerivedForm
