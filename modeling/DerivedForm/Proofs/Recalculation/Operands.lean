import DerivedForm.Proofs.Entry.Lookup
import DerivedForm.Proofs.Number.Exact
import DerivedForm.Proofs.Value.Equality

/-!
# What a computed field reads

A formula reads only its declared inputs if maps that are equal under these give equal results. The
computed value of such a field depends on nothing but the numbers that stand under its inputs, and it
is the same value also where the numbers are only equal, as the two zeros are.
-/

namespace DerivedForm

open DerivedForm.Number (Binary64 Finite)

def Bindings.operand? (m : Bindings) (id : String) : Option Value :=
  (m.get? id).filter fun v => v.number?.isSome

def Bindings.Alike (m n : Bindings) (id : String) : Prop :=
  Option.Rel (fun v w => v.equals w = true) (m.operand? id) (n.operand? id)

structure Bindings.Over (schema : Schema) (m : Bindings) : Prop where
  nodup : m.ids.Nodup
  contained : ∀ id ∈ m.ids, schema.contains id = true

/-- The formula gives equal results on any two maps over the schema that are equal under its declared
inputs. -/
def Derivation.ReadsOnlyInputs (schema : Schema) (derivation : Derivation) : Prop :=
  ∀ m n : Bindings, m.Over schema → n.Over schema →
    (∀ id ∈ derivation.inputs,
      Option.Rel (fun v w => v.equals w = true) (m.get? id) (n.get? id)) →
    Option.Rel (fun x y => x.same y = true)
      (Formula.evaluate? derivation.formula m) (Formula.evaluate? derivation.formula n)

def Schema.ReadsOnlyInputs (schema : Schema) : Prop :=
  ∀ d ∈ schema.definitions, ∀ derivation, d.derivation = some derivation →
    derivation.ReadsOnlyInputs schema

/-- The values give all declared inputs of the field a number and its formula a result, and this is
the result rounded and brought to the type of the field. -/
inductive FieldDefinition.Yields (d : FieldDefinition) (values : Bindings) : Value → Prop
  | intro {derivation : Derivation} {x : Finite} (hd : d.derivation = some derivation)
      (hinputs : ∀ id ∈ derivation.inputs, (values.number? id).isSome = true)
      (hx : Formula.evaluate? derivation.formula values = some x) :
      Yields d values
        (resultValue d.type ((Binary64.finite x).roundPlaces derivation.places))

namespace Bindings

variable {m n : Bindings} {id : String}

theorem isSome_operand? : (m.operand? id).isSome = (m.number? id).isSome := by
  unfold operand? number?
  cases m.get? id with
  | none => rfl
  | some v => cases hv : v.number? <;> simp [Option.filter, hv]

theorem operand?_of_isSome (h : (m.operand? id).isSome = true) : m.operand? id = m.get? id := by
  unfold operand? at h ⊢
  cases hv : m.get? id with
  | none => rfl
  | some v =>
    rw [hv] at h
    cases hn : v.number? <;> simp_all [Option.filter]

theorem number?_of_operand? {v : Value} (h : m.operand? id = some v) :
    v.number?.isSome = true := by
  unfold operand? at h
  obtain ⟨-, hv⟩ := Option.filter_eq_some_iff.mp h
  exact hv

theorem alike_of_operand?_eq (h : m.operand? id = n.operand? id) : m.Alike n id := by
  unfold Alike
  rw [← h]
  cases hv : m.operand? id with
  | none => exact .none
  | some v => exact .some (Value.equals_self_of_number? (number?_of_operand? hv))

theorem alike_of_get? (h : Option.Rel (fun v w => v.equals w = true) (m.get? id) (n.get? id)) :
    m.Alike n id := by
  unfold Alike operand?
  generalize m.get? id = v at h
  generalize n.get? id = w at h
  cases h with
  | none => exact .none
  | @some v w heq =>
    have hsome := Value.isSome_number?_of_equals heq
    cases hw : w.number? with
    | none => simp [Option.filter, hsome, hw]
    | some x => simp [Option.filter, hsome, hw, heq]

theorem Alike.isSome_number? (h : m.Alike n id) :
    (m.number? id).isSome = (n.number? id).isSome := by
  rw [← isSome_operand?, ← isSome_operand?]
  unfold Alike at h
  generalize m.operand? id = v at h
  generalize n.operand? id = w at h
  cases h <;> rfl

theorem Alike.rel_get? (h : m.Alike n id) (hnum : (m.number? id).isSome = true) :
    Option.Rel (fun v w => v.equals w = true) (m.get? id) (n.get? id) := by
  have hn : (n.number? id).isSome = true := h.isSome_number? ▸ hnum
  rw [← operand?_of_isSome (isSome_operand?.trans hnum),
    ← operand?_of_isSome (isSome_operand?.trans hn)]
  exact h

end Bindings

theorem resultValue_cases (type : FieldType) (x : Binary64) :
    (type = .integer ∧ ∃ n, resultValue type x = .integer n) ∨ resultValue type x = .decimal x := by
  unfold resultValue
  split
  · exact Or.inl ⟨rfl, _, rfl⟩
  · exact Or.inr rfl

namespace FieldDefinition

variable {d : FieldDefinition} {values : Bindings}

theorem compute?_eq_some_iff {v : Value} : d.compute? values = some v ↔ d.Yields values v := by
  unfold compute?
  constructor
  · intro h
    obtain ⟨derivation, hd, h⟩ := Option.bind_eq_some_iff.mp h
    split at h
    · rename_i hinputs
      obtain ⟨x, hx, rfl⟩ := Option.map_eq_some_iff.mp h
      exact .intro hd (List.all_eq_true.mp hinputs) hx
    · cases h
  · rintro ⟨hd, hinputs, hx⟩
    rw [hd, Option.bind_some, if_pos (List.all_eq_true.mpr hinputs), hx, Option.map_some]

/-- A computed value is an integer of an integer field, or a finite number other than the negative
zero. -/
theorem Yields.isNumber {v : Value} (h : d.Yields values v) :
    (d.type = .integer ∧ ∃ n, v = .integer n) ∨
      ∃ x : Finite, v = .decimal (.finite x) ∧ x.Normalized := by
  cases h with
  | @intro derivation x hd hinputs hx =>
    obtain ⟨y, hy, hnormalized⟩ := Binary64.roundPlaces_normalized x derivation.places
    rw [hy]
    exact (resultValue_cases d.type _).imp_right fun hvalue => ⟨y, hvalue, hnormalized⟩

theorem Yields.ne_nan {v : Value} (h : d.Yields values v) : v ≠ .decimal .nan := by
  rcases h.isNumber with ⟨-, n, rfl⟩ | ⟨x, rfl, -⟩ <;> simp

theorem inputs_of_derivation {derivation : Derivation} (h : d.derivation = some derivation) :
    d.inputs = derivation.inputs := by
  simp [inputs, h]

theorem compute?_congr {schema : Schema} (hreads : schema.ReadsOnlyInputs)
    (hd : d ∈ schema.definitions) {m n : Bindings} (hm : m.Over schema) (hn : n.Over schema)
    (h : ∀ id ∈ d.inputs, m.Alike n id) : d.compute? m = d.compute? n := by
  unfold compute?
  cases hderivation : d.derivation with
  | none => rfl
  | some derivation =>
    rw [inputs_of_derivation hderivation] at h
    have hall : derivation.inputs.all (fun id => (m.number? id).isSome) =
        derivation.inputs.all fun id => (n.number? id).isSome := by
      rw [Bool.eq_iff_iff, List.all_eq_true, List.all_eq_true]
      exact forall₂_congr fun id hid => by rw [(h id hid).isSome_number?]
    rw [Option.bind_some, Option.bind_some, ← hall]
    split
    · rename_i hinputs
      have hrel := hreads d hd derivation hderivation m n hm hn fun id hid =>
        (h id hid).rel_get? (List.all_eq_true.mp hinputs id hid)
      generalize Formula.evaluate? derivation.formula m = x at hrel
      generalize Formula.evaluate? derivation.formula n = y at hrel
      cases hrel with
      | none => rfl
      | some hsame => simp only [Option.map_some, Binary64.roundPlaces_eq_of_same hsame]
    · rfl

end FieldDefinition

namespace Entry

theorem withResult_value (e : Entry) (result : Option Value) :
    (e.withResult result).value = result.getD .null := by
  unfold withResult
  split
  · rfl
  · split
    · simpa using ‹e.value = .null›
    · rfl

theorem withResult_isValid_or (e : Entry) (result : Option Value) :
    (e.withResult result).isValid = true ∨ (e.withResult result).value = .null := by
  unfold withResult
  split
  · exact Or.inl rfl
  · split
    · exact Or.inr ‹e.value = .null›
    · exact Or.inl rfl

@[simp] theorem withResult_withResult (e : Entry) (result : Option Value) :
    (e.withResult result).withResult result = e.withResult result := by
  cases result with
  | some v => rfl
  | none =>
    have hvalue := withResult_value e none
    exact if_pos hvalue

end Entry

end DerivedForm
