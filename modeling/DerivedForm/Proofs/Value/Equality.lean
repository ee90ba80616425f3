import DerivedForm.Entry.Basic
import DerivedForm.Proofs.Number.Places

/-!
# Equality of values and entries

Only a NaN differs from itself, and only the two zeros are equal without being the same. Values that are
equal stand for equal numbers, so a value that can be an operand of a formula is equal to itself.
-/

namespace DerivedForm

open DerivedForm.Number (Binary64 Finite)

namespace Number

theorem Finite.same_refl (x : Finite) : x.same x = true := by simp [Finite.same]

theorem Finite.same_symm {x y : Finite} (h : x.same y = true) : y.same x = true := by
  simp_all [Finite.same]

theorem Binary64.same_of_ne_nan {a : Binary64} (h : a ≠ .nan) : a.same a = true := by
  cases a with
  | nan => exact absurd rfl h
  | infinite negative => simp [Binary64.same]
  | finite x => exact x.same_refl

theorem Binary64.same_symm {a b : Binary64} (h : a.same b = true) : b.same a = true := by
  cases a <;> cases b <;> simp_all [Binary64.same, Finite.same]

theorem Binary64.same_trans {a b c : Binary64} (h : a.same b = true) (h' : b.same c = true) :
    a.same c = true := by
  cases a <;> cases b <;> cases c <;> simp_all [Binary64.same, Finite.same]

end Number

namespace Value

theorem equals_self {v : Value} (h : v ≠ .decimal .nan) : v.equals v = true := by
  cases v with
  | decimal x =>
    have hx : x ≠ .nan := fun hx => h (congrArg Value.decimal hx)
    exact Binary64.same_of_ne_nan hx
  | null | text s | integer n | date d => simp [equals]

theorem equals_symm {v w : Value} (h : v.equals w = true) : w.equals v = true := by
  cases v <;> cases w <;> simp_all [equals]
  exact Binary64.same_symm h

theorem equals_comm (v w : Value) : v.equals w = w.equals v :=
  Bool.eq_iff_iff.mpr ⟨equals_symm, equals_symm⟩

theorem equals_trans {u v w : Value} (h : u.equals v = true) (h' : v.equals w = true) :
    u.equals w = true := by
  cases u <;> cases v <;> cases w <;> simp_all [equals]
  exact Binary64.same_trans h h'

theorem rel_number?_of_equals {v w : Value} (h : v.equals w = true) :
    Option.Rel (fun x y : Finite => x.same y = true) v.number? w.number? := by
  cases v <;> cases w <;> simp_all [equals, number?]
  · rename_i s
    cases (Binary64.read? (Text.trimmed s.toList)).bind Binary64.finite? with
    | none => exact .none
    | some x => exact .some x.same_refl
  · rename_i n
    cases (Binary64.ofInt n.toInt).finite? with
    | none => exact .none
    | some x => exact .some x.same_refl
  · rename_i x y
    cases x <;> cases y <;> simp_all [Binary64.same, Binary64.finite?]

theorem isSome_number?_of_equals {v w : Value} (h : v.equals w = true) :
    v.number?.isSome = w.number?.isSome := by
  have hrel := rel_number?_of_equals h
  generalize v.number? = x at hrel ⊢
  generalize w.number? = y at hrel ⊢
  cases hrel <;> rfl

theorem equals_self_of_number? {v : Value} (h : v.number?.isSome = true) :
    v.equals v = true := by
  refine equals_self ?_
  rintro rfl
  exact Bool.false_ne_true h

end Value

namespace Entry

/-- Equality of entries: the values are compared as numbers where they are numbers. -/
def Equal (e f : Entry) : Prop :=
  e.id = f.id ∧ e.value.equals f.value = true ∧ e.isValid = f.isValid ∧ e.error = f.error

theorem equal_self {e : Entry} (h : e.value ≠ .decimal .nan) : e.Equal e :=
  ⟨rfl, Value.equals_self h, rfl, rfl⟩

end Entry

end DerivedForm
