import DerivedForm.Form.Session
import DerivedForm.Proofs.Form.Invariants

/-!
# The payload of an unchanged form

Changes are counted by a comparison of its own, which takes numbers for equal if they are the same as
binary64 numbers. Where the integers are held exactly by that format, values that agree are also sent as
the same: of two numbers of equal size only the zeros differ, and only a decimal field ever sends the
negative one. Beyond `2 ^ 53` two integers may agree and be sent as different numbers.
-/

namespace DerivedForm

open DerivedForm.Number (Binary64 Finite unitsPerOne twoPow)

namespace Wire

def units? : Wire → Option Int
  | .integer n => some (n.toInt * unitsPerOne)
  | .decimal x => some x.units
  | .null | .text _ => none

/-- The same is sent: equal numbers, or otherwise equal wire values. -/
def Same (w w' : Wire) : Prop := w = w' ∨ ∃ u, w.units? = some u ∧ w'.units? = some u

theorem Same.refl (w : Wire) : w.Same w := Or.inl rfl

theorem ofWhole_of_units {x : Finite} {n : Int64} (h : x.units = n.toInt * unitsPerOne) :
    ofWhole x = .integer n := by
  obtain ⟨hwhole, htruncate⟩ := Finite.whole_of_units h
  simp [ofWhole, hwhole, Finite.toInt64Clamped, htruncate]

end Wire

namespace Value

/-- The value is no integer, or an integer that the binary64 format holds exactly. -/
def IsExact : Value → Prop
  | .integer n => (Binary64.ofInt n.toInt).finite?.map Finite.units = some (n.toInt * unitsPerOne)
  | _ => True

instance : DecidablePred IsExact := fun v => by
  cases v <;> unfold IsExact <;> infer_instance

theorem isExact_of_le {n : Int64} (h : n.toInt.natAbs ≤ twoPow 53) : (Value.integer n).IsExact := by
  obtain ⟨x, hx, hunits⟩ := Binary64.units_ofInt h
  change (Binary64.ofInt n.toInt).finite?.map Finite.units = some (n.toInt * unitsPerOne)
  rw [hx]
  exact congrArg some hunits

/-- What the entry of a field of the type can hold: refused input as text, an accepted value, or a
computed one. -/
inductive Held (type : FieldType) : Value → Prop
  | null : Held type .null
  | text (s : String) : Held type (.text s)
  | integer (n : Int64) (h : type = .integer) : Held type (.integer n)
  | decimal (x : Finite) (h : type = .decimal ∨ x.Normalized) : Held type (.decimal (.finite x))
  | date (d : Calendar.Date) (h : type = .date) : Held type (.date d)

theorem HasType.held {type : FieldType} {v : Value} (h : HasType type v) : Held type v := by
  cases h with
  | text h => exact .text _
  | integer n => exact .integer n rfl
  | decimal x => exact .decimal x (Or.inl rfl)
  | date d => exact .date d rfl

theorem number?_of_isExact {n : Int64} (h : (Value.integer n).IsExact) :
    ∃ x, (Value.integer n).number? = some x ∧ x.units = n.toInt * unitsPerOne :=
  Option.map_eq_some_iff.mp h

variable {type : FieldType} {v w : Value}

theorem same_of_agrees_numbers {x y : Finite} (hv : v.number? = some x) (hw : w.number? = some y)
    (h : v.sameNumber w = true) : x.same y = true := by
  rw [sameNumber, hv, hw] at h
  exact h

theorem wire_integer_decimal {n : Int64} {x : Finite} (hexact : (Value.integer n).IsExact)
    (h : ((Value.integer n).sameNumber (.decimal (.finite x)) = true) ∨
      ((Value.decimal (.finite x)).sameNumber (.integer n) = true)) :
    (Value.decimal (.finite x)).wire .integer = .integer n := by
  obtain ⟨y, hy, hunits⟩ := number?_of_isExact hexact
  have hsame : x.units = y.units := by
    rcases h with h | h
    · exact (Finite.units_eq_of_same (same_of_agrees_numbers hy rfl h)).symm
    · exact Finite.units_eq_of_same (same_of_agrees_numbers rfl hy h)
  exact Wire.ofWhole_of_units (hsame.trans hunits)

theorem wire_decimal_decimal {x y : Finite} (hx : type = .decimal ∨ x.Normalized)
    (hy : type = .decimal ∨ y.Normalized) (h : x.same y = true) :
    ((Value.decimal (.finite x)).wire type).Same ((Value.decimal (.finite y)).wire type) := by
  by_cases htype : type = .decimal
  · subst htype
    exact Or.inr ⟨x.units, rfl, congrArg some (Finite.units_eq_of_same h).symm⟩
  · rw [Finite.eq_of_same_of_normalized (hx.resolve_left htype) (hy.resolve_left htype) h]
    exact Wire.Same.refl _

theorem integer_eq_of_isExact {m n : Int64} (hm : (Value.integer m).IsExact)
    (hn : (Value.integer n).IsExact) (h : (Value.integer m).sameNumber (.integer n) = true) :
    m = n := by
  obtain ⟨x, hx, hxunits⟩ := number?_of_isExact hm
  obtain ⟨y, hy, hyunits⟩ := number?_of_isExact hn
  have hunits := Finite.units_eq_of_same (same_of_agrees_numbers hx hy h)
  rw [hxunits, hyunits] at hunits
  have hunit : (unitsPerOne : Int) ≠ 0 := by exact_mod_cast Number.unitsPerOne_pos.ne'
  exact Int64.toInt_inj.mp (Int.eq_of_mul_eq_mul_right hunit hunits)

/-- Values that agree, and are held exactly, are sent as the same. -/
theorem Held.wire_same (hv : Held type v) (hw : Held type w) (h : v.agrees w = true)
    (hvexact : v.IsExact) (hwexact : w.IsExact) : (v.wire type).Same (w.wire type) := by
  cases hvempty : v.isEmpty with
  | true =>
    cases hwempty : w.isEmpty with
    | true => simp [wire, hvempty, hwempty, Wire.Same.refl]
    | false => simp [agrees, hvempty, hwempty] at h
  | false =>
    cases hwempty : w.isEmpty with
    | true => simp [agrees, hvempty, hwempty] at h
    | false =>
      simp only [agrees, hvempty, hwempty, Bool.and_self, Bool.or_self, Bool.false_eq_true,
        if_false] at h
      cases hv with
      | null => cases hvempty
      | text s =>
        cases hw with
        | text t => exact Or.inl (by rw [beq_iff_eq.mp h])
        | null | integer | decimal | date => cases h
      | date d hd =>
        cases hw with
        | date e he => exact Or.inl (by rw [beq_iff_eq.mp h])
        | null | integer | decimal | text => cases h
      | integer m hm =>
        subst hm
        cases hw with
        | integer n hn => exact Or.inl (by rw [integer_eq_of_isExact hvexact hwexact h])
        | decimal y hy => exact Or.inl (wire_integer_decimal hvexact (Or.inl h)).symm
        | null | text | date => cases h
      | decimal x hx =>
        cases hw with
        | integer n hn =>
          subst hn
          exact Or.inl (wire_integer_decimal hwexact (Or.inr h))
        | decimal y hy => exact wire_decimal_decimal hx hy h
        | null | text | date => cases h

end Value

namespace Entry

def Holds (d : FieldDefinition) (e : Entry) : Prop := e.value.Held d.type

theorem holds_validate (d : FieldDefinition) (input : Value) : Holds d (validate d input) := by
  unfold Holds
  rcases validate_cases d input with
    ⟨-, heq⟩ | ⟨v, hempty, hcoerce, heq⟩ | ⟨error, -, -, heq⟩ <;> rw [heq]
  · rw [empty_value]
    exact .null
  · exact (Value.hasType_coerce hempty hcoerce).held
  · exact .text _

theorem invariant_holds : Entry.Invariant Holds where
  validate := holds_validate
  withResult := by
    intro d e values _ _
    unfold Holds
    rw [withResult_value]
    cases hcompute : d.compute? values with
    | none => exact .null
    | some v =>
      rcases (FieldDefinition.compute?_eq_some_iff.mp hcompute).isNumber with
        ⟨htype, n, rfl⟩ | ⟨x, rfl, hx⟩
      · exact .integer n htype
      · exact .decimal x (Or.inr hx)

def withValue (e : Entry) (value : Value) : Entry := { e with value }

end Entry

namespace Payload

def SameMember (m m' : String × Wire) : Prop := m.1 = m'.1 ∧ m.2.Same m'.2

theorem insert_sameMember {key : String} {w w' : Wire} {payload payload' : Payload}
    (hw : w.Same w') (h : List.Forall₂ SameMember payload payload') :
    List.Forall₂ SameMember (payload.insert key w) (payload'.insert key w') := by
  induction h with
  | nil => exact .cons ⟨rfl, hw⟩ .nil
  | @cons m m' rest rest' hm hrest ih =>
    obtain ⟨k, v⟩ := m
    obtain ⟨k', v'⟩ := m'
    obtain ⟨rfl, hv⟩ : k = k' ∧ v.Same v' := hm
    unfold Json.Entries.insert
    split
    · exact .cons ⟨rfl, hw⟩ hrest
    · split
      · exact .cons ⟨rfl, hw⟩ (.cons ⟨rfl, hv⟩ hrest)
      · exact .cons ⟨rfl, hv⟩ ih

theorem ofList_sameMember {members members' : List (String × Wire)}
    (h : List.Forall₂ SameMember members members') :
    List.Forall₂ SameMember (Json.Entries.ofList members) (Json.Entries.ofList members') := by
  suffices hfold : ∀ payload payload' : Payload, List.Forall₂ SameMember payload payload' →
      List.Forall₂ SameMember
        (members.foldl (fun entries (key, w) => Json.Entries.insert key w entries) payload)
        (members'.foldl (fun entries (key, w) => Json.Entries.insert key w entries) payload') from
    hfold [] [] .nil
  induction h with
  | nil => exact fun _ _ h => h
  | @cons m m' rest rest' hm hrest ih =>
    intro payload payload' hpayload
    obtain ⟨k, v⟩ := m
    obtain ⟨k', v'⟩ := m'
    obtain ⟨rfl, hv⟩ : k = k' ∧ v.Same v' := hm
    exact ih _ _ (insert_sameMember hv hpayload)

variable {schema : Schema}

theorem members_same {entries old : List Entry} (hids : entries.map Entry.id = old.map Entry.id)
    (hentries : ∀ e ∈ entries, ∀ d, schema.get? e.id = some d → Entry.Holds d e)
    (hold : ∀ e ∈ old, ∀ d, schema.get? e.id = some d → Entry.Holds d e)
    (hagrees : Entry.differ entries (old.map Entry.value) = false)
    (hexact : ∀ pair ∈ entries.zip (old.map Entry.value),
      pair.1.value = pair.2 ∨ pair.1.value.IsExact ∧ pair.2.IsExact) :
    List.Forall₂ SameMember (entries.filterMap (member? schema))
      ((entries.zipWith Entry.withValue (old.map Entry.value)).filterMap (member? schema)) := by
  induction entries generalizing old with
  | nil => exact .nil
  | cons e rest ih =>
    cases old with
    | nil => cases hids
    | cons f more =>
      obtain ⟨hid, hrest⟩ := List.cons.inj hids
      obtain ⟨he, hentries⟩ := List.forall_mem_cons.mp hentries
      obtain ⟨hf, hold⟩ := List.forall_mem_cons.mp hold
      obtain ⟨hfirst, hexact⟩ := List.forall_mem_cons.mp hexact
      simp only [Entry.differ, List.map_cons, List.zip_cons_cons, List.any_cons,
        Bool.or_eq_false_iff, Bool.not_eq_false'] at hagrees
      obtain ⟨hagree, hagrees⟩ := hagrees
      have htail := ih hrest hentries hold hagrees hexact
      rw [List.map_cons, List.zipWith_cons_cons, List.filterMap_cons, List.filterMap_cons]
      cases hd : schema.get? e.id with
      | none => simpa [member?, Entry.withValue, hd] using htail
      | some d =>
        have hsame : (e.value.wire d.type).Same (f.value.wire d.type) := by
          rcases hfirst with heq | ⟨hexact₁, hexact₂⟩
          · rw [show e.value = f.value from heq]
            exact Wire.Same.refl _
          · exact Value.Held.wire_same (he d hd) (hf d (hid ▸ hd)) hagree hexact₁ hexact₂
        simp only [member?, Entry.withValue, hd, Option.map_some]
        exact .cons ⟨rfl, hsame⟩ htail

end Payload

namespace Form

variable {schema : Schema} {options : Options} {form : Form}

def snapshotEntries (form : Form) : List Entry :=
  form.entries.zipWith Entry.withValue form.snapshot

/-- A form that counts no changes would send what it would have sent when the snapshot was taken, where
numbers are compared exactly, unless an integer has changed from or to one that the binary64 format
does not hold exactly. -/
theorem Reached.payload_unchanged (h : form.Reached schema options)
    (hunchanged : form.hasChanges = false)
    (hexact : ∀ pair ∈ form.entries.zip form.snapshot,
      pair.1.value = pair.2 ∨ pair.1.value.IsExact ∧ pair.2.IsExact) :
    List.Forall₂ Payload.SameMember form.payload
      (Payload.ofEntries form.schema form.snapshotEntries) := by
  obtain ⟨old, hids, hold, hsnapshot⟩ := h.remembers Entry.invariant_holds
  have hform := h.wellFormed
  have hheld : ∀ {entries : List Entry}, schema.Each Entry.Holds entries →
      entries.map Entry.id = schema.definitions.map FieldDefinition.id →
        ∀ e ∈ entries, ∀ d, form.schema.get? e.id = some d → Entry.Holds d e := by
    intro entries heach hids e he d hd
    obtain ⟨d', -, hd', hQ⟩ := heach.of_mem hids he
    rw [hform.schema_eq, hd'] at hd
    exact Option.some.inj hd ▸ hQ
  rw [h.coherent.hasChanges, hsnapshot] at hunchanged
  rw [hsnapshot] at hexact
  unfold payload Payload.ofEntries snapshotEntries
  rw [hsnapshot]
  exact Payload.ofList_sameMember (Payload.members_same (hform.fits.ids.trans hids.symm)
    (hheld (h.each Entry.invariant_holds) hform.fits.ids) (hheld hold hids) hunchanged hexact)

theorem Reached.payload_unchanged_quotation :
    let form := ((Session.mk (create .quotation [("net", .text "0")] {}) .empty).run
      [.edit "net" (.text "7"), .edit "net" (.text "-0")]).2.form
    form.hasChanges = false ∧ form.snapshotEntries ≠ form.entries ∧
      List.Forall₂ Payload.SameMember form.payload
        (Payload.ofEntries form.schema form.snapshotEntries) := by
  have h : ((Session.mk (create .quotation [("net", .text "0")] {}) .empty).run
      [.edit "net" (.text "7"), .edit "net" (.text "-0")]).2.form.Reached .quotation {} :=
    ⟨_, _, _, rfl⟩
  exact ⟨by decide +kernel, by decide +kernel,
    h.payload_unchanged (by decide +kernel) (by decide +kernel)⟩

end Form

def Schema.counter : Schema := ⟨[⟨"count", "Count", .integer, false, false, none⟩], by decide⟩

namespace Form

/-- The first integer that the binary64 format does not hold: after the one before it, it counts as no
change, and is sent all the same. -/
theorem Reached.payload_changed_counter :
    let form := ((Session.mk (create .counter [("count", .integer 9007199254740992)] {}) .empty).run
      [.edit "count" (.integer 9007199254740993)]).2.form
    form.Reached .counter {} ∧ form.hasChanges = false ∧
      form.payload = [("count", .integer 9007199254740993)] ∧
      Payload.ofEntries form.schema form.snapshotEntries =
        [("count", .integer 9007199254740992)] ∧
      ¬ Wire.Same (.integer 9007199254740993) (.integer 9007199254740992) := by
  refine ⟨⟨_, _, _, rfl⟩, by decide +kernel, by decide +kernel, by decide +kernel, ?_⟩
  rintro (hsame | ⟨u, hu, hu'⟩)
  · revert hsame
    decide
  · rw [← hu'] at hu
    revert hu
    decide +kernel

end Form

end DerivedForm
