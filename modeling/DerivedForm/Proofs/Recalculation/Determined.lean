import DerivedForm.Proofs.Entry.Regular
import DerivedForm.Proofs.Recalculation.Settled

/-!
# What the computed fields are determined by

A form keeps one regular entry for every field of its schema. Without cycles a settled list of this
kind is determined by the entries that no pass touches: those of the plain fields and of the field that
is held. The proof goes up in the order of computation.
-/

namespace DerivedForm

/-- A property of the entries of a field that validation establishes and computation keeps. -/
structure Entry.Invariant (Q : FieldDefinition → Entry → Prop) : Prop where
  validate : ∀ d input, Q d (Entry.validate d input)
  withResult : ∀ d e values, d.isDerived = true → Q d e → Q d (e.withResult (d.compute? values))

theorem Entry.invariant_regular : Entry.Invariant Entry.Regular :=
  ⟨regular_validate, fun _ _ _ hd h => h.withResult hd⟩

namespace Schema

def Each (schema : Schema) (Q : FieldDefinition → Entry → Prop) (entries : List Entry) : Prop :=
  ∀ d ∈ schema.definitions, ∀ e, Entry.find? entries d.id = some e → Q d e

structure Fits (schema : Schema) (entries : List Entry) : Prop where
  ids : entries.map Entry.id = schema.definitions.map FieldDefinition.id
  regular : ∀ d ∈ schema.definitions, ∀ e, Entry.find? entries d.id = some e → Entry.Regular d e

/-- No pass computes the field: it is plain, or it is held. -/
def IsSource (schema : Schema) (focused : Option String) (id : String) : Prop :=
  ∀ d ∈ schema.derived, d.id = id → d.isHeld focused = true

variable {schema : Schema} {order : VisitOrder} {focused : Option String} {d : FieldDefinition}
  {entries others : List Entry} {Q : FieldDefinition → Entry → Prop}

theorem Fits.lists (h : schema.Fits entries) : schema.Lists entries where
  nodup := h.ids ▸ schema.distinct
  contained := by
    intro e he
    rw [contains_iff, ← h.ids]
    exact List.mem_map_of_mem he

theorem Fits.exists_find? (h : schema.Fits entries) (hd : d ∈ schema.definitions) :
    ∃ e, Entry.find? entries d.id = some e ∧ Entry.Regular d e := by
  have hsome : (Entry.find? entries d.id).isSome = true := by
    rw [Entry.find?_isSome_iff, h.ids]
    exact List.mem_map_of_mem hd
  obtain ⟨e, he⟩ := Option.isSome_iff_exists.mp hsome
  exact ⟨e, he, h.regular d hd e he⟩

theorem Fits.ne_nan (h : schema.Fits entries) {e : Entry} (he : e ∈ entries) :
    e.value ≠ .decimal .nan := by
  have hid : e.id ∈ schema.definitions.map FieldDefinition.id := h.ids ▸ List.mem_map_of_mem he
  obtain ⟨d, hd, hid⟩ := List.mem_map.mp hid
  have hfind := Entry.find?_of_mem h.lists.nodup he
  exact (h.regular d hd e (hid ▸ hfind)).ne_nan

theorem isSource_or (schema : Schema) (focused : Option String) (id : String) :
    schema.IsSource focused id ∨ ∃ d ∈ schema.derived, d.id = id ∧ d.isHeld focused = false := by
  by_cases h : ∃ d ∈ schema.derived, d.id = id ∧ d.isHeld focused = false
  · exact Or.inr h
  · left
    intro d hd hid
    rw [← Bool.not_eq_false]
    exact fun hheld => h ⟨d, hd, hid, hheld⟩

theorem isSource_none {id : String} :
    schema.IsSource none id ↔ ∀ d ∈ schema.derived, d.id ≠ id := by
  simp [IsSource, FieldDefinition.isHeld]

theorem IsSource.isDerived_eq_false (h : schema.IsSource none d.id) (hd : d ∈ schema.definitions) :
    d.isDerived = false := by
  rw [← Bool.not_eq_true]
  exact fun hderived => isSource_none.mp h d (mem_derived.mpr ⟨hd, hderived⟩) rfl

theorem IsSource.mono {id : String} (h : schema.IsSource none id) (focused : Option String) :
    schema.IsSource focused id :=
  fun d hd hid => absurd hid (isSource_none.mp h d hd)

theorem isSource_some (hd : d ∈ schema.definitions) (hoverridable : d.isOverridable = true) :
    schema.IsSource (some d.id) d.id := by
  intro d' hd' hid
  obtain rfl : d' = d := eq_of_id_eq (mem_derived.mp hd').1 hd hid
  simp [FieldDefinition.isHeld, hoverridable]

theorem isSource_some_cases {id held : String} (h : schema.IsSource (some held) id) :
    id = held ∨ schema.IsSource none id := by
  by_cases hid : id = held
  · exact Or.inl hid
  · right
    rw [isSource_none]
    rintro d hd rfl
    have hheld := h d hd rfl
    simp only [FieldDefinition.isHeld, Bool.and_eq_true, beq_iff_eq, Option.some.injEq] at hheld
    exact hid hheld.2.symm

theorem find?_recalculate {id : String} (hsource : schema.IsSource focused id)
    (order : VisitOrder) (maxPasses : Nat) (entries : List Entry) :
    Entry.find? (schema.recalculate order focused maxPasses entries).entries id =
      Entry.find? entries id :=
  recalculate_induction (P := fun others => Entry.find? others id = Entry.find? entries id)
    (fun _ h => (find?_pass hsource).trans h) maxPasses (find?_pass hsource)

theorem Fits.find?_eq_none (h : schema.Fits entries) {id : String}
    (hid : id ∉ schema.definitions.map FieldDefinition.id) : Entry.find? entries id = none := by
  rwa [← Option.not_isSome_iff_eq_none, Entry.find?_isSome_iff, h.ids]

theorem Fits.find?_eq_of_plain (h : schema.Fits entries) (hothers : schema.Fits others)
    (hplain : ∀ d ∈ schema.definitions, d.isDerived = false →
      Entry.find? entries d.id = Entry.find? others d.id) {id : String}
    (hsource : schema.IsSource none id) : Entry.find? entries id = Entry.find? others id := by
  by_cases hid : id ∈ schema.definitions.map FieldDefinition.id
  · obtain ⟨d, hd, rfl⟩ := List.mem_map.mp hid
    exact hplain d hd (hsource.isDerived_eq_false hd)
  · rw [h.find?_eq_none hid, hothers.find?_eq_none hid]

theorem isSource_of_plain (hd : d ∈ schema.definitions) (hplain : d.isDerived = false)
    (focused : Option String) : schema.IsSource focused d.id := by
  intro d' hd' hid
  obtain rfl : d' = d := eq_of_id_eq (mem_derived.mp hd').1 hd hid
  rw [(mem_derived.mp hd').2] at hplain
  cases hplain

theorem Each.pass (hQ : Entry.Invariant Q) (hlists : schema.Lists entries)
    (h : schema.Each Q entries) (order : VisitOrder) (focused : Option String) :
    schema.Each Q (schema.pass order focused entries).entries := by
  intro d hd e he
  rcases isSource_or schema focused d.id with hsource | ⟨d', hd', hid, hheld⟩
  · rw [find?_pass hsource] at he
    exact h d hd e he
  · obtain rfl : d' = d := eq_of_id_eq (mem_derived.mp hd').1 hd hid
    obtain ⟨s, -, -, hfind, -⟩ := exists_visit hlists order hd' hheld
    rw [hfind] at he
    obtain ⟨e₀, he₀, rfl⟩ := Option.map_eq_some_iff.mp he
    exact hQ.withResult d' e₀ _ (mem_derived.mp hd').2 (h d' hd e₀ he₀)

theorem Each.recalculate (hQ : Entry.Invariant Q) (hlists : schema.Lists entries)
    (h : schema.Each Q entries) (order : VisitOrder) (focused : Option String)
    (maxPasses : Nat) :
    schema.Each Q (schema.recalculate order focused maxPasses entries).entries :=
  (recalculate_induction (P := fun entries => schema.Lists entries ∧ schema.Each Q entries)
    (fun _ h => ⟨h.1.pass _ _, h.2.pass hQ h.1 _ _⟩) maxPasses
    ⟨hlists.pass _ _, h.pass hQ hlists _ _⟩).2

theorem Fits.pass (h : schema.Fits entries) (order : VisitOrder) (focused : Option String) :
    schema.Fits (schema.pass order focused entries).entries where
  ids := (map_id_pass _ _ _ _).trans h.ids
  regular := Each.pass Entry.invariant_regular h.lists h.regular order focused

theorem Fits.recalculate (h : schema.Fits entries) (order : VisitOrder)
    (focused : Option String) (maxPasses : Nat) :
    schema.Fits (schema.recalculate order focused maxPasses entries).entries where
  ids := (map_id_recalculate _ _ _ _ _).trans h.ids
  regular := Each.recalculate Entry.invariant_regular h.lists h.regular order focused maxPasses

theorem Fits.exists_find?_pass (h : schema.Fits entries) (order : VisitOrder)
    (hd : d ∈ schema.derived) (hheld : d.isHeld focused = false) :
    ∃ v, Entry.find? (schema.pass order focused entries).entries d.id = some (.valid d.id v) := by
  obtain ⟨hmem, hderived⟩ := mem_derived.mp hd
  obtain ⟨s, -, -, hfind, -⟩ := exists_visit h.lists order hd hheld
  obtain ⟨e, he, hregular⟩ := h.exists_find? hmem
  rw [hfind, he, Option.map_some, hregular.withResult_eq hderived]
  exact ⟨_, rfl⟩

theorem Fits.exists_find?_recalculate (h : schema.Fits entries) (order : VisitOrder)
    (maxPasses : Nat) (hd : d ∈ schema.derived) (hheld : d.isHeld focused = false) :
    ∃ v, Entry.find? (schema.recalculate order focused maxPasses entries).entries d.id =
      some (.valid d.id v) :=
  (recalculate_induction (P := fun others => schema.Fits others ∧
      ∃ v, Entry.find? others d.id = some (.valid d.id v))
    (fun _ h => ⟨h.1.pass _ _, h.1.exists_find?_pass order hd hheld⟩) maxPasses
    ⟨h.pass _ _, h.exists_find?_pass order hd hheld⟩).2

theorem find?_of_settledAt (h : schema.Fits entries) (hsettled : SettledAt entries d)
    (hd : d ∈ schema.derived) :
    Entry.find? entries d.id =
      some (.valid d.id ((d.compute? (Entry.bindings entries)).getD .null)) := by
  obtain ⟨hmem, hderived⟩ := mem_derived.mp hd
  obtain ⟨e, he, hregular⟩ := h.exists_find? hmem
  rw [← hregular.withResult_eq hderived, hsettled e he, he]

theorem find?_of_settled (h : schema.Fits entries) (hsettled : schema.Settled focused entries)
    (hd : d ∈ schema.derived) (hheld : d.isHeld focused = false) :
    Entry.find? entries d.id =
      some (.valid d.id ((d.compute? (Entry.bindings entries)).getD .null)) :=
  find?_of_settledAt h (hsettled d hd hheld) hd

theorem rank_lt_of_mem_inputs (hacyclic : schema.graph.hasCycle = false) (hd : d ∈ schema.derived)
    {d' : FieldDefinition} (hd' : d' ∈ schema.derived) (h : d'.id ∈ d.inputs) :
    schema.graph.rank d'.id < schema.graph.rank d.id :=
  (InputGraph.rank_lt_of_input (InputGraph.wellFormed_graph schema) (mem_derivedIds_of_mem hd)
    (InputGraph.notMem_cyclic hacyclic d.id) ((mem_inputsOf_graph hd).mpr h)
    (mem_derivedIds_of_mem hd')).2

/-- In two lists that are settled under some computed fields, these have the same entries if the lists
are alike in whatever else the fields read. -/
theorem find?_eq_of_settledAt (hreads : schema.ReadsOnlyInputs)
    (hacyclic : schema.graph.hasCycle = false) (h : schema.Fits entries)
    (hothers : schema.Fits others) {c : FieldDefinition → Prop}
    (hsettled : ∀ d ∈ schema.derived, c d → SettledAt entries d)
    (hsettled' : ∀ d ∈ schema.derived, c d → SettledAt others d)
    (hinputs : ∀ d ∈ schema.derived, c d → ∀ id ∈ d.inputs,
      (Entry.bindings entries).Alike (Entry.bindings others) id ∨
        ∃ d' ∈ schema.derived, d'.id = id ∧ c d')
    (hd : d ∈ schema.derived) (hc : c d) :
    Entry.find? entries d.id = Entry.find? others d.id := by
  induction hrank : schema.graph.rank d.id using Nat.strong_induction_on generalizing d with
  | _ rank ih =>
    have halike : ∀ id ∈ d.inputs, (Entry.bindings entries).Alike (Entry.bindings others) id := by
      intro id hid
      rcases hinputs d hd hc id hid with halike | ⟨d', hd', rfl, hc'⟩
      · exact halike
      · have hlt := rank_lt_of_mem_inputs hacyclic hd hd' hid
        have hfind := ih _ (hrank ▸ hlt) hd' hc' rfl
        exact Bindings.alike_of_operand?_eq
          (operand?_eq_of_find?_eq h.lists.nodup hothers.lists.nodup hfind)
    have hcompute := FieldDefinition.compute?_congr hreads (mem_derived.mp hd).1 h.lists.over
      hothers.lists.over halike
    rw [find?_of_settledAt h (hsettled d hd hc) hd,
      find?_of_settledAt hothers (hsettled' d hd hc) hd, hcompute]

theorem find?_eq_of_settled (hreads : schema.ReadsOnlyInputs)
    (hacyclic : schema.graph.hasCycle = false) (h : schema.Fits entries)
    (hothers : schema.Fits others) (hsettled : schema.Settled focused entries)
    (hsettled' : schema.Settled focused others)
    (hsources : ∀ id, schema.IsSource focused id →
      (Entry.bindings entries).Alike (Entry.bindings others) id)
    (hd : d ∈ schema.derived) (hheld : d.isHeld focused = false) :
    Entry.find? entries d.id = Entry.find? others d.id := by
  apply find?_eq_of_settledAt hreads hacyclic h hothers hsettled hsettled' _ hd hheld
  intro d' hd' hheld' id hid
  exact (isSource_or schema focused id).imp (hsources id) fun h => h

theorem eq_of_settled (hreads : schema.ReadsOnlyInputs)
    (hacyclic : schema.graph.hasCycle = false) (h : schema.Fits entries)
    (hothers : schema.Fits others) (hsettled : schema.Settled focused entries)
    (hsettled' : schema.Settled focused others)
    (hsources : ∀ id, schema.IsSource focused id →
      Entry.find? entries id = Entry.find? others id) : entries = others := by
  apply Entry.eq_of_find?_eq (h.ids.trans hothers.ids.symm) h.lists.nodup
  intro id
  rcases isSource_or schema focused id with hsource | ⟨d, hd, rfl, hheld⟩
  · exact hsources id hsource
  · apply find?_eq_of_settled hreads hacyclic h hothers hsettled hsettled' _ hd hheld
    intro id hsource
    exact Bindings.alike_of_operand?_eq
      (operand?_eq_of_find?_eq h.lists.nodup hothers.lists.nodup (hsources id hsource))

theorem alike_of_equal (h : (entries.map Entry.id).Nodup) (hothers : (others.map Entry.id).Nodup)
    {id : String}
    (hequal : Option.Rel Entry.Equal (Entry.find? entries id) (Entry.find? others id)) :
    (Entry.bindings entries).Alike (Entry.bindings others) id := by
  apply Bindings.alike_of_get?
  rw [Entry.get?_bindings h, Entry.get?_bindings hothers]
  generalize Entry.find? entries id = e at hequal ⊢
  generalize Entry.find? others id = f at hequal ⊢
  cases hequal with
  | none => exact .none
  | @some e f hef =>
    obtain ⟨-, hvalue, hvalid, -⟩ := hef
    cases hf : f.isValid with
    | false =>
      simp only [Option.filter, hvalid, hf]
      exact .none
    | true =>
      simp only [Option.filter, hvalid, hf]
      exact .some hvalue

theorem pass_equal (hreads : schema.ReadsOnlyInputs) (hacyclic : schema.graph.hasCycle = false)
    (h : schema.Fits entries) (hothers : schema.Fits others)
    (hsources : ∀ id, schema.IsSource focused id →
      Option.Rel Entry.Equal (Entry.find? entries id) (Entry.find? others id)) :
    List.Forall₂ Entry.Equal (schema.pass .inputsFirst focused entries).entries
      (schema.pass .inputsFirst focused others).entries := by
  have hout := h.pass .inputsFirst focused
  have hout' := hothers.pass .inputsFirst focused
  have hkept : ∀ id, schema.IsSource focused id → Option.Rel Entry.Equal
      (Entry.find? (schema.pass .inputsFirst focused entries).entries id)
      (Entry.find? (schema.pass .inputsFirst focused others).entries id) := by
    intro id hsource
    rw [find?_pass hsource, find?_pass hsource]
    exact hsources id hsource
  apply Entry.forall₂_of_find? (hout.ids.trans hout'.ids.symm) hout.lists.nodup
  intro id
  rcases isSource_or schema focused id with hsource | ⟨d, hd, rfl, hheld⟩
  · exact hkept id hsource
  · obtain ⟨e, he, hregular⟩ := hout.exists_find? (mem_derived.mp hd).1
    have hsame := find?_eq_of_settled hreads hacyclic hout hout'
      (settled_pass hreads hacyclic h.lists focused)
      (settled_pass hreads hacyclic hothers.lists focused)
      (fun id hsource => alike_of_equal hout.lists.nodup hout'.lists.nodup (hkept id hsource))
      hd hheld
    rw [← hsame, he]
    exact .some (Entry.equal_self hregular.ne_nan)

theorem pass_eq (hreads : schema.ReadsOnlyInputs) (hacyclic : schema.graph.hasCycle = false)
    (h : schema.Fits entries) (hothers : schema.Fits others)
    (hsources : ∀ id, schema.IsSource focused id →
      Entry.find? entries id = Entry.find? others id) :
    (schema.pass .inputsFirst focused entries).entries =
      (schema.pass .inputsFirst focused others).entries := by
  apply eq_of_settled hreads hacyclic (h.pass _ _) (hothers.pass _ _)
    (settled_pass hreads hacyclic h.lists focused)
    (settled_pass hreads hacyclic hothers.lists focused)
  intro id hsource
  rw [find?_pass hsource, find?_pass hsource]
  exact hsources id hsource

end Schema

end DerivedForm
