import DerivedForm.Proofs.Recalculation.Determined

/-!
# Repeated passes

Passes in any order lead to the list that one pass with inputs first leads to, if there are no cycles
and enough passes. Every pass brings one more rank of computed fields to its last value: after `k`
passes the fields of a rank below `k` are there. If a pass reports no change, then all values that it
read were equal to those that it left, so that its list is settled already.
-/

namespace DerivedForm

namespace Schema

/-- A list with the sources of the last one and with its computed entries up to a rank. -/
structure Approaches (schema : Schema) (focused : Option String) (last : List Entry) (k : Nat)
    (entries : List Entry) : Prop where
  fits : schema.Fits entries
  sources : ∀ id, schema.IsSource focused id → Entry.find? entries id = Entry.find? last id
  below : ∀ d ∈ schema.derived, d.isHeld focused = false → schema.graph.rank d.id < k →
    Entry.find? entries d.id = Entry.find? last d.id

variable {schema : Schema} {order : VisitOrder} {focused : Option String} {d : FieldDefinition}
  {entries last : List Entry} {k : Nat}

theorem rank_lt_length_derived (hd : d ∈ schema.derived) :
    schema.graph.rank d.id < schema.derived.length := by
  have hlt := InputGraph.rank_lt_length (InputGraph.wellFormed_graph schema)
    (mem_derivedIds_of_mem hd)
  rwa [derivedIds_graph, List.length_map] at hlt

theorem find?_pass_of_inputs (hreads : schema.ReadsOnlyInputs) (h : schema.Fits entries)
    (hlast : schema.Fits last) (hsettled : schema.Settled focused last) (hd : d ∈ schema.derived)
    (hheld : d.isHeld focused = false)
    (hinputs : ∀ id ∈ d.inputs, Entry.find? entries id = Entry.find? last id ∧
      Entry.find? (schema.pass order focused entries).entries id = Entry.find? last id) :
    Entry.find? (schema.pass order focused entries).entries d.id = Entry.find? last d.id := by
  obtain ⟨hmem, hderived⟩ := mem_derived.mp hd
  obtain ⟨s, hs, hover, hfind, hmoment, -⟩ := exists_visit h.lists order hd hheld
  have hcompute : d.compute? s.values = d.compute? (Entry.bindings last) := by
    apply FieldDefinition.compute?_congr hreads hmem hover hlast.lists.over
    intro id hid
    apply Bindings.alike_of_operand?_eq
    rw [hs.operands]
    apply operand?_eq_of_find?_eq hs.ids hlast.lists.nodup
    obtain ⟨hbefore, hafter⟩ := hinputs id hid
    rcases hmoment id with heq | heq
    · exact heq.trans hbefore
    · exact heq.trans hafter
  obtain ⟨e, he, hregular⟩ := h.exists_find? hmem
  rw [hfind, he, Option.map_some, hcompute, hregular.withResult_eq hderived,
    find?_of_settled hlast hsettled hd hheld]

theorem Approaches.pass (hreads : schema.ReadsOnlyInputs)
    (hacyclic : schema.graph.hasCycle = false) (hlast : schema.Fits last)
    (hsettled : schema.Settled focused last) (h : schema.Approaches focused last k entries)
    (order : VisitOrder) :
    schema.Approaches focused last (k + 1) (schema.pass order focused entries).entries := by
  have hsources : ∀ id, schema.IsSource focused id →
      Entry.find? (schema.pass order focused entries).entries id = Entry.find? last id :=
    fun id hsource => (find?_pass hsource).trans (h.sources id hsource)
  refine ⟨h.fits.pass order focused, hsources, fun d hd hheld hrank => ?_⟩
  -- inputs may be visited later than the field, so their entries have to be right before and after
  induction hn : schema.graph.rank d.id using Nat.strong_induction_on generalizing d with
  | _ n ih =>
    apply find?_pass_of_inputs hreads h.fits hlast hsettled hd hheld
    intro id hid
    rcases isSource_or schema focused id with hsource | ⟨d', hd', rfl, hheld'⟩
    · exact ⟨h.sources id hsource, hsources id hsource⟩
    · have hlt := rank_lt_of_mem_inputs hacyclic hd hd' hid
      exact ⟨h.below d' hd' hheld' (by omega), ih _ (by omega) d' hd' hheld' (by omega) rfl⟩

theorem Approaches.eq (hlast : schema.Fits last) (h : schema.Approaches focused last k entries)
    (hk : schema.derived.length ≤ k) : entries = last := by
  apply Entry.eq_of_find?_eq (h.fits.ids.trans hlast.ids.symm) h.fits.lists.nodup
  intro id
  rcases isSource_or schema focused id with hsource | ⟨d, hd, rfl, hheld⟩
  · exact h.sources id hsource
  · exact h.below d hd hheld (Nat.lt_of_lt_of_le (rank_lt_length_derived hd) hk)

theorem value_equals_of_unchanged
    (hunchanged : (schema.pass order focused entries).changed = false) (hd : d ∈ schema.derived)
    (hheld : d.isHeld focused = false) {e f : Entry} (he : Entry.find? entries d.id = some e)
    (hf : Entry.find? (schema.pass order focused entries).entries d.id = some f) :
    f.value.equals e.value = true := by
  by_contra hne
  have hmem : (⟨d.id, e.value, f.value⟩ : Change) ∈
      (schema.pass order focused entries).changes :=
    mem_changes_pass.mpr ⟨d, hd, hheld, e, f, he, hf, Bool.eq_false_iff.mpr hne, rfl⟩
  have hnil : (schema.pass order focused entries).changes = [] := by
    simpa [Recalculated.changed] using hunchanged
  rw [hnil] at hmem
  cases hmem

theorem equals_of_unchanged (h : schema.Fits entries)
    (hunchanged : (schema.pass order focused entries).changed = false) (hd : d ∈ schema.derived)
    (hheld : d.isHeld focused = false) :
    ∃ v w : Value, v.equals w = true ∧ Entry.find? entries d.id = some (.valid d.id w) ∧
      Entry.find? (schema.pass order focused entries).entries d.id = some (.valid d.id v) := by
  obtain ⟨hmem, hderived⟩ := mem_derived.mp hd
  obtain ⟨e, he, hregular⟩ := h.exists_find? hmem
  obtain ⟨s, -, -, hfind, -⟩ := exists_visit h.lists order hd hheld
  rw [he, Option.map_some, hregular.withResult_eq hderived] at hfind
  have hequals : ((d.compute? s.values).getD .null).equals e.value = true :=
    value_equals_of_unchanged hunchanged hd hheld he hfind
  refine ⟨_, e.value, hequals, ?_, hfind⟩
  rcases hregular.valid_or_text hderived with hvalid | ⟨text, htext⟩
  · rw [he, ← hvalid]
  · rw [htext] at hequals
    cases hcompute : d.compute? s.values with
    | none =>
      rw [hcompute] at hequals
      cases hequals
    | some v =>
      rw [hcompute] at hequals
      rcases (FieldDefinition.compute?_eq_some_iff.mp hcompute).isNumber with
        ⟨-, n, rfl⟩ | ⟨x, rfl, -⟩
      · cases hequals
      · cases hequals

theorem settled_of_unchanged (hreads : schema.ReadsOnlyInputs) (h : schema.Fits entries)
    (hunchanged : (schema.pass order focused entries).changed = false) :
    schema.Settled focused (schema.pass order focused entries).entries := by
  have hout := h.pass order focused
  have halike : ∀ id, (Entry.bindings entries).Alike
      (Entry.bindings (schema.pass order focused entries).entries) id := by
    intro id
    rcases isSource_or schema focused id with hsource | ⟨d, hd, rfl, hheld⟩
    · apply Bindings.alike_of_operand?_eq
      exact operand?_eq_of_find?_eq h.lists.nodup hout.lists.nodup (find?_pass hsource).symm
    · obtain ⟨v, w, hequals, hbefore, hafter⟩ := equals_of_unchanged h hunchanged hd hheld
      apply Bindings.alike_of_get?
      rw [Entry.get?_bindings h.lists.nodup, Entry.get?_bindings hout.lists.nodup, hbefore, hafter]
      exact .some (Value.equals_symm hequals)
  intro d hd hheld e he
  obtain ⟨s, hs, hover, hfind, hmoment, -⟩ := exists_visit h.lists order hd hheld
  have hcompute : d.compute? s.values =
      d.compute? (Entry.bindings (schema.pass order focused entries).entries) := by
    apply FieldDefinition.compute?_congr hreads (mem_derived.mp hd).1 hover hout.lists.over
    intro id hid
    rcases hmoment id with heq | heq
    · have hoperand := operand?_eq_of_find?_eq hs.ids h.lists.nodup heq
      unfold Bindings.Alike
      rw [hs.operands, hoperand]
      exact halike id
    · apply Bindings.alike_of_operand?_eq
      rw [hs.operands]
      exact operand?_eq_of_find?_eq hs.ids hout.lists.nodup heq
  rw [hfind] at he
  obtain ⟨e₀, -, rfl⟩ := Option.map_eq_some_iff.mp he
  rw [← hcompute, Entry.withResult_withResult]

/-- The loop of passes ends in the last list, by its number of passes or earlier. -/
theorem repeatPasses_eq (hreads : schema.ReadsOnlyInputs)
    (hacyclic : schema.graph.hasCycle = false) (hlast : schema.Fits last)
    (hsettled : schema.Settled focused last) (passes : Nat) (changed : Bool)
    (current : Recalculated) (h : schema.Approaches focused last k current.entries)
    (hstop : changed = false → current.entries = last)
    (hpasses : schema.derived.length ≤ k + passes) :
    (schema.repeatPasses order focused passes changed current).entries = last := by
  induction passes generalizing k changed current with
  | zero =>
    unfold repeatPasses
    exact h.eq hlast hpasses
  | succ passes ih =>
    cases changed with
    | false => exact hstop rfl
    | true =>
      have hnext := h.pass hreads hacyclic hlast hsettled order
      simp only [repeatPasses]
      refine ih _ ⟨_, _⟩ hnext ?_ (by omega)
      intro hunchanged
      exact eq_of_settled hreads hacyclic hnext.fits hlast
        (settled_of_unchanged hreads h.fits hunchanged) hsettled hnext.sources

/-- Without cycles, recalculation in any order gives what one pass with inputs first gives, if it
has a pass for every computed field. -/
theorem entries_recalculate_eq (hreads : schema.ReadsOnlyInputs)
    (hacyclic : schema.graph.hasCycle = false) (h : schema.Fits entries) (order : VisitOrder)
    (focused : Option String) {maxPasses : Nat} (hpasses : schema.derived.length ≤ maxPasses) :
    (schema.recalculate order focused maxPasses entries).entries =
      (schema.pass .inputsFirst focused entries).entries := by
  set last := (schema.pass .inputsFirst focused entries).entries with hdef
  have hlast : schema.Fits last := h.pass _ _
  have hsettled : schema.Settled focused last := settled_pass hreads hacyclic h.lists focused
  have hinitial : schema.Approaches focused last 0 entries :=
    ⟨h, fun id hsource => (find?_pass hsource).symm, fun _ _ _ hrank => by omega⟩
  have hfirst := hinitial.pass hreads hacyclic hlast hsettled order
  cases hsettles : schema.settlesAtOnce order with
  | true =>
    have horder : order = .inputsFirst := by
      simp only [settlesAtOnce, Bool.and_eq_true, beq_iff_eq] at hsettles
      exact hsettles.1
    subst horder
    rw [recalculate_of_hasCycle_eq_false hacyclic]
  | false =>
    simp only [recalculate]
    rw [hsettles, if_neg Bool.false_ne_true]
    apply repeatPasses_eq hreads hacyclic hlast hsettled _ _ _ hfirst _ (by omega)
    intro hunchanged
    exact eq_of_settled hreads hacyclic hfirst.fits hlast
      (settled_of_unchanged hreads h hunchanged) hsettled hfirst.sources

end Schema

end DerivedForm
