import DerivedForm.Proofs.Formula.Reference
import DerivedForm.Proofs.Recalculation.Pass
import DerivedForm.Recalculation.Basic

/-!
# Settled entries

The entry of a computed field is settled if computing it from the present values leaves it as it is.
With inputs first, one pass settles every field outside of the cycles: when it is visited, its inputs
have their last values already. A list that is settled is changed by no pass in either order.
-/

namespace DerivedForm

namespace Schema

structure Lists (schema : Schema) (entries : List Entry) : Prop where
  nodup : (entries.map Entry.id).Nodup
  contained : ∀ e ∈ entries, schema.contains e.id = true

/-- The entry of a field, if it is there, is what the present values make of it. -/
def SettledAt (entries : List Entry) (d : FieldDefinition) : Prop :=
  ∀ e, Entry.find? entries d.id = some e →
    e.withResult (d.compute? (Entry.bindings entries)) = e

def Settled (schema : Schema) (focused : Option String) (entries : List Entry) : Prop :=
  ∀ d ∈ schema.derived, d.isHeld focused = false → SettledAt entries d

variable {schema : Schema} {order : VisitOrder} {focused : Option String} {entries : List Entry}

theorem Settled.at (h : schema.Settled none entries) {d : FieldDefinition}
    (hd : d ∈ schema.derived) : SettledAt entries d :=
  h d hd (by simp [FieldDefinition.isHeld])

theorem Settled.mono (h : schema.Settled none entries) (focused : Option String) :
    schema.Settled focused entries :=
  fun _ hd _ => h.at hd

theorem Lists.over (h : schema.Lists entries) : (Entry.bindings entries).Over schema where
  nodup := Entry.nodup_ids_bindings entries
  contained := by
    intro id hid
    obtain ⟨e, he, rfl⟩ := List.mem_map.mp (Entry.mem_ids_bindings hid)
    exact h.contained e he

theorem Lists.of_map_id_eq {others : List Entry} (h : schema.Lists entries)
    (hids : others.map Entry.id = entries.map Entry.id) : schema.Lists others where
  nodup := hids ▸ h.nodup
  contained := by
    intro e he
    have hmem : e.id ∈ entries.map Entry.id := hids ▸ List.mem_map_of_mem he
    obtain ⟨f, hf, heq⟩ := List.mem_map.mp hmem
    exact heq ▸ h.contained f hf

theorem operand?_eq_of_find?_eq {others : List Entry} (h : (entries.map Entry.id).Nodup)
    (h' : (others.map Entry.id).Nodup) {id : String}
    (hfind : Entry.find? entries id = Entry.find? others id) :
    (Entry.bindings entries).operand? id = (Entry.bindings others).operand? id := by
  unfold Bindings.operand?
  rw [Entry.get?_bindings h, Entry.get?_bindings h', hfind]

theorem get?_of_mem_derivedIds {id : String} (h : id ∈ schema.graph.derivedIds) :
    ∃ d ∈ schema.derived, d.id = id ∧ schema.get? id = some d := by
  obtain ⟨d, hd, rfl⟩ := mem_derivedIds_graph.mp h
  exact ⟨d, hd, rfl, get?_of_mem (mem_derived.mp hd).1⟩

theorem map_id_visits_inputsFirst (schema : Schema) :
    (schema.visits .inputsFirst).map FieldDefinition.id = schema.graph.order := by
  simp only [visits]
  rw [List.map_filterMap]
  have hall : ∀ id ∈ schema.graph.order,
      (schema.get? id).map FieldDefinition.id = some id := by
    intro id hid
    have hid := (InputGraph.mem_order (InputGraph.wellFormed_graph schema)).mp hid
    obtain ⟨d, -, hdid, hget⟩ := get?_of_mem_derivedIds hid
    rw [hget, Option.map_some, hdid]
  rw [List.filterMap_congr hall, List.filterMap_some]

theorem mem_visits {d : FieldDefinition} : d ∈ schema.visits order ↔ d ∈ schema.derived := by
  cases order with
  | asDefined => exact Iff.rfl
  | inputsFirst =>
    unfold visits
    rw [List.mem_filterMap]
    constructor
    · rintro ⟨id, hid, hget⟩
      have hid := (InputGraph.mem_order (InputGraph.wellFormed_graph schema)).mp hid
      obtain ⟨d', hd', -, hget'⟩ := get?_of_mem_derivedIds hid
      rw [hget] at hget'
      exact Option.some.inj hget' ▸ hd'
    · intro hd
      refine ⟨d.id, ?_, get?_of_mem (mem_derived.mp hd).1⟩
      exact (InputGraph.mem_order (InputGraph.wellFormed_graph schema)).mpr
        (mem_derivedIds_of_mem hd)

theorem nodup_visits (schema : Schema) (order : VisitOrder) :
    ((schema.visits order).map FieldDefinition.id).Nodup := by
  cases order with
  | asDefined => exact schema.nodup_derived_ids
  | inputsFirst =>
    rw [map_id_visits_inputsFirst]
    exact InputGraph.nodup_order (InputGraph.wellFormed_graph schema)

theorem mem_changes_pass {c : Change} :
    c ∈ (schema.pass order focused entries).changes ↔
      ∃ d ∈ schema.derived, d.isHeld focused = false ∧ ∃ e f, Entry.find? entries d.id = some e ∧
        Entry.find? (schema.pass order focused entries).entries d.id = some f ∧
        f.value.equals e.value = false ∧ c = ⟨d.id, e.value, f.value⟩ := by
  simp only [Schema.pass]
  rw [PassState.changes_foldl_visit (schema.nodup_visits order), List.nil_append, List.mem_flatMap]
  constructor
  · rintro ⟨d, hd, hc⟩
    split at hc
    · cases hc
    · rename_i hheld
      split at hc
      · rename_i e f he hf
        unfold Entry.change? at hc
        split at hc
        · cases hc
        · rename_i hne
          obtain rfl := List.mem_singleton.mp hc
          rw [Entry.id_of_find? hf]
          exact ⟨d, mem_visits.mp hd, Bool.eq_false_iff.mpr hheld, e, f, he, hf,
            Bool.eq_false_iff.mpr hne, rfl⟩
      · cases hc
  · rintro ⟨d, hd, hheld, e, f, he, hf, hne, rfl⟩
    refine ⟨d, mem_visits.mpr hd, ?_⟩
    rw [hheld, if_neg Bool.false_ne_true, he, hf]
    simp only [Entry.change?, hne, Bool.false_eq_true, if_false, List.mem_singleton]
    rw [Entry.id_of_find? hf]

theorem nodup_ids_changes_pass (schema : Schema) (order : VisitOrder) (focused : Option String)
    (entries : List Entry) :
    ((schema.pass order focused entries).changes.map Change.id).Nodup := by
  have hids := schema.nodup_visits order
  refine hids.sublist ?_
  simp only [Schema.pass]
  rw [PassState.changes_foldl_visit hids, List.nil_append, List.map_flatMap,
    List.map_eq_flatMap]
  refine List.Sublist.flatMap_right _ fun d hd => ?_
  split
  · exact List.nil_sublist _
  · split
    · rename_i e f he hf
      unfold Entry.change?
      split
      · exact List.nil_sublist _
      · rw [List.map_singleton, Entry.id_of_find? hf]
    · exact List.nil_sublist _

@[simp] theorem map_id_pass (schema : Schema) (order : VisitOrder) (focused : Option String)
    (entries : List Entry) :
    (schema.pass order focused entries).entries.map Entry.id = entries.map Entry.id :=
  PassState.map_id_foldl_visit _ _ _

theorem Lists.pass (h : schema.Lists entries) (order : VisitOrder) (focused : Option String) :
    schema.Lists (schema.pass order focused entries).entries :=
  h.of_map_id_eq (map_id_pass _ _ _ _)

theorem find?_pass {id : String} (h : ∀ d ∈ schema.derived, d.id = id → d.isHeld focused = true) :
    Entry.find? (schema.pass order focused entries).entries id = Entry.find? entries id :=
  PassState.find?_foldl_visit fun d hd heq => h d (mem_visits.mp hd) heq

/-- A moment of a pass at which a field is visited: its entry is computed from the values of that
moment, every entry is as before or as after the pass, and with inputs first those of a lower rank are
as after it. -/
structure VisitedAt (schema : Schema) (order : VisitOrder) (focused : Option String)
    (entries : List Entry) (d : FieldDefinition) (s : PassState) : Prop where
  consistent : s.Consistent
  values_over : s.values.Over schema
  computed : Entry.find? (schema.pass order focused entries).entries d.id =
    (Entry.find? entries d.id).map fun e => e.withResult (d.compute? s.values)
  before_or_after : ∀ id, Entry.find? s.entries id = Entry.find? entries id ∨
    Entry.find? s.entries id = Entry.find? (schema.pass order focused entries).entries id
  inputs_after : order = .inputsFirst → ∀ id,
    (id ∈ schema.graph.derivedIds → schema.graph.rank id < schema.graph.rank d.id) →
    Entry.find? s.entries id = Entry.find? (schema.pass order focused entries).entries id

theorem notMem_later_of_rank {before after : List FieldDefinition} {d : FieldDefinition}
    (hsplit : schema.visits .inputsFirst = before ++ d :: after) {id : String}
    (hrank : id ∈ schema.graph.derivedIds → schema.graph.rank id < schema.graph.rank d.id) :
    id ∉ (d :: after).map FieldDefinition.id := by
  intro hmem
  have hwf := InputGraph.wellFormed_graph schema
  have hmap := schema.map_id_visits_inputsFirst
  rw [hsplit, List.map_append, List.map_cons] at hmap
  have hid : id ∈ schema.graph.order := hmap ▸ List.mem_append_right _ hmem
  have hlt := hrank ((InputGraph.mem_order hwf).mp hid)
  have hpair := InputGraph.pairwise_rank_order hwf
  rw [← hmap] at hpair
  have htail := List.pairwise_cons.mp (List.pairwise_append.mp hpair).2.1
  rcases List.mem_cons.mp hmem with rfl | hmem
  · exact Nat.lt_irrefl _ hlt
  · exact Nat.lt_asymm hlt (htail.1 id hmem)

theorem exists_moment (h : (entries.map Entry.id).Nodup) (order : VisitOrder)
    {d : FieldDefinition} (hd : d ∈ schema.derived) (hheld : d.isHeld focused = false) :
    ∃ s : PassState, s.Consistent ∧
      ((Entry.bindings entries).Over schema → s.values.Over schema) ∧
      Entry.find? (schema.pass order focused entries).entries d.id =
        (Entry.find? entries d.id).map (fun e => e.withResult (d.compute? s.values)) ∧
      (∀ id, Entry.find? s.entries id = Entry.find? entries id ∨
        Entry.find? s.entries id = Entry.find? (schema.pass order focused entries).entries id) ∧
      (order = .inputsFirst → ∀ id,
        (id ∈ schema.graph.derivedIds → schema.graph.rank id < schema.graph.rank d.id) →
        Entry.find? s.entries id =
          Entry.find? (schema.pass order focused entries).entries id) := by
  have hvisited : d ∈ schema.visits order := mem_visits.mpr hd
  obtain ⟨before, after, hsplit⟩ := List.append_of_mem hvisited
  have hids := schema.nodup_visits order
  rw [hsplit] at hids
  have hfinal : (schema.pass order focused entries).entries =
      ((before ++ d :: after).foldl (PassState.visit focused)
        ⟨entries, Entry.bindings entries, []⟩).entries := by
    rw [← hsplit]
    rfl
  set s := before.foldl (PassState.visit focused) ⟨entries, Entry.bindings entries, []⟩ with hs
  have hlater : ∀ id, id ∉ (d :: after).map FieldDefinition.id → Entry.find? s.entries id =
      Entry.find? (schema.pass order focused entries).entries id := by
    intro id hid
    rw [hfinal, List.foldl_append, ← hs]
    exact (PassState.find?_foldl_visit_of_notMem hid).symm
  refine ⟨s, (PassState.consistent_initial h).foldl_visit focused before,
    fun hover => PassState.Over.foldl_visit hover (fun d' hd' => ?_) focused, ?_,
    fun id => ?_, ?_⟩
  · have hmem : d' ∈ schema.visits order := hsplit ▸ List.mem_append_left _ hd'
    exact (mem_derived.mp (mem_visits.mp hmem)).1
  · rw [hfinal]
    exact PassState.find?_foldl_visit_append hids hheld
  · by_cases hid : id ∈ before.map FieldDefinition.id
    · right
      rw [List.map_append] at hids
      exact hlater id fun hmem => List.disjoint_of_nodup_append hids hid hmem
    · exact Or.inl (PassState.find?_foldl_visit_of_notMem hid)
  · rintro rfl id hrank
    exact hlater id (notMem_later_of_rank hsplit hrank)

theorem exists_visit (h : schema.Lists entries) (order : VisitOrder) {d : FieldDefinition}
    (hd : d ∈ schema.derived) (hheld : d.isHeld focused = false) :
    ∃ s, schema.VisitedAt order focused entries d s := by
  obtain ⟨s, hs, hover, hfind, hmoment, hinputs⟩ := exists_moment h.nodup order hd hheld
  exact ⟨s, hs, hover h.over, hfind, hmoment, hinputs⟩

/-- With inputs first, a pass settles every field outside of the cycles. -/
theorem settledAt_pass (hreads : schema.ReadsOnlyInputs) (h : schema.Lists entries)
    {d : FieldDefinition} (hd : d ∈ schema.derived) (hcyclic : d.id ∉ schema.graph.cyclic)
    (hheld : d.isHeld focused = false) :
    SettledAt (schema.pass .inputsFirst focused entries).entries d := by
  obtain ⟨s, hs, hover, hfind, -, hbefore⟩ := exists_visit h .inputsFirst hd hheld
  set out := (schema.pass .inputsFirst focused entries).entries with hout
  have hlists : schema.Lists out := h.pass _ _
  -- the inputs have a lower rank, so that at the visit they are as at the end
  have hcompute : d.compute? s.values = d.compute? (Entry.bindings out) := by
    refine FieldDefinition.compute?_congr hreads (mem_derived.mp hd).1 hover hlists.over ?_
    intro input hinput
    refine Bindings.alike_of_operand?_eq ?_
    rw [hs.operands]
    refine operand?_eq_of_find?_eq hs.ids hlists.nodup (hbefore rfl input fun hderived => ?_)
    exact (InputGraph.rank_lt_of_input (InputGraph.wellFormed_graph schema)
      (mem_derivedIds_of_mem hd) hcyclic ((mem_inputsOf_graph hd).mpr hinput) hderived).2
  intro e he
  rw [hfind] at he
  obtain ⟨e₀, -, rfl⟩ := Option.map_eq_some_iff.mp he
  rw [← hcompute, Entry.withResult_withResult]

theorem settled_pass (hreads : schema.ReadsOnlyInputs) (hacyclic : schema.graph.hasCycle = false)
    (h : schema.Lists entries) (focused : Option String) :
    schema.Settled focused (schema.pass .inputsFirst focused entries).entries := by
  intro d hd hheld
  exact settledAt_pass hreads h hd (InputGraph.notMem_cyclic hacyclic d.id) hheld

theorem SettledAt.equals_self {d : FieldDefinition} (h : SettledAt entries d) {e : Entry}
    (he : Entry.find? entries d.id = some e) : e.value.equals e.value = true := by
  have hvalue := e.withResult_value (d.compute? (Entry.bindings entries))
  rw [h e he] at hvalue
  rw [hvalue]
  cases hcompute : d.compute? (Entry.bindings entries) with
  | none => rfl
  | some v => exact Value.equals_self (FieldDefinition.compute?_eq_some_iff.mp hcompute).ne_nan

theorem SettledAt.visit (hreads : schema.ReadsOnlyInputs) {s : PassState} (hs : s.Consistent)
    (hlists : schema.Lists s.entries) (hover : s.values.Over schema) {d : FieldDefinition}
    (hd : d ∈ schema.derived) (h : SettledAt s.entries d) :
    (s.visit focused d).entries = s.entries ∧ (s.visit focused d).changes = s.changes := by
  rcases PassState.visit_cases focused s d with hsame | ⟨hheld, e, he⟩
  · rw [hsame]
    exact ⟨rfl, rfl⟩
  · have hcompute : d.compute? s.values = d.compute? (Entry.bindings s.entries) :=
      FieldDefinition.compute?_congr hreads (mem_derived.mp hd).1 hover hlists.over
        fun input _ => Bindings.alike_of_operand?_eq (hs.operands input)
    rw [PassState.visit_of_find? hheld he, hcompute, h e he]
    refine ⟨Entry.modifyFirst_of_find? he, ?_⟩
    simp only [Entry.change?, h.equals_self he, if_true, List.append_nil]

theorem pass_of_settled (hreads : schema.ReadsOnlyInputs) (h : schema.Lists entries)
    (hsettled : schema.Settled focused entries) (order : VisitOrder) :
    schema.pass order focused entries = ⟨entries, []⟩ := by
  suffices hfold : ∀ (ds : List FieldDefinition) (s : PassState), (∀ d ∈ ds, d ∈ schema.derived) →
      s.Consistent → s.values.Over schema → s.entries = entries →
      (ds.foldl (PassState.visit focused) s).entries = entries ∧
        (ds.foldl (PassState.visit focused) s).changes = s.changes by
    obtain ⟨hentries, hchanges⟩ := hfold (schema.visits order)
      ⟨entries, Entry.bindings entries, []⟩ (fun d hd => mem_visits.mp hd)
      (PassState.consistent_initial h.nodup) h.over rfl
    exact congrArg₂ Recalculated.mk hentries hchanges
  intro ds
  induction ds with
  | nil => exact fun s _ _ _ heq => ⟨heq, rfl⟩
  | cons d rest ih =>
    intro s hds hs hover heq
    have hd : d ∈ schema.derived := hds d List.mem_cons_self
    have hvisit : (s.visit focused d).entries = s.entries ∧
        (s.visit focused d).changes = s.changes := by
      cases hheld : d.isHeld focused with
      | true =>
        rw [PassState.visit_of_isHeld hheld]
        exact ⟨rfl, rfl⟩
      | false =>
        exact SettledAt.visit hreads hs (heq ▸ h) hover hd (heq ▸ hsettled d hd hheld)
    rw [List.foldl_cons, ← hvisit.2]
    exact ih _ (fun d' hd' => hds d' (List.mem_cons_of_mem _ hd')) (hs.visit focused d)
      (PassState.Over.visit hover (mem_derived.mp hd).1 focused) (hvisit.1.trans heq)

theorem repeatPasses_induction {P : List Entry → Prop}
    (hpass : ∀ entries, P entries → P (schema.pass order focused entries).entries)
    (passes : Nat) (changed : Bool) {current : Recalculated} (h : P current.entries) :
    P (schema.repeatPasses order focused passes changed current).entries := by
  induction passes generalizing changed current with
  | zero =>
    unfold repeatPasses
    exact h
  | succ passes ih =>
    cases changed with
    | false => exact h
    | true => exact ih _ (hpass _ h)

theorem recalculate_induction {P : List Entry → Prop}
    (hpass : ∀ entries, P entries → P (schema.pass order focused entries).entries)
    (maxPasses : Nat) (h : P (schema.pass order focused entries).entries) :
    P (schema.recalculate order focused maxPasses entries).entries := by
  simp only [recalculate]
  split
  · exact h
  · exact repeatPasses_induction hpass _ _ h

theorem Lists.recalculate (h : schema.Lists entries) (order : VisitOrder)
    (focused : Option String) (maxPasses : Nat) :
    schema.Lists (schema.recalculate order focused maxPasses entries).entries :=
  recalculate_induction (fun _ h => h.pass _ _) maxPasses (h.pass _ _)

theorem map_id_recalculate (schema : Schema) (order : VisitOrder) (focused : Option String)
    (maxPasses : Nat) (entries : List Entry) :
    (schema.recalculate order focused maxPasses entries).entries.map Entry.id =
      entries.map Entry.id :=
  recalculate_induction (P := fun others => others.map Entry.id = entries.map Entry.id)
    (fun _ h => (map_id_pass _ _ _ _).trans h) maxPasses (map_id_pass _ _ _ _)

theorem recalculate_of_hasCycle_eq_false (hacyclic : schema.graph.hasCycle = false)
    (focused : Option String) (maxPasses : Nat) (entries : List Entry) :
    schema.recalculate .inputsFirst focused maxPasses entries =
      schema.pass .inputsFirst focused entries := by
  simp [recalculate, settlesAtOnce, hacyclic]

theorem SettledAt.yields_or {d : FieldDefinition} (h : SettledAt entries d) {e : Entry}
    (he : Entry.find? entries d.id = some e) :
    d.Yields (Entry.bindings entries) e.value ∨
      e.value = .null ∧ ∀ v, ¬ d.Yields (Entry.bindings entries) v := by
  have hvalue := e.withResult_value (d.compute? (Entry.bindings entries))
  rw [h e he] at hvalue
  cases hcompute : d.compute? (Entry.bindings entries) with
  | none =>
    right
    rw [hcompute] at hvalue
    refine ⟨hvalue, fun v hv => ?_⟩
    rw [FieldDefinition.compute?_eq_some_iff.mpr hv] at hcompute
    cases hcompute
  | some v =>
    left
    rw [hcompute] at hvalue
    rw [hvalue]
    exact FieldDefinition.compute?_eq_some_iff.mp hcompute

/-- Recalculation with inputs first gives every field outside of the cycles, unless it is held, the
value that the resulting entries yield for it, and empties it if they yield none. Without cycles a
further pass finds nothing to do. -/
theorem recalculate_inputsFirst (schema : Schema) (hreads : schema.ReadsOnlyInputs)
    (entries : List Entry) (hids : (entries.map Entry.id).Nodup)
    (hknown : ∀ e ∈ entries, schema.contains e.id = true) (focused : Option String)
    (maxPasses : Nat) :
    let out := (schema.recalculate .inputsFirst focused maxPasses entries).entries
    out.map Entry.id = entries.map Entry.id ∧
      (∀ d ∈ schema.derived, d.id ∉ schema.graph.cyclic → d.isHeld focused = false →
        ∀ e ∈ out, e.id = d.id →
          d.Yields (Entry.bindings out) e.value ∨
            e.value = .null ∧ ∀ v, ¬ d.Yields (Entry.bindings out) v) ∧
      (schema.graph.hasCycle = false →
        (schema.pass .inputsFirst focused out).changed = false ∧
          (schema.pass .inputsFirst focused out).entries = out) := by
  intro out
  have hlists : schema.Lists entries := ⟨hids, hknown⟩
  have hout : schema.Lists out := hlists.recalculate _ _ _
  have hsettled : ∀ d ∈ schema.derived, d.id ∉ schema.graph.cyclic →
      d.isHeld focused = false → SettledAt out d := by
    intro d hd hcyclic hheld
    refine (recalculate_induction (P := fun entries => schema.Lists entries ∧ SettledAt entries d)
      (fun entries h => ⟨h.1.pass _ _, settledAt_pass hreads h.1 hd hcyclic hheld⟩) maxPasses
      ⟨hlists.pass _ _, settledAt_pass hreads hlists hd hcyclic hheld⟩).2
  refine ⟨map_id_recalculate _ _ _ _ _, ?_, ?_⟩
  · intro d hd hcyclic hheld e he heq
    apply (hsettled d hd hcyclic hheld).yields_or
    rw [← heq]
    exact Entry.find?_of_mem hout.nodup he
  · intro hacyclic
    have hall : schema.Settled focused out := by
      intro d hd hheld
      exact hsettled d hd (InputGraph.notMem_cyclic hacyclic d.id) hheld
    rw [pass_of_settled hreads hout hall]
    exact ⟨rfl, rfl⟩

theorem recalculate_inputsFirst_loopedInvoice :
    let entries := [Entry.valid "net" (.integer 100), .valid "total" .null,
      .valid "gross" .null, .valid "credit" .null, .valid "debit" .null]
    let out := (loopedInvoice.recalculate .inputsFirst none 3 entries).entries
    (entries.map Entry.id).Nodup ∧ (∀ e ∈ entries, loopedInvoice.contains e.id = true) ∧
      loopedInvoice.graph.hasCycle = true ∧
      Entry.find? out "total" = some (.valid "total" (.decimal 125)) ∧
      ∀ d ∈ loopedInvoice.derived, d.id = "total" → ∀ e ∈ out, e.id = "total" →
        d.Yields (Entry.bindings out) e.value ∨
          e.value = .null ∧ ∀ v, ¬ d.Yields (Entry.bindings out) v := by
  intro entries out
  have hids : (entries.map Entry.id).Nodup := by decide
  have hknown : ∀ e ∈ entries, loopedInvoice.contains e.id = true := by decide
  obtain ⟨-, hyields, -⟩ := recalculate_inputsFirst loopedInvoice readsOnlyInputs_loopedInvoice
    entries hids hknown none 3
  refine ⟨hids, hknown, by decide, by decide +kernel, fun d hd hid e he heq => ?_⟩
  apply hyields d hd _ (by simp [FieldDefinition.isHeld]) e he (heq.trans hid.symm)
  rw [hid]
  decide

end Schema

end DerivedForm
