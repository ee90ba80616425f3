import DerivedForm.Proofs.Dependency.Downstream
import DerivedForm.Proofs.Recalculation.Repetition

/-!
# Missing inputs

A source that offers no number empties all that is downstream of it, whatever stale values stand
there. Every pass empties the computed fields that are one step further away from the source, in any
order and on cycles as well, since one of their inputs is empty before and after it. With inputs
first and no cycle one pass gets to the end, and so does a pass that reports no change: what is
equal to nothing is nothing.
-/

namespace DerivedForm

theorem FieldDefinition.compute?_eq_none {d : FieldDefinition} {values : Bindings} {input : String}
    (hinput : input ∈ d.inputs) (hmissing : values.operand? input = none) :
    d.compute? values = none := by
  rw [Option.eq_none_iff_forall_ne_some]
  intro v hv
  obtain ⟨hderivation, hinputs, -⟩ := compute?_eq_some_iff.mp hv
  have hnumber := hinputs input (inputs_of_derivation hderivation ▸ hinput)
  rw [← Bindings.isSome_operand?, hmissing] at hnumber
  cases hnumber

namespace Entry

variable {entries : List Entry} {id : String}

def AllNull (ids : Finset String) (entries : List Entry) : Prop :=
  ∀ id ∈ ids, ∀ e, find? entries id = some e → e.value = .null

theorem operand?_eq_none (hids : (entries.map Entry.id).Nodup)
    (h : ∀ e, find? entries id = some e → e.isValid = true → e.value.number? = none) :
    (bindings entries).operand? id = none := by
  unfold Bindings.operand?
  rw [get?_bindings hids]
  cases hfind : find? entries id with
  | none => rfl
  | some e => cases hvalid : e.isValid <;> simp_all [Option.filter]

theorem AllNull.operand? {ids : Finset String} (h : AllNull ids entries)
    (hids : (entries.map Entry.id).Nodup) (hid : id ∈ ids) :
    (bindings entries).operand? id = none := by
  apply operand?_eq_none hids
  intro e he _
  rw [h id hid e he, Value.number?_null]

end Entry

namespace Schema

variable {schema : Schema} {order : VisitOrder} {entries : List Entry} {source : String} {k : Nat}

structure Lacks (schema : Schema) (source : String) (entries : List Entry) : Prop where
  ids : (entries.map Entry.id).Nodup
  plain : ∀ d ∈ schema.derived, d.id ≠ source
  missing : (Entry.bindings entries).operand? source = none

theorem Lacks.pass (h : schema.Lacks source entries) (order : VisitOrder) :
    schema.Lacks source (schema.pass order none entries).entries := by
  have hids : ((schema.pass order none entries).entries.map Entry.id).Nodup := by
    rw [map_id_pass]
    exact h.ids
  have hfind : Entry.find? (schema.pass order none entries).entries source =
      Entry.find? entries source :=
    find?_pass fun d hd heq => absurd heq (h.plain d hd)
  exact ⟨hids, h.plain, (operand?_eq_of_find?_eq hids h.ids hfind).trans h.missing⟩

/-- At no moment of a pass at which the field may be visited is the input an operand that was there
before the pass. -/
def NoStaleOperand (schema : Schema) (order : VisitOrder) (entries : List Entry)
    (d : FieldDefinition) (input : String) : Prop :=
  (Entry.bindings entries).operand? input = none ∨
    order = .inputsFirst ∧
      (input ∈ schema.graph.derivedIds → schema.graph.rank input < schema.graph.rank d.id)

theorem null_of_missing (hids : (entries.map Entry.id).Nodup) {d : FieldDefinition}
    (hd : d ∈ schema.derived) {input : String} (hinput : input ∈ d.inputs)
    (hbefore : schema.NoStaleOperand order entries d input)
    (hafter : (Entry.bindings (schema.pass order none entries).entries).operand? input = none)
    {e : Entry} (he : Entry.find? (schema.pass order none entries).entries d.id = some e) :
    e.value = .null := by
  have hout : ((schema.pass order none entries).entries.map Entry.id).Nodup := by
    rw [map_id_pass]
    exact hids
  have hheld : d.isHeld none = false := by simp [FieldDefinition.isHeld]
  obtain ⟨s, hs, -, hfind, hmoment, hinputs⟩ := exists_moment hids order hd hheld
  have hmissing : s.values.operand? input = none := by
    rw [hs.operands]
    rcases hbefore with hbefore | ⟨horder, hrank⟩
    · rcases hmoment input with heq | heq
      · exact (operand?_eq_of_find?_eq hs.ids hids heq).trans hbefore
      · exact (operand?_eq_of_find?_eq hs.ids hout heq).trans hafter
    · exact (operand?_eq_of_find?_eq hs.ids hout (hinputs horder input hrank)).trans hafter
  rw [FieldDefinition.compute?_eq_none hinput hmissing, he] at hfind
  obtain ⟨old, -, hold⟩ := Option.map_eq_some_iff.mp hfind.symm
  rw [← hold, Entry.withResult_value, Option.getD_none]

/-- A pass empties the fields up to some distance, if those that are nearer offer no stale operands
once they are known to be empty after it. -/
theorem allNull_pass (h : schema.Lacks source entries) {n : Nat}
    (hbefore : ∀ j < n, Entry.AllNull (schema.graph.within source j)
        (schema.pass order none entries).entries →
      ∀ d ∈ schema.derived, ∀ input ∈ d.inputs, input ∈ schema.graph.within source j →
        schema.NoStaleOperand order entries d input) :
    ∀ j ≤ n, Entry.AllNull (schema.graph.within source j)
      (schema.pass order none entries).entries := by
  intro j
  induction j with
  | zero => simp [InputGraph.within, Entry.AllNull]
  | succ j ih =>
    intro hj id hid e he
    have hafter := ih (by omega)
    rcases InputGraph.mem_within_succ.mp hid with hreads | ⟨input, hwithin, hreads⟩
    · obtain ⟨d, hd, rfl, hinput⟩ := mem_readersOf_iff.mp hreads
      exact null_of_missing h.ids hd hinput (Or.inl h.missing) (h.pass order).missing he
    · obtain ⟨d, hd, rfl, hinput⟩ := mem_readersOf_iff.mp hreads
      exact null_of_missing h.ids hd hinput (hbefore j (by omega) hafter d hd input hinput hwithin)
        (hafter.operand? (h.pass order).ids hwithin) he

theorem allNull_pass_succ (h : schema.Lacks source entries)
    (hnull : Entry.AllNull (schema.graph.within source k) entries) :
    Entry.AllNull (schema.graph.within source (k + 1))
      (schema.pass order none entries).entries := by
  refine allNull_pass h (fun j hj _ d _ input _ hwithin => Or.inl ?_) (k + 1) (Nat.le_refl _)
  exact hnull.operand? h.ids (schema.graph.monotone_within source (by omega : j ≤ k) hwithin)

theorem allNull_of_unchanged (h : schema.Lacks source entries)
    (hunchanged : (schema.pass order none entries).changed = false) (j : Nat) :
    Entry.AllNull (schema.graph.within source j) (schema.pass order none entries).entries := by
  refine allNull_pass h (fun i _ hafter _ _ id _ hid => Or.inl ?_) j (Nat.le_refl _)
  -- an unchanged field is equal to nothing if it is empty now, so it was no number before
  apply Entry.operand?_eq_none h.ids
  intro e he _
  obtain ⟨d, hd, rfl⟩ := mem_derivedIds_graph.mp (InputGraph.mem_derivedIds_of_mem_within hid)
  have hheld : d.isHeld none = false := by simp [FieldDefinition.isHeld]
  obtain ⟨s, -, -, hfind, -⟩ := exists_moment h.ids order hd hheld
  rw [he, Option.map_some] at hfind
  have hequals := value_equals_of_unchanged hunchanged hd hheld he hfind
  rw [hafter d.id hid _ hfind] at hequals
  rw [← Option.not_isSome_iff_eq_none, ← Value.isSome_number?_of_equals hequals]
  simp

theorem allNull_pass_inputsFirst (h : schema.Lacks source entries)
    (hacyclic : schema.graph.hasCycle = false) (j : Nat) :
    Entry.AllNull (schema.graph.within source j)
      (schema.pass .inputsFirst none entries).entries := by
  refine allNull_pass h (fun _ _ _ d hd input hinput _ => Or.inr ⟨rfl, fun hderived => ?_⟩) j
    (Nat.le_refl _)
  exact (InputGraph.rank_lt_of_input (InputGraph.wellFormed_graph schema)
    (mem_derivedIds_of_mem hd) (InputGraph.notMem_cyclic hacyclic d.id)
    ((mem_inputsOf_graph hd).mpr hinput) hderived).2

theorem allNull_repeatPasses {n : Nat} (passes : Nat) (changed : Bool) (current : Recalculated)
    (h : schema.Lacks source current.entries)
    (hnull : Entry.AllNull (schema.graph.within source k) current.entries)
    (hstop : changed = false → Entry.AllNull (schema.graph.within source n) current.entries)
    (hpasses : n ≤ k + passes) :
    Entry.AllNull (schema.graph.within source n)
      (schema.repeatPasses order none passes changed current).entries := by
  induction passes generalizing changed current k with
  | zero =>
    unfold repeatPasses
    exact fun id hid => hnull id (schema.graph.monotone_within source hpasses hid)
  | succ passes ih =>
    cases changed with
    | false => exact hstop rfl
    | true =>
      simp only [repeatPasses]
      exact ih _ ⟨_, _⟩ (h.pass order) (allNull_pass_succ h hnull)
        (fun hunchanged => allNull_of_unchanged h hunchanged n) (by omega)

theorem allNull_recalculate (h : schema.Lacks source entries) {maxPasses : Nat}
    (hpasses : schema.derived.length ≤ maxPasses) :
    Entry.AllNull (schema.graph.within source schema.derived.length)
      (schema.recalculate order none maxPasses entries).entries := by
  have hfirst : Entry.AllNull (schema.graph.within source 1)
      (schema.pass order none entries).entries :=
    allNull_pass_succ h (by simp [InputGraph.within, Entry.AllNull])
  cases hsettles : schema.settlesAtOnce order with
  | true =>
    simp only [settlesAtOnce, Bool.and_eq_true, beq_iff_eq, Bool.not_eq_true'] at hsettles
    obtain ⟨rfl, hacyclic⟩ := hsettles
    rw [recalculate_of_hasCycle_eq_false hacyclic]
    exact allNull_pass_inputsFirst h hacyclic _
  | false =>
    simp only [recalculate]
    rw [hsettles, if_neg Bool.false_ne_true]
    exact allNull_repeatPasses _ _ _ (h.pass order) hfirst
      (fun hunchanged => allNull_of_unchanged h hunchanged _) (by omega)

/-- Recalculation with a pass for every computed field, in any order, empties everything downstream
of a field that is not computed and offers no number, be it missing, invalid or unknown. -/
theorem recalculate_of_missing (schema : Schema) (order : VisitOrder) (entries : List Entry)
    (hids : (entries.map Entry.id).Nodup) (source : String)
    (hplain : ∀ d ∈ schema.derived, d.id ≠ source)
    (hmissing : ∀ e ∈ entries, e.id = source → e.isValid = true → e.value.number? = none)
    (maxPasses : Nat) (hpasses : schema.derived.length ≤ maxPasses) :
    ∀ e ∈ entries, e.id ∈ schema.graph.downstream source →
      (Entry.find? (schema.recalculate order none maxPasses entries).entries e.id).map Entry.value =
        some .null := by
  intro e he hdownstream
  have hlacks : schema.Lacks source entries :=
    ⟨hids, hplain, Entry.operand?_eq_none hids fun f hf =>
      hmissing f (Entry.mem_of_find? hf) (Entry.id_of_find? hf)⟩
  have hwithin : e.id ∈ schema.graph.within source schema.derived.length := by
    have hmem := InputGraph.mem_within_of_mem_downstream e.id hdownstream
    rwa [derivedIds_graph, List.length_map] at hmem
  have hsome : (Entry.find? (schema.recalculate order none maxPasses entries).entries
      e.id).isSome = true := by
    rw [Entry.find?_isSome_iff, map_id_recalculate]
    exact List.mem_map_of_mem he
  obtain ⟨f, hf⟩ := Option.isSome_iff_exists.mp hsome
  rw [hf, Option.map_some, allNull_recalculate hlacks hpasses e.id hwithin f hf]

def account : Schema where
  definitions :=
    [⟨"opening", "Opening balance", .decimal, false, false, none⟩,
      ⟨"interest", "Interest", .decimal, false, false,
        some ⟨"\x7bbalance\x7d * 2", ["balance"], 2, false⟩⟩,
      ⟨"balance", "Balance", .decimal, false, false,
        some ⟨"\x7bopening\x7d + \x7binterest\x7d", ["opening", "interest"], 2, false⟩⟩]
  distinct := by decide

theorem recalculate_of_missing_account :
    let entries := [Entry.valid "opening" .null, .valid "interest" (.decimal 4),
      .valid "balance" (.decimal 3)]
    account.graph.hasCycle = true ∧
      Entry.find? (account.pass .asDefined none entries).entries "interest" =
        some (.valid "interest" (.decimal 6)) ∧
      ∀ e ∈ entries, e.id ∈ account.graph.downstream "opening" →
        (Entry.find? (account.recalculate .asDefined none 2 entries).entries e.id).map
          Entry.value = some .null := by
  intro entries
  exact ⟨by decide, by decide +kernel, recalculate_of_missing account .asDefined entries
    (by decide) "opening" (by decide) (by decide) 2 (by decide)⟩

end Schema

end DerivedForm
