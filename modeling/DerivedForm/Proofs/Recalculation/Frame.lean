import DerivedForm.Proofs.Dependency.Downstream
import DerivedForm.Proofs.Recalculation.Repetition

/-!
# What a recalculation does not see

A set of fields is on its own if its computed fields read only fields of the set. Lists of entries that
agree on such a set agree on it after a recalculation, and where the set is settled nothing happens to
it at all. This holds in any order, with cycles and with any number of passes, although the two
recalculations may end after different numbers of passes.
-/

namespace DerivedForm

namespace Entry

def AgreeOn (p : String → Prop) (entries others : List Entry) : Prop :=
  ∀ id, p id → find? entries id = find? others id

variable {p : String → Prop} {entries others more : List Entry}

theorem AgreeOn.refl (p : String → Prop) (entries : List Entry) : AgreeOn p entries entries :=
  fun _ _ => rfl

theorem AgreeOn.symm (h : AgreeOn p entries others) : AgreeOn p others entries :=
  fun id hid => (h id hid).symm

theorem AgreeOn.trans (h : AgreeOn p entries others) (h' : AgreeOn p others more) :
    AgreeOn p entries more :=
  fun id hid => (h id hid).trans (h' id hid)

end Entry

variable {schema : Schema} {p : String → Prop} {order : VisitOrder} {focused : Option String}
  {entries others : List Entry} {d : FieldDefinition}

namespace PassState

variable {s t : PassState} {ds : List FieldDefinition}

structure WellFormed (schema : Schema) (s : PassState) : Prop where
  consistent : s.Consistent
  over_values : s.values.Over schema

theorem WellFormed.visit (h : s.WellFormed schema) (hd : d ∈ schema.definitions)
    (focused : Option String) : (s.visit focused d).WellFormed schema :=
  ⟨h.consistent.visit focused d, Over.visit h.over_values hd focused⟩

theorem wellFormed_initial (h : schema.Lists entries) :
    WellFormed schema ⟨entries, Entry.bindings entries, []⟩ :=
  ⟨consistent_initial h.nodup, h.over⟩

theorem WellFormed.compute?_eq (hreads : schema.ReadsOnlyInputs)
    (hclosed : schema.ClosedUnderInputs p) (hs : s.WellFormed schema) (ht : t.WellFormed schema)
    (h : Entry.AgreeOn p s.entries t.entries) (hd : d ∈ schema.derived) (hid : p d.id) :
    d.compute? s.values = d.compute? t.values := by
  apply FieldDefinition.compute?_congr hreads (Schema.mem_derived.mp hd).1 hs.over_values
    ht.over_values
  intro input hinput
  apply Bindings.alike_of_operand?_eq
  rw [hs.consistent.operands, ht.consistent.operands]
  exact Schema.operand?_eq_of_find?_eq hs.consistent.ids ht.consistent.ids
    (h input (hclosed d hd hid input hinput))

theorem WellFormed.visit_agreeOn (hreads : schema.ReadsOnlyInputs)
    (hclosed : schema.ClosedUnderInputs p) (hs : s.WellFormed schema) (ht : t.WellFormed schema)
    (h : Entry.AgreeOn p s.entries t.entries) (hd : d ∈ schema.derived) :
    Entry.AgreeOn p (s.visit focused d).entries (t.visit focused d).entries := by
  intro id hid
  by_cases heq : id = d.id
  · subst heq
    cases hheld : d.isHeld focused with
    | true =>
      rw [visit_of_isHeld hheld, visit_of_isHeld hheld]
      exact h d.id hid
    | false =>
      rw [find?_visit hheld, find?_visit hheld, h d.id hid,
        hs.compute?_eq hreads hclosed ht h hd hid]
  · rw [find?_visit_of_ne heq, find?_visit_of_ne heq]
    exact h id hid

theorem WellFormed.foldl_visit_agreeOn (hreads : schema.ReadsOnlyInputs)
    (hclosed : schema.ClosedUnderInputs p) (hs : s.WellFormed schema) (ht : t.WellFormed schema)
    (h : Entry.AgreeOn p s.entries t.entries) (hds : ∀ d ∈ ds, d ∈ schema.derived) :
    Entry.AgreeOn p (ds.foldl (PassState.visit focused) s).entries
      (ds.foldl (PassState.visit focused) t).entries := by
  induction ds generalizing s t with
  | nil => exact h
  | cons d rest ih =>
    obtain ⟨hd, hrest⟩ := List.forall_mem_cons.mp hds
    have hmem := (Schema.mem_derived.mp hd).1
    exact ih (hs.visit hmem focused) (ht.visit hmem focused)
      (hs.visit_agreeOn hreads hclosed ht h hd) hrest

theorem WellFormed.visit_of_settledAt (hreads : schema.ReadsOnlyInputs)
    (hclosed : schema.ClosedUnderInputs p) (hs : s.WellFormed schema)
    (hlists : schema.Lists entries) (h : Entry.AgreeOn p s.entries entries) (hd : d ∈ schema.derived)
    (hsettled : p d.id → d.isHeld focused = false → Schema.SettledAt entries d) :
    Entry.AgreeOn p (s.visit focused d).entries entries := by
  intro id hid
  by_cases heq : id = d.id
  · subst heq
    cases hheld : d.isHeld focused with
    | true =>
      rw [visit_of_isHeld hheld]
      exact h d.id hid
    | false =>
      rw [find?_visit hheld, h d.id hid,
        hs.compute?_eq hreads hclosed (wellFormed_initial hlists) h hd hid]
      cases hfind : Entry.find? entries d.id with
      | none => rfl
      | some e => rw [Option.map_some, hsettled hid hheld e hfind]
  · rw [find?_visit_of_ne heq]
    exact h id hid

theorem WellFormed.foldl_visit_of_settledAt (hreads : schema.ReadsOnlyInputs)
    (hclosed : schema.ClosedUnderInputs p) (hs : s.WellFormed schema)
    (hlists : schema.Lists entries) (h : Entry.AgreeOn p s.entries entries)
    (hds : ∀ d ∈ ds, d ∈ schema.derived)
    (hsettled : ∀ d ∈ ds, p d.id → d.isHeld focused = false → Schema.SettledAt entries d) :
    Entry.AgreeOn p (ds.foldl (PassState.visit focused) s).entries entries := by
  induction ds generalizing s with
  | nil => exact h
  | cons d rest ih =>
    obtain ⟨hd, hrest⟩ := List.forall_mem_cons.mp hds
    obtain ⟨hfirst, hlater⟩ := List.forall_mem_cons.mp hsettled
    exact ih (hs.visit (Schema.mem_derived.mp hd).1 focused)
      (hs.visit_of_settledAt hreads hclosed hlists h hd hfirst) hrest hlater

end PassState

namespace Schema

def SettledOn (schema : Schema) (p : String → Prop) (focused : Option String)
    (entries : List Entry) : Prop :=
  ∀ d ∈ schema.derived, p d.id → d.isHeld focused = false → SettledAt entries d

theorem Settled.on (h : schema.Settled focused entries) (p : String → Prop) :
    schema.SettledOn p focused entries :=
  fun d hd _ hheld => h d hd hheld

theorem SettledOn.of_agreeOn (hreads : schema.ReadsOnlyInputs)
    (hclosed : schema.ClosedUnderInputs p) (hlists : schema.Lists entries)
    (hlists' : schema.Lists others) (hsettled : schema.SettledOn p focused entries)
    (h : Entry.AgreeOn p entries others) : schema.SettledOn p focused others := by
  intro d hd hid hheld e he
  have hcompute := (PassState.wellFormed_initial hlists).compute?_eq hreads hclosed
    (PassState.wellFormed_initial hlists') h hd hid
  rw [← hcompute]
  exact hsettled d hd hid hheld e ((h d.id hid).trans he)

/-- A pass sees only the set itself. -/
theorem pass_agreeOn (hreads : schema.ReadsOnlyInputs) (hclosed : schema.ClosedUnderInputs p)
    (hlists : schema.Lists entries) (hlists' : schema.Lists others)
    (h : Entry.AgreeOn p entries others) (order : VisitOrder) (focused : Option String) :
    Entry.AgreeOn p (schema.pass order focused entries).entries
      (schema.pass order focused others).entries :=
  (PassState.wellFormed_initial hlists).foldl_visit_agreeOn hreads hclosed
    (PassState.wellFormed_initial hlists') h fun _ hd => mem_visits.mp hd

theorem pass_of_settledOn (hreads : schema.ReadsOnlyInputs)
    (hclosed : schema.ClosedUnderInputs p) (hlists : schema.Lists entries)
    (hsettled : schema.SettledOn p focused entries) (order : VisitOrder) :
    Entry.AgreeOn p (schema.pass order focused entries).entries entries :=
  (PassState.wellFormed_initial hlists).foldl_visit_of_settledAt hreads hclosed hlists
    (Entry.AgreeOn.refl p entries) (fun _ hd => mem_visits.mp hd)
    fun d hd => hsettled d (mem_visits.mp hd)

theorem repeatPasses_false (schema : Schema) (order : VisitOrder) (focused : Option String)
    (passes : Nat) (current : Recalculated) :
    schema.repeatPasses order focused passes false current = current := by
  cases passes with
  | zero => rfl
  | succ passes => rfl

theorem repeatPasses_of_settledOn (hreads : schema.ReadsOnlyInputs)
    (hclosed : schema.ClosedUnderInputs p) (hlists : schema.Lists entries)
    (hsettled : schema.SettledOn p focused entries) (passes : Nat) (changed : Bool)
    {current : Recalculated} (hcurrent : schema.Lists current.entries)
    (h : Entry.AgreeOn p current.entries entries) :
    Entry.AgreeOn p (schema.repeatPasses order focused passes changed current).entries entries := by
  refine (repeatPasses_induction
    (P := fun others => schema.Lists others ∧ Entry.AgreeOn p others entries)
    (fun others hothers => ⟨hothers.1.pass _ _, ?_⟩) passes changed ⟨hcurrent, h⟩).2
  have hsettled' := hsettled.of_agreeOn hreads hclosed hlists hothers.1 hothers.2.symm
  exact (pass_of_settledOn hreads hclosed hothers.1 hsettled' order).trans hothers.2

/-- The loops of passes may end at different times: whichever is over first has settled the set. -/
theorem repeatPasses_agreeOn (hreads : schema.ReadsOnlyInputs)
    (hclosed : schema.ClosedUnderInputs p) (passes : Nat) {changed changed' : Bool}
    {current current' : Recalculated} (hfits : schema.Fits current.entries)
    (hfits' : schema.Fits current'.entries)
    (hstop : changed = false → schema.SettledOn p focused current.entries)
    (hstop' : changed' = false → schema.SettledOn p focused current'.entries)
    (h : Entry.AgreeOn p current.entries current'.entries) :
    Entry.AgreeOn p (schema.repeatPasses order focused passes changed current).entries
      (schema.repeatPasses order focused passes changed' current').entries := by
  induction passes generalizing changed changed' current current' with
  | zero =>
    unfold repeatPasses
    exact h
  | succ passes ih =>
    cases changed with
    | false =>
      rw [repeatPasses_false]
      exact (repeatPasses_of_settledOn hreads hclosed hfits.lists (hstop rfl) _ _ hfits'.lists
        h.symm).symm
    | true =>
      cases changed' with
      | false =>
        rw [repeatPasses_false]
        exact repeatPasses_of_settledOn hreads hclosed hfits'.lists (hstop' rfl) _ _ hfits.lists h
      | true =>
        simp only [repeatPasses]
        exact ih (hfits.pass order focused) (hfits'.pass order focused)
          (fun hunchanged => (settled_of_unchanged hreads hfits hunchanged).on p)
          (fun hunchanged => (settled_of_unchanged hreads hfits' hunchanged).on p)
          (pass_agreeOn hreads hclosed hfits.lists hfits'.lists h order focused)

theorem recalculate_agreeOn (hreads : schema.ReadsOnlyInputs)
    (hclosed : schema.ClosedUnderInputs p) (hfits : schema.Fits entries)
    (hfits' : schema.Fits others) (h : Entry.AgreeOn p entries others) (order : VisitOrder)
    (focused : Option String) (maxPasses : Nat) :
    Entry.AgreeOn p (schema.recalculate order focused maxPasses entries).entries
      (schema.recalculate order focused maxPasses others).entries := by
  have hfirst := pass_agreeOn hreads hclosed hfits.lists hfits'.lists h order focused
  simp only [recalculate]
  split
  · exact hfirst
  · exact repeatPasses_agreeOn hreads hclosed _ (hfits.pass order focused)
      (hfits'.pass order focused)
      (fun hunchanged => (settled_of_unchanged hreads hfits hunchanged).on p)
      (fun hunchanged => (settled_of_unchanged hreads hfits' hunchanged).on p) hfirst

theorem recalculate_of_settledOn (hreads : schema.ReadsOnlyInputs)
    (hclosed : schema.ClosedUnderInputs p) (hlists : schema.Lists entries)
    (hsettled : schema.SettledOn p focused entries) (order : VisitOrder) (maxPasses : Nat) :
    Entry.AgreeOn p (schema.recalculate order focused maxPasses entries).entries entries := by
  have hfirst := pass_of_settledOn hreads hclosed hlists hsettled order
  simp only [recalculate]
  split
  · exact hfirst
  · exact repeatPasses_of_settledOn hreads hclosed hlists hsettled _ _ (hlists.pass _ _) hfirst

theorem agreeOn_of_settled (hreads : schema.ReadsOnlyInputs)
    (hacyclic : schema.graph.hasCycle = false) (hclosed : schema.ClosedUnderInputs p)
    (h : schema.Fits entries) (hothers : schema.Fits others)
    (hsettled : ∀ d ∈ schema.derived, p d.id → SettledAt entries d)
    (hsettled' : ∀ d ∈ schema.derived, p d.id → SettledAt others d)
    (hplain : ∀ id, schema.IsSource none id → Entry.find? entries id = Entry.find? others id) :
    Entry.AgreeOn p entries others := by
  intro id hid
  rcases isSource_or schema none id with hsource | ⟨d, hd, rfl, -⟩
  · exact hplain id hsource
  · apply find?_eq_of_settledAt hreads hacyclic h hothers (c := fun d => p d.id) hsettled hsettled'
      _ hd hid
    intro d hd hin input hinput
    rcases isSource_or schema none input with hsource | ⟨d', hd', rfl, -⟩
    · exact Or.inl (Bindings.alike_of_operand?_eq
        (operand?_eq_of_find?_eq h.lists.nodup hothers.lists.nodup (hplain input hsource)))
    · exact Or.inr ⟨d', hd', rfl, hclosed d hd hin _ hinput⟩

end Schema

/-!
## How far an edit reaches

A list that a pass leaves as it is is settled: every field is visited once, so at each moment of the
pass all entries are as before it. If one entry of a settled list is replaced, the fields out of its
reach are still settled, and no pass touches them, in whatever order, with cycles and however many
passes there are.
-/

namespace Schema

variable {schema : Schema} {order : VisitOrder} {focused : Option String} {entries : List Entry}

theorem settled_of_pass_eq (hreads : schema.ReadsOnlyInputs) (h : schema.Lists entries)
    (hsame : (schema.pass order focused entries).entries = entries) :
    schema.Settled focused entries := by
  intro d hd hheld e he
  obtain ⟨s, hs, hover, hfind, hmoment, -⟩ := exists_visit h order hd hheld
  rw [hsame] at hfind hmoment
  have hcompute : d.compute? s.values = d.compute? (Entry.bindings entries) := by
    apply FieldDefinition.compute?_congr hreads (mem_derived.mp hd).1 hover h.over
    intro input _
    apply Bindings.alike_of_operand?_eq
    rw [hs.operands]
    exact operand?_eq_of_find?_eq hs.ids h.nodup ((hmoment input).elim id id)
  rw [he, Option.map_some, hcompute] at hfind
  exact (Option.some.inj hfind).symm

/-- The lists hold the same ids at the same places, and the same entries out of the reach of a
source. -/
def SameBeyond (schema : Schema) (source : String) : List Entry → List Entry → Prop :=
  List.Forall₂ fun e f => f.id = e.id ∧ (schema.OutOfReach source e.id → f = e)

theorem sameBeyond_of_agreeOn {others : List Entry} {source : String}
    (hids : others.map Entry.id = entries.map Entry.id) (hnodup : (entries.map Entry.id).Nodup)
    (h : Entry.AgreeOn (schema.OutOfReach source) others entries) :
    schema.SameBeyond source entries others := by
  apply Entry.forall₂_of_find? hids.symm hnodup
  intro id
  cases hold : Entry.find? entries id with
  | none =>
    have hnone : Entry.find? others id = none := by
      rw [← Option.not_isSome_iff_eq_none, Entry.find?_isSome_iff, hids,
        ← Entry.find?_isSome_iff, hold]
      exact Bool.false_ne_true
    rw [hnone]
    exact .none
  | some e =>
    have hsome : (Entry.find? others id).isSome = true := by
      rw [Entry.find?_isSome_iff, hids, ← Entry.find?_isSome_iff, hold]
      rfl
    obtain ⟨f, hf⟩ := Option.isSome_iff_exists.mp hsome
    have hid : e.id = id := Entry.id_of_find? hold
    rw [hf]
    refine .some ⟨(Entry.id_of_find? hf).trans hid.symm, fun hreach => ?_⟩
    have hsame := h id (hid ▸ hreach)
    rw [hf, hold] at hsame
    exact Option.some.inj hsame

/-- If a pass leaves a list as it is, then replacing one entry of it changes nothing but this entry
and what is downstream of it, neither in one pass nor in a recalculation. -/
theorem recalculate_replaced (schema : Schema) (hreads : schema.ReadsOnlyInputs)
    (order : VisitOrder) (focused : Option String) (entries : List Entry)
    (hids : (entries.map Entry.id).Nodup) (hknown : ∀ e ∈ entries, schema.contains e.id = true)
    (hsame : (schema.pass order focused entries).entries = entries) (replacement : Entry) :
    let edited := Entry.modifyFirst replacement.id (fun _ => replacement) entries
    schema.SameBeyond replacement.id entries (schema.pass order focused edited).entries ∧
      ∀ maxPasses, schema.SameBeyond replacement.id entries
        (schema.recalculate order focused maxPasses edited).entries := by
  intro edited
  have hlists : schema.Lists entries := ⟨hids, hknown⟩
  have hedited : edited.map Entry.id = entries.map Entry.id :=
    Entry.map_id_modifyFirst (fun _ => rfl) entries
  have hlists' : schema.Lists edited := hlists.of_map_id_eq hedited
  have hclosed := schema.closed_outOfReach replacement.id
  have hagree : Entry.AgreeOn (schema.OutOfReach replacement.id) edited entries := fun id hid =>
    Entry.find?_modifyFirst_of_ne (fun _ => rfl) hid.1 entries
  have hsettled : schema.SettledOn (schema.OutOfReach replacement.id) focused edited :=
    ((settled_of_pass_eq hreads hlists hsame).on _).of_agreeOn hreads hclosed hlists hlists'
      hagree.symm
  constructor
  · apply sameBeyond_of_agreeOn ((map_id_pass _ _ _ _).trans hedited) hids
    exact (pass_of_settledOn hreads hclosed hlists' hsettled order).trans hagree
  · intro maxPasses
    apply sameBeyond_of_agreeOn ((map_id_recalculate _ _ _ _ _).trans hedited) hids
    exact (recalculate_of_settledOn hreads hclosed hlists' hsettled order maxPasses).trans hagree

theorem recalculate_replaced_loopedInvoice :
    let entries := [Entry.valid "note" (.text "gift"), .valid "net" (.integer 100),
      .valid "total" (.decimal 125), .valid "gross" (.decimal 120),
      .valid "debit" (.decimal 0), .valid "credit" (.decimal 0)]
    let edited := Entry.modifyFirst "net" (fun _ => .valid "net" (.integer 50)) entries
    loopedInvoice.graph.hasCycle = true ∧
      (loopedInvoice.pass .asDefined none entries).entries = entries ∧
      (loopedInvoice.recalculate .asDefined none 3 edited).entries =
        [.valid "note" (.text "gift"), .valid "net" (.integer 50),
          .valid "total" (.decimal 65), .valid "gross" (.decimal 60),
          .valid "debit" (.decimal 0), .valid "credit" (.decimal 0)] ∧
      loopedInvoice.SameBeyond "net" entries
        (loopedInvoice.recalculate .asDefined none 3 edited).entries := by
  intro entries edited
  have hsame : (loopedInvoice.pass .asDefined none entries).entries = entries := by decide +kernel
  exact ⟨by decide, hsame, by decide +kernel,
    (recalculate_replaced loopedInvoice readsOnlyInputs_loopedInvoice .asDefined none entries
      (by decide) (by decide) hsame (.valid "net" (.integer 50))).2 3⟩

end Schema

end DerivedForm
