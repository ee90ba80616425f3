import DerivedForm.Proofs.Number.Exact
import DerivedForm.Proofs.Value.Equality
import DerivedForm.Recalculation.Basic

/-!
# Lists of changes

A list that has at most one change of each field is determined by what is found under each id. Combining
two lists puts the later change of a field behind its earlier one, and drops the result where it leads
back to an equal value. As long as the values in between are ones that equality tells apart, this tells
the whole way from the first value to the last.
-/

namespace DerivedForm

namespace Change

def of? (changes : List Change) (id : String) : Option Change :=
  changes.find? fun change => change.id == id

def andThen (earlier later : Change) : Change := { earlier with current := later.current }

variable {changes earlier later : List Change} {c : Change} {id : String}

theorem of?_cons_self (c : Change) (rest : List Change) : of? (c :: rest) c.id = some c :=
  List.find?_cons_of_pos (beq_self_eq_true c.id)

theorem of?_cons_of_ne (h : c.id ≠ id) (rest : List Change) : of? (c :: rest) id = of? rest id :=
  List.find?_cons_of_neg (by simpa using h)

theorem of?_eq_none_iff : of? changes id = none ↔ id ∉ changes.map Change.id := by
  simp [of?, List.find?_eq_none]

theorem of?_eq_some_iff (hids : (changes.map Change.id).Nodup) :
    of? changes id = some c ↔ c ∈ changes ∧ c.id = id := by
  constructor
  · intro h
    exact ⟨List.mem_of_find?_eq_some h, by simpa using List.find?_some h⟩
  · rintro ⟨hc, rfl⟩
    cases hfound : of? changes c.id with
    | none => exact absurd (List.mem_map_of_mem hc) (of?_eq_none_iff.mp hfound)
    | some found =>
      have hfoundId : found.id = c.id := by simpa using List.find?_some hfound
      have hsame : found = c :=
        List.inj_on_of_nodup_map hids (List.mem_of_find?_eq_some hfound) hc hfoundId
      rw [hsame]

theorem of?_add (c : Change) (changes : List Change) (id : String) :
    of? (c.add changes) id =
      if c.id = id then Option.merge andThen (of? changes id) (some c) else of? changes id := by
  induction changes with
  | nil =>
    split
    · rename_i heq
      subst heq
      exact of?_cons_self c []
    · exact of?_cons_of_ne ‹_› []
  | cons first rest ih =>
    unfold add
    by_cases hfirst : first.id = id
    · subst hfirst
      rw [of?_cons_self]
      by_cases hc : first.id = c.id
      · rw [if_pos hc, if_pos hc.symm]
        exact of?_cons_self (first.andThen c) rest
      · rw [if_neg hc, if_neg (Ne.symm hc), of?_cons_self]
    · rw [of?_cons_of_ne hfirst]
      by_cases hc : first.id = c.id
      · rw [if_pos hc, if_neg (hc ▸ hfirst)]
        exact of?_cons_of_ne (c := first.andThen c) hfirst rest
      · rw [if_neg hc, of?_cons_of_ne hfirst, ih]

theorem mem_ids_add : id ∈ (c.add changes).map Change.id ↔ id = c.id ∨ id ∈ changes.map Change.id := by
  rw [← not_iff_not, not_or, ← of?_eq_none_iff, ← of?_eq_none_iff, of?_add]
  by_cases hid : c.id = id
  · rw [if_pos hid]
    cases of? changes id <;> simp [hid]
  · rw [if_neg hid]
    exact ⟨fun h => ⟨Ne.symm hid, h⟩, And.right⟩

theorem nodup_ids_add (h : (changes.map Change.id).Nodup) (c : Change) :
    ((c.add changes).map Change.id).Nodup := by
  induction changes with
  | nil => exact List.nodup_singleton _
  | cons first rest ih =>
    obtain ⟨hfirst, hrest⟩ := List.nodup_cons.mp h
    unfold add
    split
    · exact h
    · rename_i hne
      refine List.nodup_cons.mpr ⟨fun hmem => ?_, ih hrest⟩
      rcases mem_ids_add.mp hmem with heq | hmem
      · exact hne heq
      · exact hfirst hmem

theorem of?_foldl_add (hlater : (later.map Change.id).Nodup) (earlier : List Change) (id : String) :
    of? (later.foldl (fun changes change => change.add changes) earlier) id =
      Option.merge andThen (of? earlier id) (of? later id) := by
  induction later generalizing earlier with
  | nil => exact Option.merge_none_right.symm
  | cons c rest ih =>
    obtain ⟨hc, hrest⟩ := List.nodup_cons.mp hlater
    rw [List.foldl_cons, ih hrest, of?_add]
    by_cases hid : c.id = id
    · subst hid
      rw [if_pos rfl, of?_cons_self, of?_eq_none_iff.mpr hc, Option.merge_none_right]
    · rw [if_neg hid, of?_cons_of_ne hid]

theorem nodup_ids_foldl_add (h : (earlier.map Change.id).Nodup) (later : List Change) :
    ((later.foldl (fun changes change => change.add changes) earlier).map Change.id).Nodup := by
  induction later generalizing earlier with
  | nil => exact h
  | cons c rest ih => exact ih (nodup_ids_add h c)

theorem nodup_ids_filter (h : (changes.map Change.id).Nodup) (p : Change → Bool) :
    ((changes.filter p).map Change.id).Nodup :=
  h.sublist (List.filter_sublist.map Change.id)

theorem nodup_ids_combine (h : (earlier.map Change.id).Nodup) (later : List Change) :
    ((combine earlier later).map Change.id).Nodup :=
  nodup_ids_filter (nodup_ids_foldl_add h later) _

theorem of?_filter (h : (changes.map Change.id).Nodup) (p : Change → Bool) (id : String) :
    of? (changes.filter p) id = (of? changes id).filter p := by
  have hfilter := nodup_ids_filter h p
  ext c
  rw [Option.filter_eq_some_iff, of?_eq_some_iff hfilter, of?_eq_some_iff h, List.mem_filter]
  exact and_right_comm

theorem of?_combine (hearlier : (earlier.map Change.id).Nodup) (hlater : (later.map Change.id).Nodup)
    (id : String) :
    of? (combine earlier later) id =
      (Option.merge andThen (of? earlier id) (of? later id)).filter
        fun c => !c.previous.equals c.current := by
  rw [combine, of?_filter (nodup_ids_foldl_add hearlier later), of?_foldl_add hlater]

end Change

open DerivedForm.Number (Binary64 Finite)

namespace Value

inductive IsResult : Value → Prop
  | null : IsResult .null
  | integer (n : Int64) : IsResult (.integer n)
  | decimal {x : Finite} (h : x.Normalized) : IsResult (.decimal (.finite x))

/-- The value itself, or the positive zero for the negative one. -/
def Recalls (previous v : Value) : Prop :=
  previous = v ∨ v = .decimal (-0) ∧ previous = .decimal 0

variable {previous u v w : Value}

theorem IsResult.eq_of_equals (hv : v.IsResult) (hw : w.IsResult) (h : v.equals w = true) :
    v = w := by
  cases hv with
  | null => cases hw <;> first | rfl | cases h
  | integer m =>
    cases hw with
    | integer n => rw [beq_iff_eq.mp h]
    | null | decimal => cases h
  | decimal hx =>
    cases hw with
    | decimal hy => rw [Finite.eq_of_same_of_normalized hx hy h]
    | null | integer => cases h

theorem IsResult.eq_of_recalls (hv : v.IsResult) (h : previous.Recalls v) : previous = v := by
  rcases h with rfl | ⟨rfl, -⟩
  · rfl
  · generalize hzero : (-0 : Binary64) = a at hv
    cases hv with
    | decimal hx =>
      obtain rfl := Binary64.finite.inj hzero
      exact absurd (hx (by decide +kernel)) (by decide +kernel)

theorem IsResult.recalls_of_equals (hv : v.IsResult) (h : v.equals u = true) : v.Recalls u := by
  cases hv with
  | null => cases u <;> first | exact Or.inl rfl | cases h
  | integer n =>
    cases u with
    | integer m => exact Or.inl (by rw [beq_iff_eq.mp h])
    | null | text | decimal | date => cases h
  | @decimal x hx =>
    cases u with
    | null | text | integer | date => cases h
    | decimal a =>
      cases a with
      | nan | infinite => cases h
      | finite y =>
        rcases Finite.eq_or_zero_of_same h with rfl | ⟨hxzero, hyzero⟩
        · exact Or.inl rfl
        · obtain rfl : x = .zero false := hx hxzero ▸ Finite.eq_zero_of_magnitude hxzero
          rw [Finite.eq_zero_of_magnitude hyzero]
          cases y.negative with
          | false => exact Or.inl rfl
          | true => exact Or.inr ⟨by decide +kernel, by decide +kernel⟩

theorem Recalls.equals_eq (h : previous.Recalls v) (w : Value) : previous.equals w = v.equals w := by
  rcases h with rfl | ⟨rfl, rfl⟩
  · rfl
  · have hzeros : (Value.decimal 0).equals (.decimal (-0)) = true := by decide +kernel
    rw [Bool.eq_iff_iff]
    exact ⟨equals_trans (equals_symm hzeros), equals_trans hzeros⟩

end Value

namespace Change

/-- What a report says of a field with a value before and one after: nothing if they are equal, else the
change from the one to the other. -/
inductive Tells (id : String) (before after : Value) : Option Change → Prop
  | kept (h : after.equals before = true) : Tells id before after none
  | changed {previous : Value} (hprevious : previous.Recalls before)
      (h : after.equals before = false) : Tells id before after (some ⟨id, previous, after⟩)

variable {c : Change} {id : String}

theorem Tells.of_none {before after : Value} (h : Tells id before after none) :
    after.equals before = true := by
  cases h with
  | kept h => exact h

theorem Tells.of_some {before after : Value} (h : Tells id before after (some c)) :
    c.previous.Recalls before ∧ c.current = after ∧ after.equals before = false := by
  obtain ⟨own, previous, current⟩ := c
  cases h with
  | changed hprevious h => exact ⟨hprevious, rfl, h⟩

/-- A change that has led back is forgotten, so the next one starts from a value equal to the first. -/
theorem Tells.combine {u v w : Value} {r s : Option Change} (h : Tells id u v r)
    (h' : Tells id v w s) (hv : v.IsResult) (hw : w.IsResult) :
    Tells id u w ((Option.merge andThen r s).filter fun c => !c.previous.equals c.current) := by
  cases h with
  | kept hkept =>
    cases h' with
    | kept hkept' => exact .kept (Value.equals_trans hkept' hkept)
    | changed hprevious hne =>
      obtain rfl := hv.eq_of_recalls hprevious
      have hrecalls := hv.recalls_of_equals hkept
      rw [Value.equals_comm] at hne
      have hne' : w.equals u = false := by
        rw [Value.equals_comm, ← hrecalls.equals_eq, hne]
      simp only [Option.merge_none_left, Option.filter_some, hne, Bool.not_false, if_true]
      exact .changed hrecalls hne'
  | @changed previous hprevious hne =>
    cases h' with
    | kept hkept' =>
      obtain rfl := hw.eq_of_equals hv hkept'
      have hleft : previous.equals w = false := by
        rw [hprevious.equals_eq, Value.equals_comm, hne]
      simp only [Option.merge_none_right, Option.filter_some, hleft, Bool.not_false, if_true]
      exact .changed hprevious hne
    | @changed _ _ _ =>
      have hleft : previous.equals w = w.equals u := by
        rw [hprevious.equals_eq, Value.equals_comm]
      simp only [Option.merge_some_some, andThen, Option.filter_some, hleft]
      cases hback : w.equals u with
      | true => exact .kept hback
      | false => exact .changed hprevious hback

end Change

end DerivedForm
