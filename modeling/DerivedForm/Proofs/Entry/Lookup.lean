import DerivedForm.Recalculation.Basic
import Mathlib.Data.List.Forall2

/-!
# Looking up entries

A list whose ids are all different is determined by its ids and by what is found under each of
them. Its bindings hold the value that is found, if it is valid.
-/

namespace DerivedForm

namespace Entry

theorem id_of_find? {entries : List Entry} {id : String} {e : Entry}
    (h : find? entries id = some e) : e.id = id := by
  simpa using List.find?_some h

theorem mem_of_find? {entries : List Entry} {id : String} {e : Entry}
    (h : find? entries id = some e) : e ∈ entries :=
  List.mem_of_find?_eq_some h

theorem find?_isSome_iff {entries : List Entry} {id : String} :
    (find? entries id).isSome = true ↔ id ∈ entries.map Entry.id := by
  simp [find?, List.find?_isSome]

theorem find?_cons_self (e : Entry) (rest : List Entry) : find? (e :: rest) e.id = some e := by
  simp [find?]

theorem find?_cons_of_ne {e : Entry} {id : String} (h : e.id ≠ id) (rest : List Entry) :
    find? (e :: rest) id = find? rest id := by
  simp [find?, h]

theorem find?_of_mem {entries : List Entry} (hids : (entries.map Entry.id).Nodup) {e : Entry}
    (h : e ∈ entries) : find? entries e.id = some e := by
  induction entries with
  | nil => cases h
  | cons first rest ih =>
    obtain ⟨hfirst, hrest⟩ := List.nodup_cons.mp hids
    rcases List.mem_cons.mp h with rfl | hmem
    · exact find?_cons_self _ _
    · have hne : first.id ≠ e.id := fun heq => hfirst (heq ▸ List.mem_map_of_mem hmem)
      rw [find?_cons_of_ne hne]
      exact ih hrest hmem

theorem find?_modifyFirst_of_ne {id other : String} {f : Entry → Entry}
    (hf : ∀ e, (f e).id = id) (h : other ≠ id) (entries : List Entry) :
    find? (modifyFirst id f entries) other = find? entries other := by
  induction entries with
  | nil => rfl
  | cons e rest ih =>
    unfold modifyFirst
    split
    · rename_i heq
      have hid : e.id = id := beq_iff_eq.mp heq
      rw [find?_cons_of_ne (by rw [hf]; exact h.symm), find?_cons_of_ne (by rw [hid]; exact h.symm)]
    · by_cases hother : e.id = other
      · subst hother
        rw [find?_cons_self, find?_cons_self]
      · rw [find?_cons_of_ne hother, find?_cons_of_ne hother, ih]

theorem modifyFirst_of_find? {entries : List Entry} {id : String} {e : Entry}
    (h : find? entries id = some e) : modifyFirst id (fun _ => e) entries = entries := by
  induction entries with
  | nil => rfl
  | cons first rest ih =>
    unfold modifyFirst
    split
    · rename_i heq
      have hid : first.id = id := beq_iff_eq.mp heq
      rw [← hid, find?_cons_self] at h
      rw [Option.some.inj h]
    · rename_i hne
      rw [find?_cons_of_ne (fun heq => hne (beq_iff_eq.mpr heq))] at h
      rw [ih h]

theorem modifyFirst_of_notMem {entries : List Entry} {id : String}
    (h : id ∉ entries.map Entry.id) (f : Entry → Entry) : modifyFirst id f entries = entries := by
  induction entries with
  | nil => rfl
  | cons first rest ih =>
    obtain ⟨hne, hrest⟩ := List.ne_and_not_mem_of_not_mem_cons h
    rw [modifyFirst, if_neg (fun heq => hne (beq_iff_eq.mp heq).symm), ih hrest]

theorem getElem?_of_findIdx? {entries : List Entry} {id : String} {i : Nat}
    (h : entries.findIdx? (fun e => e.id == id) = some i) :
    entries[i]? = find? entries id := by
  induction entries generalizing i with
  | nil => cases h
  | cons first rest ih =>
    rw [List.findIdx?_cons] at h
    split at h
    · rename_i hfirst
      cases h
      simp [find?, hfirst]
    · rename_i hfirst
      obtain ⟨j, hj, rfl⟩ := Option.map_eq_some_iff.mp h
      rw [List.getElem?_cons_succ, ih hj, find?_cons_of_ne (fun heq => hfirst (by simp [heq]))]

theorem set_of_findIdx? {entries : List Entry} {id : String} {i : Nat}
    (h : entries.findIdx? (fun e => e.id == id) = some i) (e : Entry) :
    entries.set i e = modifyFirst id (fun _ => e) entries := by
  induction entries generalizing i with
  | nil => cases h
  | cons first rest ih =>
    rw [List.findIdx?_cons] at h
    unfold modifyFirst
    split at h
    · rename_i hfirst
      cases h
      rw [if_pos hfirst, List.set_cons_zero]
    · rename_i hfirst
      obtain ⟨j, hj, rfl⟩ := Option.map_eq_some_iff.mp h
      rw [if_neg hfirst, List.set_cons_succ, ih hj]

theorem forall₂_of_find? {R : Entry → Entry → Prop} {entries others : List Entry}
    (hids : entries.map Entry.id = others.map Entry.id) (hnodup : (entries.map Entry.id).Nodup)
    (h : ∀ id, Option.Rel R (find? entries id) (find? others id)) :
    List.Forall₂ R entries others := by
  induction entries generalizing others with
  | nil =>
    obtain rfl : others = [] := by simpa using hids.symm
    exact .nil
  | cons e rest ih =>
    cases others with
    | nil => simp at hids
    | cons f more =>
      simp only [List.map_cons, List.cons.injEq] at hids
      obtain ⟨hfirst, hrest⟩ := List.nodup_cons.mp hnodup
      have hhead := h e.id
      rw [find?_cons_self, hids.1, find?_cons_self] at hhead
      have htail : ∀ id, Option.Rel R (find? rest id) (find? more id) := by
        intro id
        by_cases heq : e.id = id
        · have hnone : find? rest id = none := by
            rw [← Option.not_isSome_iff_eq_none, find?_isSome_iff, ← heq]
            exact hfirst
          have hnone' : find? more id = none := by
            rw [← Option.not_isSome_iff_eq_none, find?_isSome_iff, ← heq, ← hids.2]
            exact hfirst
          rw [hnone, hnone']
          exact .none
        · have hother := h id
          rwa [find?_cons_of_ne heq, find?_cons_of_ne (hids.1 ▸ heq)] at hother
      cases hhead with
      | some hef => exact .cons hef (ih hids.2 hrest htail)

theorem eq_of_find?_eq {entries others : List Entry}
    (hids : entries.map Entry.id = others.map Entry.id) (hnodup : (entries.map Entry.id).Nodup)
    (h : ∀ id, find? entries id = find? others id) : entries = others := by
  rw [← List.forall₂_eq_eq_eq]
  apply forall₂_of_find? hids hnodup
  intro id
  rw [h id]
  cases find? others id with
  | none => exact .none
  | some e => exact .some rfl

end Entry

namespace Bindings

theorem mem_ids_insert {bindings : Bindings} {id key : String} {value : Value} :
    key ∈ (bindings.insert id value).ids ↔ key = id ∨ key ∈ bindings.ids := by
  induction bindings with
  | nil => simp [insert, ids]
  | cons pair rest ih =>
    obtain ⟨k, v⟩ := pair
    unfold insert
    split
    · rename_i heq
      simp [ids, beq_iff_eq.mp heq]
    · simp only [ids, List.map_cons, List.mem_cons] at ih ⊢
      rw [ih]
      exact or_left_comm

theorem nodup_ids_insert {bindings : Bindings} (h : bindings.ids.Nodup) (id : String)
    (value : Value) : (bindings.insert id value).ids.Nodup := by
  induction bindings with
  | nil => simp [insert, ids]
  | cons pair rest ih =>
    obtain ⟨k, v⟩ := pair
    obtain ⟨hk, hrest⟩ := List.nodup_cons.mp h
    unfold insert
    split
    · rename_i heq
      rw [beq_iff_eq.mp heq]
      exact h
    · rename_i hne
      refine List.nodup_cons.mpr ⟨?_, ih hrest⟩
      intro hmem
      rcases mem_ids_insert.mp hmem with heq | hmem
      · exact hne (beq_iff_eq.mpr heq.symm)
      · exact hk hmem

theorem get?_foldl_insert {pairs : List (String × Value)} (h : (pairs.map Prod.fst).Nodup)
    (bindings : Bindings) (key : String) :
    (pairs.foldl (fun m (id, value) => m.insert id value) bindings).get? key =
      (pairs.lookup key).or (bindings.get? key) := by
  induction pairs generalizing bindings with
  | nil => rfl
  | cons pair rest ih =>
    obtain ⟨k, v⟩ := pair
    obtain ⟨hk, hrest⟩ := List.nodup_cons.mp h
    rw [List.foldl_cons, ih hrest, get?_insert, List.lookup_cons]
    by_cases heq : key = k
    · subst heq
      have hnone : rest.lookup key = none := by
        rw [List.lookup_eq_none_iff]
        intro p hp
        have hmem : p.1 ∈ rest.map Prod.fst := List.mem_map_of_mem hp
        exact bne_iff_ne.mpr fun heq => hk (heq ▸ hmem)
      simp [hnone]
    · simp [heq, beq_eq_false_iff_ne.mpr heq]

theorem get?_ofList {pairs : List (String × Value)} (h : (pairs.map Prod.fst).Nodup)
    (key : String) : (ofList pairs).get? key = pairs.lookup key := by
  rw [ofList, get?_foldl_insert h]
  simp [get?]

theorem nodup_ids_ofList (pairs : List (String × Value)) : (ofList pairs).ids.Nodup := by
  suffices h : ∀ bindings : Bindings, bindings.ids.Nodup →
      (pairs.foldl (fun m (id, value) => m.insert id value) bindings).ids.Nodup from
    h [] (by simp [ids])
  induction pairs with
  | nil => exact fun _ h => h
  | cons pair rest ih => exact fun bindings h => ih _ (nodup_ids_insert h _ _)

theorem mem_ids_ofList {pairs : List (String × Value)} {key : String}
    (h : key ∈ (ofList pairs).ids) : key ∈ pairs.map Prod.fst := by
  suffices hfold : ∀ bindings : Bindings,
      key ∈ (pairs.foldl (fun m (id, value) => m.insert id value) bindings).ids →
        key ∈ bindings.ids ∨ key ∈ pairs.map Prod.fst from
    (hfold [] h).resolve_left (by simp [ids])
  clear h
  induction pairs with
  | nil => exact fun _ h => Or.inl h
  | cons pair rest ih =>
    intro bindings hmem
    rcases ih _ hmem with h | h
    · rcases mem_ids_insert.mp h with rfl | h
      · exact Or.inr (by simp)
      · exact Or.inl h
    · exact Or.inr (List.mem_cons_of_mem _ h)

end Bindings

namespace Entry

theorem get?_bindings {entries : List Entry} (hids : (entries.map Entry.id).Nodup) (id : String) :
    (bindings entries).get? id = ((find? entries id).filter Entry.isValid).map Entry.value := by
  have hpairs : (((entries.filter Entry.isValid).map fun e => (e.id, e.value)).map
      Prod.fst).Nodup := by
    rw [List.map_map]
    exact hids.sublist (List.filter_sublist.map _)
  rw [bindings, Bindings.get?_ofList hpairs]
  clear hpairs
  induction entries with
  | nil => rfl
  | cons e rest ih =>
    obtain ⟨he, hrest⟩ := List.nodup_cons.mp hids
    by_cases heq : e.id = id
    · subst heq
      rw [find?_cons_self]
      cases hvalid : e.isValid with
      | true => simp [Option.filter, hvalid]
      | false =>
        have hnone : find? rest e.id = none := by
          rw [← Option.not_isSome_iff_eq_none, find?_isSome_iff]
          exact he
        rw [List.filter_cons_of_neg (by simp [hvalid]), ih hrest, hnone]
        simp [Option.filter, hvalid]
    · rw [find?_cons_of_ne heq, ← ih hrest, List.filter_cons]
      split
      · rw [List.map_cons, List.lookup_cons, beq_eq_false_iff_ne.mpr (Ne.symm heq)]
      · rfl

theorem nodup_ids_bindings (entries : List Entry) : (bindings entries).ids.Nodup :=
  Bindings.nodup_ids_ofList _

theorem mem_ids_bindings {entries : List Entry} {id : String} (h : id ∈ (bindings entries).ids) :
    id ∈ entries.map Entry.id := by
  have hmem := Bindings.mem_ids_ofList h
  rw [List.map_map] at hmem
  exact (List.filter_sublist.map _).subset hmem

end Entry

end DerivedForm
