import DerivedForm.Proofs.Formula.Spans

/-!
# What a formula mentions

An id that does not occur in a formula, letter by letter, has no part in its evaluation: it fits at no
place, so it never hides another id, and no name in braces spells it. Of the ids that fit at a place
no two are equally long, as both begin the text there. So the order in which the ids are known does
not matter, and bindings that agree on what the formula mentions give it one value.
-/

namespace DerivedForm.Formula

variable {ids others : List String} {s : List Char}

theorem longest?_eq_none_iff : longest? ids = none ↔ ids = [] := by
  cases ids with
  | nil => simp [longest?]
  | cons first rest =>
    simp only [longest?]
    split
    · split <;> simp
    · simp

theorem longest?_congr (hmem : ∀ id, id ∈ ids ↔ id ∈ others)
    (hbegin : ∀ id ∈ ids, id.toList <+: s) : longest? ids = longest? others := by
  cases hlongest : longest? ids with
  | none =>
    obtain rfl := longest?_eq_none_iff.mp hlongest
    have hnil : others = [] := List.eq_nil_iff_forall_not_mem.mpr fun id hid =>
      List.not_mem_nil ((hmem id).mpr hid)
    rw [hnil]
    rfl
  | some id =>
    obtain ⟨hid, hbound⟩ := longest?_eq_some hlongest
    cases hother : longest? others with
    | none =>
      rw [longest?_eq_none_iff.mp hother] at hmem
      exact absurd ((hmem id).mp hid) List.not_mem_nil
    | some other =>
      obtain ⟨hother, hbound'⟩ := longest?_eq_some hother
      have hother := (hmem other).mpr hother
      have hlength : id.toList.length = other.toList.length :=
        Nat.le_antisymm (hbound' id ((hmem id).mp hid)) (hbound other hother)
      have hchars : id.toList = other.toList :=
        (List.prefix_of_prefix_length_le (hbegin id hid) (hbegin other hother)
          (Nat.le_of_eq hlength)).eq_of_length hlength
      rw [String.toList_inj.mp hchars]

theorem bareId?_congr (h : ∀ id, id.toList <+: s → (id ∈ ids ↔ id ∈ others))
    (previous : Option Char) : bareId? ids previous s = bareId? others previous s := by
  have hbegins : ∀ id, startsWithId s id = true → id.toList <+: s := by
    intro id hid
    obtain ⟨after, rfl, -⟩ := startsWithId_iff.mp hid
    exact List.prefix_append _ _
  have hlongest : longest? (ids.filter (startsWithId s)) =
      longest? (others.filter (startsWithId s)) := by
    apply longest?_congr (s := s)
    · intro id
      rw [List.mem_filter, List.mem_filter]
      exact and_congr_left fun hid => h id (hbegins id hid)
    · intro id hid
      exact hbegins id (List.mem_filter.mp hid).2
  unfold bareId?
  rw [hlongest]

/-- The pieces of a text depend on the ids that occur in it, in whatever order they are known. -/
theorem pieces?_congr (previous : Option Char)
    (h : ∀ id, id.toList <:+: s → (id ∈ ids ↔ id ∈ others)) :
    pieces? ids previous s = pieces? others previous s := by
  have hbare : ∀ t previous, t <:+ s → bareId? ids previous t = bareId? others previous t :=
    fun t previous ht => bareId?_congr (fun id hid => h id (hid.isInfix.trans ht.isInfix)) previous
  suffices hsuffix : ∀ t previous, t <:+ s → pieces? ids previous t = pieces? others previous t from
    hsuffix s previous (List.suffix_refl s)
  intro t previous ht
  fun_induction pieces? ids previous t with
  | case1 => rw [pieces?]
  | case2 previous rest name hclosed =>
    rename_i ih
    have hrest : rest.drop (name.length + 1) <:+ '\x7b' :: rest :=
      (List.drop_suffix _ _).trans (List.suffix_cons _ _)
    rw [ih (hrest.trans ht)]
    conv_rhs => rw [pieces?, if_pos rfl]
    dsimp only
    rw [if_pos hclosed]
  | case3 previous rest name hopen =>
    conv_rhs => rw [pieces?, if_pos rfl]
    dsimp only
    rw [if_neg hopen]
  | case4 previous c rest hopen id hid ih =>
    have hrest : rest.drop (id.toList.length - 1) <:+ c :: rest :=
      (List.drop_suffix _ _).trans (List.suffix_cons _ _)
    rw [ih (hrest.trans ht)]
    conv_rhs => rw [pieces?, if_neg hopen, ← hbare _ previous ht, hid]
  | case5 previous c rest hopen hid hname =>
    conv_rhs => rw [pieces?, if_neg hopen, ← hbare _ previous ht, hid]
    dsimp only
    rw [if_pos hname]
  | case6 previous c rest hopen hid hname ih =>
    rw [ih ((List.suffix_cons c rest).trans ht)]
    conv_rhs => rw [pieces?, if_neg hopen, ← hbare _ previous ht, hid]
    dsimp only
    rw [if_neg hname]

theorem piecesText?_congr {m n : Bindings} {pieces : List Piece}
    (h : ∀ id, .reference id ∈ pieces → m.get? id = n.get? id) :
    piecesText? m pieces = piecesText? n pieces := by
  induction pieces with
  | nil => rfl
  | cons piece rest ih =>
    have hpiece : piece.text? m = piece.text? n := by
      cases piece with
      | literal c => rfl
      | reference id =>
        simp only [Piece.text?, Bindings.number?, h id List.mem_cons_self]
    rw [piecesText?_cons, piecesText?_cons, hpiece, ih fun id hid => h id (List.mem_cons_of_mem _ hid)]

/-- Bindings that agree on every id that occurs in a formula give it the same value. Neither other
ids nor the order of the bindings make a difference. -/
theorem evaluate?_eq_of_mentioned {formula : String} {m n : Bindings}
    (h : ∀ id : String, id.toList <:+: formula.toList → m.get? id = n.get? id) :
    evaluate? formula m = evaluate? formula n := by
  have hids : ∀ id : String, id.toList <:+: formula.toList →
      (id ∈ m.ids.filter (· != "") ↔ id ∈ n.ids.filter (· != "")) := by
    intro id hid
    rw [List.mem_filter, List.mem_filter, mem_ids_iff, mem_ids_iff, h id hid]
  have hresolve : resolve? formula m = resolve? formula n := by
    unfold resolve?
    rw [← pieces?_congr none hids]
    cases hpieces : pieces? (m.ids.filter (· != "")) none formula.toList with
    | none => rfl
    | some pieces =>
      obtain ⟨spans, htext, rfl, -⟩ := exists_spans hpieces [] rfl
      apply piecesText?_congr
      intro id hid
      obtain ⟨span, hspan, hpiece⟩ := List.mem_map.mp hid
      apply h id
      rw [← htext]
      apply Span.id_infix_text hspan
      cases span <;> cases hpiece <;> rfl
  unfold evaluate?
  rw [hresolve]

theorem evaluate?_eq_of_mentioned_ratio :
    let m : Bindings := [("Length", .integer 2), ("LengthTotal", .integer 40)]
    let n : Bindings := [("LengthTotals", .integer 9), ("LengthTotal", .integer 40),
      ("Width", .null), ("Length", .integer 2)]
    (evaluate? "LengthTotal / Length" m).map Number.Binary64.finite = some 20 ∧
      evaluate? "LengthTotal / Length" m = evaluate? "LengthTotal / Length" n := by
  intro m n
  refine ⟨by decide +kernel, evaluate?_eq_of_mentioned fun id hid => ?_⟩
  have hlonger : id ≠ "LengthTotals" := fun heq => absurd (heq ▸ hid) (by decide)
  have hwidth : id ≠ "Width" := fun heq => absurd (heq ▸ hid) (by decide)
  by_cases hlength : id = "Length"
  · rw [hlength]
    decide
  · by_cases htotal : id = "LengthTotal"
    · rw [htotal]
      decide
    · simp [m, n, Bindings.get?, List.lookup_cons, beq_eq_false_iff_ne.mpr, hlonger, hwidth,
        hlength, htotal]

end DerivedForm.Formula
