import DerivedForm.Proofs.Formula.Derivation
import DerivedForm.Proofs.Formula.Scanning

/-!
# The spans of a formula

A formula that has a value is made of spans and nothing else: characters of arithmetic, names in
braces, and bare ids. A bare id stands between characters that could not belong to it, and no longer
id fits in its place. Every name and every id is bound to a value that is a finite number. So no
reference is left over, and nothing that the formula writes gets past the characters of arithmetic.
-/

namespace DerivedForm.Formula

open DerivedForm.Number (Finite)

inductive Span where
  | character (c : Char)
  | braced (name : List Char)
  | bare (id : String)

namespace Span

def chars : Span → List Char
  | character c => [c]
  | braced name => '\x7b' :: (name ++ ['\x7d'])
  | bare id => id.toList

def id? : Span → Option String
  | character _ => none
  | braced name => some (String.ofList (Text.trimmed name))
  | bare id => some id

def piece : Span → Piece
  | character c => .literal c
  | braced name => .reference (String.ofList (Text.trimmed name))
  | bare id => .reference id

def text (spans : List Span) : List Char := spans.flatMap chars

/-- How a reference has to stand between the text before it and the text behind it: a name ends at
the first closing brace, and a bare id is the longest one that fits between its neighbours. -/
def Stands (ids : List String) (before after : List Char) : Span → Prop
  | character _ => True
  | braced name => '\x7d' ∉ name
  | bare id => id ∈ ids ∧ id ≠ "" ∧ before.getLast?.any Text.isWordChar = false ∧
      startsWithWord after = false ∧ ∀ other ∈ ids,
        startsWithId (id.toList ++ after) other = true → other.toList.length ≤ id.toList.length

def Placed (ids : List String) (before : List Char) (spans : List Span) : Prop :=
  ∀ front span back, spans = front ++ span :: back →
    span.Stands ids (before ++ text front) (text back)

variable {ids : List String} {before : List Char} {span : Span} {spans : List Span}

@[simp] theorem text_nil : text [] = [] := rfl

@[simp] theorem text_cons (span : Span) (spans : List Span) :
    text (span :: spans) = span.chars ++ text spans :=
  List.flatMap_cons

theorem placed_nil (ids : List String) (before : List Char) : Placed ids before [] := by
  intro front span back h
  simp at h

theorem Placed.cons (h : Placed ids (before ++ span.chars) spans)
    (hspan : span.Stands ids before (text spans)) : Placed ids before (span :: spans) := by
  intro front other back heq
  cases front with
  | nil =>
    obtain ⟨rfl, rfl⟩ := List.cons.inj heq
    simpa using hspan
  | cons first rest =>
    obtain ⟨rfl, rfl⟩ := List.cons.inj heq
    simpa using h rest other back rfl

theorem id_infix_text {id : String} (hspan : span ∈ spans) (hid : span.id? = some id) :
    id.toList <:+: text spans := by
  have hchars : span.chars <:+: text spans := by
    obtain ⟨front, back, rfl⟩ := List.append_of_mem hspan
    exact ⟨text front, text back, by simp [text]⟩
  refine List.IsInfix.trans ?_ hchars
  cases span with
  | character c => cases hid
  | bare other =>
    cases hid
    exact List.infix_refl _
  | braced name =>
    cases hid
    rw [String.toList_ofList]
    have htrimmed : Text.trimmed name <:+: name := by
      have hinner : Text.dropBlanks name <:+ name := List.dropWhile_suffix _
      have houter : Text.dropBlanks (Text.dropBlanks name).reverse <:+
          (Text.dropBlanks name).reverse := List.dropWhile_suffix _
      have hbegins : Text.trimmed name <+: Text.dropBlanks name := by
        rw [← List.reverse_suffix, Text.trimmed, List.reverse_reverse]
        exact houter
      exact hbegins.isInfix.trans hinner.isInfix
    exact htrimmed.trans ⟨['\x7b'], ['\x7d'], rfl⟩

end Span

theorem startsWithId_iff {s : List Char} {id : String} :
    startsWithId s id = true ↔ ∃ after, s = id.toList ++ after ∧ startsWithWord after = false := by
  simp only [startsWithId, Bool.and_eq_true, List.isPrefixOf_iff_prefix, Bool.not_eq_true']
  constructor
  · rintro ⟨⟨after, rfl⟩, hword⟩
    exact ⟨after, rfl, by simpa using hword⟩
  · rintro ⟨after, rfl, hword⟩
    exact ⟨List.prefix_append _ _, by simpa using hword⟩

theorem longest?_eq_some {ids : List String} {id : String} (h : longest? ids = some id) :
    id ∈ ids ∧ ∀ other ∈ ids, other.toList.length ≤ id.toList.length := by
  induction ids generalizing id with
  | nil => cases h
  | cons first rest ih =>
    simp only [longest?] at h
    split at h
    · rename_i other hother
      obtain ⟨hmem, hlongest⟩ := ih hother
      split at h <;> cases h
      · refine ⟨List.mem_cons_of_mem _ hmem, List.forall_mem_cons.mpr ⟨by omega, hlongest⟩⟩
      · refine ⟨List.mem_cons_self, List.forall_mem_cons.mpr ⟨Nat.le_refl _, fun another hanother => ?_⟩⟩
        have := hlongest another hanother
        omega
    · rename_i hnone
      cases h
      cases rest with
      | nil => simp
      | cons second more =>
        simp only [longest?] at hnone
        split at hnone
        · split at hnone <;> cases hnone
        · cases hnone

theorem bareId?_eq_some {ids : List String} {previous : Option Char} {s : List Char} {id : String}
    (h : bareId? ids previous s = some id) :
    previous.any Text.isWordChar = false ∧ id ∈ ids ∧ startsWithId s id = true ∧
      ∀ other ∈ ids, startsWithId s other = true → other.toList.length ≤ id.toList.length := by
  unfold bareId? at h
  split at h
  · cases h
  · rename_i hprevious
    obtain ⟨hmem, hlongest⟩ := longest?_eq_some h
    obtain ⟨hid, hstarts⟩ := List.mem_filter.mp hmem
    exact ⟨by simpa using hprevious, hid, hstarts,
      fun other hother hfits => hlongest other (List.mem_filter.mpr ⟨hother, hfits⟩)⟩

theorem takeWhile_brace {rest : List Char}
    (h : (rest.takeWhile (· != '\x7d')).length < rest.length) :
    '\x7d' ∉ rest.takeWhile (· != '\x7d') ∧
      rest = rest.takeWhile (· != '\x7d') ++
        '\x7d' :: rest.drop ((rest.takeWhile (· != '\x7d')).length + 1) := by
  induction rest with
  | nil => simp at h
  | cons c rest ih =>
    by_cases hc : c = '\x7d'
    · simp [hc]
    · have htake : (c :: rest).takeWhile (· != '\x7d') = c :: rest.takeWhile (· != '\x7d') :=
        List.takeWhile_cons_of_pos (bne_iff_ne.mpr hc)
      rw [htake] at h ⊢
      obtain ⟨hmem, hsplit⟩ := ih (by simpa using h)
      exact ⟨by simp [Ne.symm hc, hmem], by simpa using hsplit⟩

/-- What is read as pieces is made of spans, one for each piece. -/
theorem exists_spans {ids : List String} {previous : Option Char} {s : List Char}
    {pieces : List Piece} (h : pieces? (ids.filter (· != "")) previous s = some pieces)
    (before : List Char) (hbefore : before.getLast? = previous) :
    ∃ spans, Span.text spans = s ∧ spans.map Span.piece = pieces ∧
      Span.Placed ids before spans := by
  generalize hknown : ids.filter (· != "") = known at h
  fun_induction pieces? known previous s generalizing pieces before with
  | case1 previous =>
    cases h
    exact ⟨[], rfl, rfl, Span.placed_nil ids before⟩
  | case2 previous rest name hclosed =>
    rename_i ih
    obtain ⟨others, hothers, rfl⟩ := Option.map_eq_some_iff.mp h
    have hbrace : '\x7d' ∉ name ∧ rest = name ++ '\x7d' :: rest.drop (name.length + 1) :=
      takeWhile_brace hclosed
    clear_value name
    obtain ⟨hname, hrest⟩ := hbrace
    have hlast : (before ++ (Span.braced name).chars).getLast? = some '\x7d' := by
      rw [Span.chars, ← List.cons_append, ← List.append_assoc, List.getLast?_concat]
    obtain ⟨spans, htext, hpieces, hplaced⟩ := ih _ hlast hothers
    refine ⟨.braced name :: spans, ?_, by rw [List.map_cons, hpieces]; rfl, hplaced.cons hname⟩
    rw [Span.text_cons, htext]
    conv_rhs => rw [hrest]
    simp [Span.chars]
  | case3 => cases h
  | case4 previous c rest hopen id hbare ih =>
    obtain ⟨others, hothers, rfl⟩ := Option.map_eq_some_iff.mp h
    obtain ⟨hprevious, hid, hstarts, hlongest⟩ := bareId?_eq_some hbare
    obtain ⟨after, hsplit, hafter⟩ := startsWithId_iff.mp hstarts
    subst hknown
    obtain ⟨hid, hempty⟩ := List.mem_filter.mp hid
    have hempty : id ≠ "" := bne_iff_ne.mp hempty
    have hne : id.toList ≠ [] := fun hnil => hempty (String.toList_eq_nil_iff.mp hnil)
    have hdrop : rest.drop (id.toList.length - 1) = after := by
      have hpos : 0 < id.toList.length := List.length_pos_iff.mpr hne
      have hall : (c :: rest).drop (id.toList.length - 1 + 1) = after := by
        rw [Nat.sub_add_cancel hpos, hsplit, List.drop_left]
      exact hall
    rw [hdrop] at ih hothers
    obtain ⟨spans, htext, hpieces, hplaced⟩ :=
      ih (before ++ (Span.bare id).chars) (List.getLast?_append_of_ne_nil before hne)
        hothers
    subst htext
    refine ⟨.bare id :: spans, hsplit.symm, by rw [List.map_cons, hpieces]; rfl,
      hplaced.cons ⟨hid, hempty, hbefore ▸ hprevious, hafter, fun other hother hfits => ?_⟩⟩
    by_cases hnil : other = ""
    · simp [hnil]
    · exact hlongest other (List.mem_filter.mpr ⟨hother, bne_iff_ne.mpr hnil⟩) (hsplit ▸ hfits)
  | case5 => cases h
  | case6 previous c rest hopen hbare hname ih =>
    obtain ⟨others, hothers, rfl⟩ := Option.map_eq_some_iff.mp h
    obtain ⟨spans, htext, hpieces, hplaced⟩ :=
      ih (before ++ (Span.character c).chars) (by simp [Span.chars]) hothers
    refine ⟨.character c :: spans, by rw [Span.text_cons, htext]; rfl,
      by rw [List.map_cons, hpieces]; rfl, hplaced.cons trivial⟩

@[simp] theorem piecesText?_nil (bindings : Bindings) : piecesText? bindings [] = some [] := rfl

theorem piecesText?_cons (bindings : Bindings) (piece : Piece) (pieces : List Piece) :
    piecesText? bindings (piece :: pieces) = (piece.text? bindings).bind fun s =>
      (piecesText? bindings pieces).map fun t => s ++ t := by
  unfold piecesText?
  rw [List.mapM_cons]
  cases piece.text? bindings with
  | none => rfl
  | some s => cases pieces.mapM (Piece.text? bindings) <;> rfl

theorem text?_of_piecesText? {bindings : Bindings} {pieces : List Piece} {s : List Char}
    (h : piecesText? bindings pieces = some s) :
    ∀ piece ∈ pieces, ∃ t, piece.text? bindings = some t ∧ t ⊆ s := by
  induction pieces generalizing s with
  | nil => simp
  | cons first rest ih =>
    rw [piecesText?_cons] at h
    obtain ⟨t, ht, hrest⟩ := Option.bind_eq_some_iff.mp h
    obtain ⟨more, hmore, rfl⟩ := Option.map_eq_some_iff.mp hrest
    refine List.forall_mem_cons.mpr ⟨⟨t, ht, List.subset_append_left _ _⟩, fun piece hpiece => ?_⟩
    obtain ⟨u, hu, hsubset⟩ := ih hmore piece hpiece
    exact ⟨u, hu, List.Subset.trans hsubset (List.subset_append_right _ _)⟩

theorem mem_ids_iff {bindings : Bindings} {id : String} :
    id ∈ bindings.ids ↔ (bindings.get? id).isSome = true := by
  unfold Bindings.ids Bindings.get?
  rw [List.mem_map, List.lookup_isSome_iff]
  simp

/-- If a formula has a value, then it is made of spans from left to right: characters of arithmetic,
names in braces up to the first closing brace, and bare ids, each not empty, with no character of a
word next to it and with no longer id in its place. What the names and ids refer to is bound to finite
numbers. With these in their places the formula is an expression of the grammar, and its value is the
finite number. -/
theorem exists_spans_of_evaluate? {formula : String} {bindings : Bindings} {v : Finite}
    (h : evaluate? formula bindings = some v) :
    ∃ spans : List Span, Span.text spans = formula.toList ∧ Span.Placed bindings.ids [] spans ∧
      (∀ c, .character c ∈ spans → Token.isArithmetic c = true) ∧
      (∀ span ∈ spans, ∀ id, span.id? = some id →
        id ∈ bindings.ids ∧ (bindings.number? id).isSome = true) ∧
      ∃ e : Phrase .expression, (resolve? formula bindings).bind Token.scan? = some e.tokens ∧
        e.value = .finite v := by
  obtain ⟨tokens, htokens, hreduced⟩ := Option.bind_eq_some_iff.mp h
  obtain ⟨text, htext, hscanned⟩ := Option.bind_eq_some_iff.mp htokens
  obtain ⟨pieces, hpieces, hresolved⟩ := Option.bind_eq_some_iff.mp htext
  obtain ⟨spans, hspans, rfl, hplaced⟩ := exists_spans hpieces [] rfl
  have hpiece : ∀ span ∈ spans, ∃ t, span.piece.text? bindings = some t ∧ t ⊆ text :=
    fun span hspan => text?_of_piecesText? hresolved _ (List.mem_map_of_mem hspan)
  refine ⟨spans, hspans, hplaced, fun c hc => ?_, fun span hspan id hid => ?_, ?_⟩
  · obtain ⟨t, ht, hsubset⟩ := hpiece _ hc
    obtain rfl : [c] = t := Option.some.inj ht
    exact Token.isArithmetic_of_scan? hscanned c (hsubset List.mem_cons_self)
  · have hnumber : (bindings.number? id).isSome = true := by
      obtain ⟨t, ht, -⟩ := hpiece span hspan
      cases span with
      | character c => cases hid
      | braced name | bare other =>
        cases hid
        obtain ⟨x, hx, -⟩ := Option.map_eq_some_iff.mp ht
        rw [hx]
        rfl
    refine ⟨mem_ids_iff.mpr ?_, hnumber⟩
    obtain ⟨x, hx⟩ := Option.isSome_iff_exists.mp hnumber
    obtain ⟨value, hvalue, -⟩ := Option.bind_eq_some_iff.mp hx
    rw [hvalue]
    rfl
  · obtain ⟨e, rfl⟩ := Phrase.exists_tokens_of_reduce? hreduced
    refine ⟨e, htokens, ?_⟩
    rw [Phrase.reduce?_tokens] at hreduced
    exact (Phrase.result?_eq_some_iff.mp hreduced).2

theorem exists_spans_of_evaluate?_weight :
    let bindings : Bindings :=
      [("Length", .integer 2), ("LengthTotal", .integer 40), ("Net Weight", .text "2.5")]
    let formula := "(\x7b Net Weight \x7d + LengthTotal) * 2"
    ∃ v, evaluate? formula bindings = some v ∧ Number.Binary64.finite v = 85 ∧
      ∃ spans : List Span, Span.text spans = formula.toList ∧ Span.Placed bindings.ids [] spans ∧
        ∀ span ∈ spans, ∀ id, span.id? = some id → id ∈ bindings.ids := by
  intro bindings formula
  have hvalue : (evaluate? formula bindings).map Number.Binary64.finite = some 85 := by decide +kernel
  obtain ⟨v, hv, hfinite⟩ := Option.map_eq_some_iff.mp hvalue
  obtain ⟨spans, htext, hplaced, -, hbound, -⟩ := exists_spans_of_evaluate? hv
  exact ⟨v, hv, hfinite, spans, htext, hplaced,
    fun span hspan id hid => (hbound span hspan id hid).1⟩

end DerivedForm.Formula
