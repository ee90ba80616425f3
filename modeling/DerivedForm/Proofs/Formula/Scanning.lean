import DerivedForm.Formula.Evaluation
import DerivedForm.Proofs.Number.Spelling
import DerivedForm.Proofs.Value.Typed

/-!
# Scanning in parts

A text may be scanned in two parts if it is not cut inside of a number. What is scanned holds nothing
but characters of arithmetic, and the text of a number is scanned as that number: in parentheses
behind a minus sign if it is negative, and behind a minus sign alone if it is the negative zero.
-/

namespace DerivedForm.Formula

open DerivedForm.Number (Binary64 Finite Spelling)

theorem drop_length_takeWhile {α : Type} (p : α → Bool) (l : List α) :
    l.drop (l.takeWhile p).length = l.dropWhile p := by
  have hwhole : l.takeWhile p ++ l.drop (l.takeWhile p).length =
      l.takeWhile p ++ l.dropWhile p := by
    rw [List.prefix_iff_eq_append.mp (List.takeWhile_prefix p), List.takeWhile_append_dropWhile]
  exact List.append_cancel_left hwhole

namespace Token

def isArithmetic (c : Char) : Bool :=
  c.isDigit || Text.isBlank c || ['.', '+', '-', '*', '/', '(', ')'].contains c

theorem isArithmetic_of_isNumberChar {c : Char} (h : isNumberChar c = true) :
    isArithmetic c = true := by
  simp only [isNumberChar, Bool.or_eq_true, beq_iff_eq] at h
  rcases h with h | rfl
  · simp [isArithmetic, h]
  · decide

theorem isArithmetic_of_ofChar? {c : Char} {token : Token} (h : ofChar? c = some token) :
    isArithmetic c = true := by
  unfold ofChar? at h
  split at h
  all_goals first
    | decide
    | cases h

theorem isBlank_of_isNumberChar {c : Char} (h : isNumberChar c = true) :
    Text.isBlank c = false := by
  simp only [isNumberChar, Bool.or_eq_true, beq_iff_eq] at h
  rcases h with h | rfl
  · exact Text.isBlank_of_isDigit h
  · decide

@[simp] theorem scan?_nil : scan? [] = some [] := by rw [scan?.eq_def]

theorem scan?_cons (c : Char) (rest : List Char) :
    scan? (c :: rest) =
      if Text.isBlank c then scan? rest
      else if isNumberChar c then
        (Binary64.read? (c :: rest.takeWhile isNumberChar)).bind fun x =>
          (scan? (rest.dropWhile isNumberChar)).map (.number x :: ·)
      else (ofChar? c).bind fun token => (scan? rest).map (token :: ·) := by
  rw [← drop_length_takeWhile, scan?.eq_def]

theorem scan?_blank {c : Char} (h : Text.isBlank c = true) (rest : List Char) :
    scan? (c :: rest) = scan? rest := by
  rw [scan?_cons, if_pos h]

theorem scan?_number {c : Char} (h : isNumberChar c = true) (rest : List Char) :
    scan? (c :: rest) = (Binary64.read? (c :: rest.takeWhile isNumberChar)).bind fun x =>
      (scan? (rest.dropWhile isNumberChar)).map (.number x :: ·) := by
  rw [scan?_cons, if_neg (by simp [isBlank_of_isNumberChar h]), if_pos h]

theorem scan?_mark {c : Char} (hblank : Text.isBlank c = false) (hnumber : isNumberChar c = false)
    (rest : List Char) :
    scan? (c :: rest) = (ofChar? c).bind fun token => (scan? rest).map (token :: ·) := by
  rw [scan?_cons, if_neg (by simp [hblank]), if_neg (by simp [hnumber])]

theorem isArithmetic_of_scan? {s : List Char} {tokens : List Token} (h : scan? s = some tokens) :
    ∀ c ∈ s, isArithmetic c = true := by
  fun_induction scan? s generalizing tokens with
  | case1 => simp
  | case2 c rest hblank ih =>
    exact List.forall_mem_cons.mpr ⟨by simp [isArithmetic, hblank], ih h⟩
  | case3 c rest hblank hnumber digits =>
    rename_i ih
    obtain ⟨x, -, hrest⟩ := Option.bind_eq_some_iff.mp h
    obtain ⟨others, hothers, -⟩ := Option.map_eq_some_iff.mp hrest
    intro d hd
    rw [← List.takeWhile_append_dropWhile (p := isNumberChar) (l := rest), List.mem_cons,
      List.mem_append] at hd
    rcases hd with rfl | hd | hd
    · exact isArithmetic_of_isNumberChar hnumber
    · exact isArithmetic_of_isNumberChar (List.mem_takeWhile_imp hd)
    · apply ih hothers d
      rwa [drop_length_takeWhile]
  | case4 c rest hblank hnumber ih =>
    obtain ⟨token, htoken, hrest⟩ := Option.bind_eq_some_iff.mp h
    obtain ⟨others, hothers, -⟩ := Option.map_eq_some_iff.mp hrest
    exact List.forall_mem_cons.mpr ⟨isArithmetic_of_ofChar? htoken, ih hothers⟩

/-- Whether two texts have characters of a number on both sides of where they meet. -/
def fuses (s t : List Char) : Bool := s.getLast?.any isNumberChar && t.head?.any isNumberChar

@[simp] theorem fuses_nil_right (s : List Char) : fuses s [] = false := by simp [fuses]

theorem fuses_of_suffix {s s' t : List Char} (hsuffix : s' <:+ s) (h : fuses s t = false) :
    fuses s' t = false := by
  obtain ⟨front, rfl⟩ := hsuffix
  cases s' with
  | nil => rfl
  | cons c rest => rwa [fuses, List.getLast?_append_of_ne_nil _ (List.cons_ne_nil c rest)] at h

theorem span_append {c : Char} (hc : isNumberChar c = true) {rest t : List Char}
    (h : fuses (c :: rest) t = false) :
    (rest ++ t).takeWhile isNumberChar = rest.takeWhile isNumberChar ∧
      (rest ++ t).dropWhile isNumberChar = rest.dropWhile isNumberChar ++ t := by
  induction rest generalizing c with
  | nil =>
    cases t with
    | nil => simp
    | cons d more =>
      have hd : isNumberChar d = false := by simpa [fuses, hc] using h
      simp [hd]
  | cons d rest ih =>
    cases hd : isNumberChar d with
    | true =>
      obtain ⟨htake, hdrop⟩ := ih hd (fuses_of_suffix (List.suffix_cons c _) h)
      simp [hd, htake, hdrop]
    | false => simp [hd]

/-- A text may be cut where no number is cut. -/
theorem scan?_append {s t : List Char} (h : fuses s t = false) :
    scan? (s ++ t) =
      (scan? s).bind fun before => (scan? t).map fun after => before ++ after := by
  fun_induction scan? s with
  | case1 => simp
  | case2 c rest hblank ih =>
    rw [List.cons_append, scan?_blank hblank]
    exact ih (fuses_of_suffix (List.suffix_cons c rest) h)
  | case3 c rest hblank hnumber digits =>
    rename_i ih
    obtain ⟨htake, hdrop⟩ := span_append hnumber h
    have hrest : rest.dropWhile isNumberChar <:+ c :: rest :=
      (List.dropWhile_suffix _).trans (List.suffix_cons c rest)
    have hih := ih (drop_length_takeWhile isNumberChar rest ▸ fuses_of_suffix hrest h)
    simp only [digits, drop_length_takeWhile] at hih ⊢
    rw [List.cons_append, scan?_number hnumber, htake, hdrop, hih]
    cases Binary64.read? (c :: rest.takeWhile isNumberChar) with
    | none => rfl
    | some x => cases scan? (rest.dropWhile isNumberChar) <;> cases scan? t <;> rfl
  | case4 c rest hblank hnumber ih =>
    have hih := ih (fuses_of_suffix (List.suffix_cons c rest) h)
    rw [List.cons_append, scan?_mark (by simpa using hblank) (by simpa using hnumber), hih]
    cases ofChar? c with
    | none => rfl
    | some token => cases scan? rest <;> cases scan? t <;> rfl

end Token

def writtenTokens (x : Finite) : List Token :=
  let digits : Token := .number (.finite (x.withSign false))
  if x.units < 0 then [.openParen, .operator .subtract, digits, .closeParen]
  else if x.negative then [.operator .subtract, digits]
  else [digits]

namespace Token

theorem scan?_unsigned {s : Spelling} {x : Binary64} (h : Binary64.read? s.unsigned = some x) :
    scan? s.unsigned = some [.number x] := by
  have hchars : ∀ c ∈ s.unsigned, isNumberChar c = true := by
    intro c hc
    have hwhole := s.isDigit_whole c
    have hfraction := s.isDigit_fraction c
    simp only [Spelling.unsigned] at hc
    grind [isNumberChar]
  obtain ⟨c, rest, hcons⟩ : ∃ c rest, s.unsigned = c :: rest := by
    obtain ⟨c, rest, hwhole⟩ := List.exists_cons_of_ne_nil s.whole_ne_nil
    exact ⟨c, _, by rw [Spelling.unsigned, hwhole]; rfl⟩
  rw [hcons] at h hchars ⊢
  obtain ⟨hc, hrest⟩ := List.forall_mem_cons.mp hchars
  rw [scan?_number hc, List.takeWhile_eq_self_iff.mpr hrest, List.dropWhile_eq_nil_iff.mpr hrest, h]
  simp

theorem scan?_mark_append {c : Char} {token : Token} (h : ofChar? c = some token)
    (hblank : Text.isBlank c = false) (hnumber : isNumberChar c = false) {s : List Char}
    {tokens : List Token} (hs : scan? s = some tokens) : scan? (c :: s) = some (token :: tokens) := by
  rw [scan?_mark hblank hnumber, h, hs]
  rfl

theorem scan?_operandText (x : Finite) : scan? (operandText x) = some (writtenTokens x) := by
  obtain ⟨s, htext, hread⟩ := x.exists_unsigned
  have hdigits := scan?_unsigned hread
  have hminus := scan?_mark_append (c := '-') rfl (by decide) (by decide) hdigits
  have hclose := scan?_mark_append (c := ')') rfl (by decide) (by decide) scan?_nil
  rw [operandText, writtenTokens, htext]
  split
  · rename_i hunits
    have hgroup : scan? ('-' :: s.unsigned ++ [')']) =
        some [.operator .subtract, .number (.finite (x.withSign false)), .closeParen] := by
      rw [scan?_append (by simp [fuses, isNumberChar]), hminus, hclose]
      rfl
    rw [Finite.negative_of_units_neg hunits]
    exact scan?_mark_append (c := '(') rfl (by decide) (by decide) hgroup
  · cases x.negative with
    | true => exact hminus
    | false => exact hdigits

/-!
## Blanks between tokens

The scanner keeps nothing of what it has read but the number it is in. So a text falls into parts at every
place that is not inside of a number: the tokens of the parts are the tokens of the whole, and a part that is
no arithmetic spoils the whole. Blanks at such a place are a part without tokens, however many of them there
are and whatever stands on their two sides.
-/

variable {s t u blanks : List Char}

/-- The second text is the first with blanks put in where they cut no number. -/
inductive Spaced (s : List Char) : List Char → Prop
  | same : Spaced s s
  | insert {before after : List Char} (blanks : List Char) (spaced : Spaced s (before ++ after))
      (whole : fuses before after = false) (blank : blanks.all Text.isBlank = true) :
      Spaced s (before ++ blanks ++ after)

theorem isNumberChar_of_isBlank {c : Char} (h : Text.isBlank c = true) : isNumberChar c = false := by
  rw [Bool.eq_false_iff]
  intro hnumber
  rw [isBlank_of_isNumberChar hnumber] at h
  cases h

theorem scan?_blanks (h : blanks.all Text.isBlank = true) : scan? blanks = some [] := by
  induction blanks with
  | nil => exact scan?_nil
  | cons c rest ih =>
    rw [List.all_cons, Bool.and_eq_true] at h
    rw [scan?_blank h.1, ih h.2]

theorem fuses_blank_right {c : Char} (h : Text.isBlank c = true) (s rest : List Char) :
    fuses s (c :: rest) = false := by
  simp [fuses, isNumberChar_of_isBlank h]

theorem fuses_blanks_left (h : blanks.all Text.isBlank = true) (t : List Char) :
    fuses blanks t = false := by
  cases hlast : blanks.getLast? with
  | none => simp [fuses, hlast]
  | some c =>
    have hc : Text.isBlank c = true := List.all_eq_true.mp h c (List.mem_of_getLast? hlast)
    simp [fuses, hlast, isNumberChar_of_isBlank hc]

theorem scan?_insert_blanks (hwhole : fuses s t = false)
    (hblank : blanks.all Text.isBlank = true) : scan? (s ++ blanks ++ t) = scan? (s ++ t) := by
  cases blanks with
  | nil => rw [List.append_nil]
  | cons c rest =>
    have hfront : fuses s (c :: rest ++ t) = false :=
      fuses_blank_right (List.all_eq_true.mp hblank c List.mem_cons_self) s _
    have hback : scan? (c :: rest ++ t) = scan? t := by
      rw [scan?_append (fuses_blanks_left hblank t), scan?_blanks hblank]
      simp
    rw [List.append_assoc, scan?_append hfront, hback, scan?_append hwhole]

theorem Spaced.scan?_eq (h : Spaced s u) : scan? u = scan? s := by
  induction h with
  | same => rfl
  | insert _ _ whole blank ih => rw [scan?_insert_blanks whole blank, ih]

theorem scan?_append_eq_none_iff (h : fuses s t = false) :
    scan? (s ++ t) = none ↔ scan? s = none ∨ scan? t = none := by
  rw [scan?_append h]
  cases scan? s <;> cases scan? t <;> simp

/-- Where no number is cut, the tokens of a text are the tokens of its two parts, one after the other, and
there are none exactly if one of the parts has none; and blanks may be put in at any such places. -/
theorem scan?_parts (h : fuses s t = false) :
    (scan? (s ++ t) =
        (scan? s).bind fun before => (scan? t).map fun after => before ++ after) ∧
      (scan? (s ++ t) = none ↔ scan? s = none ∨ scan? t = none) ∧
      ∀ u, Spaced (s ++ t) u → scan? u = scan? (s ++ t) :=
  ⟨scan?_append h, scan?_append_eq_none_iff h, fun _ => Spaced.scan?_eq⟩

/-- Blanks of several bytes on both sides of a sign, and a point without digits behind it. -/
theorem scan?_parts_product :
    fuses ['1', '.', '5'] ['*', '2'] = false ∧ fuses ['1', '.', '5'] ['*', '.'] = false ∧
      scan? ['1', '.', '5'] = some [.number (3 / 2)] ∧
      scan? ['*', '2'] = some [.operator .multiply, .number 2] ∧
      scan? ['1', '.', '5', '*', '2'] = some [.number (3 / 2), .operator .multiply, .number 2] ∧
      scan? ['1', '.', '5', '\u3000', '*', '\u00a0', '2'] =
        some [.number (3 / 2), .operator .multiply, .number 2] ∧
      scan? ['*', '.'] = none ∧ scan? ['1', '.', '5', '*', '.'] = none := by
  have hwhole : fuses ['1', '.', '5'] ['*', '2'] = false := by decide
  have hwhole' : fuses ['1', '.', '5'] ['*', '.'] = false := by decide
  have hleft : scan? ['1', '.', '5'] = some [.number (3 / 2)] := by decide +kernel
  have hright : scan? ['*', '2'] = some [.operator .multiply, .number 2] := by decide +kernel
  have hpoint : scan? ['*', '.'] = none := by decide +kernel
  obtain ⟨happend, -, hspaced⟩ := scan?_parts hwhole
  obtain ⟨-, hnone, -⟩ := scan?_parts hwhole'
  have hfirst : Spaced ['1', '.', '5', '*', '2'] (['1', '.', '5'] ++ ['\u3000'] ++ ['*', '2']) :=
    Spaced.same.insert ['\u3000'] hwhole (by decide)
  have hsecond : Spaced ['1', '.', '5', '*', '2']
      (['1', '.', '5', '\u3000', '*'] ++ ['\u00a0'] ++ ['2']) :=
    @Spaced.insert _ ['1', '.', '5', '\u3000', '*'] ['2'] ['\u00a0'] hfirst (by decide) (by decide)
  rw [hleft, hright] at happend
  exact ⟨hwhole, hwhole', hleft, hright, happend, (hspaced _ hsecond).trans happend, hpoint,
    hnone.mpr (Or.inr hpoint)⟩

end Token

end DerivedForm.Formula
