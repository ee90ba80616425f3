import DerivedForm.Proofs.Formula.Flat

/-!
# Reduction follows the grammar

The last opening parenthesis of a derived list of tokens begins a group without groups in it, and
the first closing one behind it ends that group. The group has the value of its phrase, and the
number put in its place makes a shorter phrase of the same value. In the other direction, a phrase
of the shorter list becomes one of the longer by putting the group in the place of the number. So
what is reduced is what the grammar derives, and the result is the value of any derivation.
-/

namespace DerivedForm.Formula

open DerivedForm.Number (Binary64 Finite)

variable {tokens before inside after : List Token}

theorem splitLastOpen?_eq_none (h : .openParen ∉ tokens) : splitLastOpen? tokens = none := by
  induction tokens with
  | nil => rfl
  | cons token rest ih =>
    obtain ⟨hne, hrest⟩ := List.ne_and_not_mem_of_not_mem_cons h
    simp [splitLastOpen?, ih hrest, Ne.symm hne]

theorem splitLastOpen?_append (before : List Token) (h : .openParen ∉ after) :
    splitLastOpen? (before ++ .openParen :: after) = some (before, after) := by
  induction before with
  | nil => simp [splitLastOpen?, splitLastOpen?_eq_none h]
  | cons token rest ih => simp [splitLastOpen?, ih]

theorem splitFirstClose?_append (h : .closeParen ∉ inside) (after : List Token) :
    splitFirstClose? (inside ++ .closeParen :: after) = some (inside, after) := by
  induction inside with
  | nil => simp [splitFirstClose?]
  | cons token rest ih =>
    obtain ⟨hne, hrest⟩ := List.ne_and_not_mem_of_not_mem_cons h
    simp [splitFirstClose?, ih hrest, Ne.symm hne]

theorem lastGroup?_append (before : List Token)
    (hopen : .openParen ∉ inside ++ .closeParen :: after) (hclose : .closeParen ∉ inside) :
    lastGroup? (before ++ .openParen :: (inside ++ .closeParen :: after)) =
      some (before, inside, after) := by
  simp only [lastGroup?, splitLastOpen?_append before hopen, Option.bind_some,
    splitFirstClose?_append hclose, Option.map_some]

theorem exists_last_open (h : .openParen ∈ tokens) :
    ∃ before after, tokens = before ++ .openParen :: after ∧ .openParen ∉ after := by
  induction tokens with
  | nil => cases h
  | cons token rest ih =>
    by_cases hrest : .openParen ∈ rest
    · obtain ⟨before, after, rfl, hlast⟩ := ih hrest
      exact ⟨token :: before, after, rfl, hlast⟩
    · obtain rfl : .openParen = token := (List.mem_cons.mp h).resolve_right hrest
      exact ⟨[], rest, rfl, hrest⟩

theorem reduce?_of_notMem (h : .openParen ∉ tokens) : reduce? tokens = flatValue? tokens := by
  rw [reduce?, if_neg h]

theorem reduce?_of_lastGroup? (h : lastGroup? tokens = some (before, inside, after)) :
    reduce? tokens =
      (flatValue? inside).bind fun x => reduce? (before ++ .number (.finite x) :: after) := by
  have hopen : .openParen ∈ tokens := by simp [eq_of_lastGroup? h]
  rw [reduce?, if_pos hopen]
  split
  · rename_i hgroup
    rw [h] at hgroup
    cases hgroup
    cases flatValue? inside <;> rfl
  · rename_i hgroup
    rw [h] at hgroup
    cases hgroup

theorem exists_lastGroup? {v : Finite} (h : reduce? tokens = some v)
    (hopen : .openParen ∈ tokens) :
    ∃ before inside after, lastGroup? tokens = some (before, inside, after) := by
  rw [reduce?, if_pos hopen] at h
  split at h
  · rename_i before inside after hgroup
    exact ⟨before, inside, after, hgroup⟩
  · cases h

namespace Phrase

theorem result?_eq_none_of_slot {r : Rank} {p : Phrase r} {g : Phrase .expression}
    (hslot : p.Slot before (group g) after) (hg : g.result? = none) : p.result? = none := by
  rw [Option.eq_none_iff_forall_ne_some]
  intro v hv
  obtain ⟨hproper, hfinite⟩ :=
    Bool.and_eq_true_iff.mp (hslot.proper (result?_eq_some_iff.mp hv).1)
  obtain ⟨x, hx⟩ := (Binary64.isFinite_eq_true_iff g.value).mp hfinite
  rw [result?_eq_some_iff.mpr ⟨hproper, hx⟩] at hg
  cases hg

theorem reduce?_tokens (e : Phrase .expression) : reduce? e.tokens = e.result? := by
  induction hn : e.tokens.length using Nat.strongRecOn generalizing e with
  | _ n ih =>
    by_cases hopen : .openParen ∈ e.tokens
    · obtain ⟨before, rest, hsplit, hlast⟩ := exists_last_open hopen
      obtain ⟨a, after, hrest, hslot⟩ := e.exists_slot (by simp) (by simp) hsplit
      cases a with
      | number x => simp [tokens] at hrest
      | group g =>
        obtain rfl : rest = g.tokens ++ .closeParen :: after := by simpa [tokens] using hrest
        have hinner : .openParen ∉ g.tokens := fun h => hlast (List.mem_append_left _ h)
        have hclose : .closeParen ∉ g.tokens := mt g.openParen_mem_of_closeParen_mem hinner
        have hgroup : lastGroup? e.tokens = some (before, g.tokens, after) :=
          hsplit ▸ lastGroup?_append before hlast hclose
        rw [reduce?_of_lastGroup? hgroup, flatValue?_tokens g hinner]
        cases hg : g.result? with
        | none => rw [Option.bind_none, result?_eq_none_of_slot hslot hg]
        | some x =>
          -- the number has the value of the group, so the shorter phrase has the same result
          obtain ⟨hproper, hvalue⟩ := result?_eq_some_iff.mp hg
          obtain ⟨q, hq, hsame⟩ := hslot.replace (number (.finite x))
          obtain ⟨hqvalue, hqproper⟩ := hsame hvalue.symm
            (by simp [isProper, hproper, hvalue, Binary64.isFinite])
          have hshorter : q.tokens.length < n := by
            rw [← hn, hsplit, hq]
            simp only [tokens, List.length_append, List.length_cons, List.length_nil]
            omega
          have hreduced := ih _ hshorter q rfl
          simp only [hq, tokens, List.append_assoc, List.singleton_append] at hreduced
          rw [Option.bind_some, hreduced, result?, result?, hqvalue, hqproper]
    · rw [reduce?_of_notMem hopen, flatValue?_tokens e hopen]

theorem exists_tokens_of_reduce? {v : Finite} (h : reduce? tokens = some v) :
    ∃ e : Phrase .expression, e.tokens = tokens := by
  induction hn : tokens.length using Nat.strongRecOn generalizing tokens with
  | _ n ih =>
    by_cases hopen : .openParen ∈ tokens
    · obtain ⟨before, inside, after, hgroup⟩ := exists_lastGroup? h hopen
      rw [reduce?_of_lastGroup? hgroup] at h
      obtain ⟨x, hx, hreduced⟩ := Option.bind_eq_some_iff.mp h
      have htokens := eq_of_lastGroup? hgroup
      obtain ⟨g, rfl⟩ := exists_tokens_of_flatValue? hx
      have hshorter : (before ++ .number (.finite x) :: after).length < n := by
        rw [← hn, htokens]
        simp only [List.length_append, List.length_cons]
        omega
      obtain ⟨e, he⟩ := ih _ hshorter hreduced rfl
      obtain ⟨a, rest, hrest, hslot⟩ := e.exists_slot (by simp) (by simp) he
      -- the operand that stands where the group was is the number of its value
      cases a with
      | group g => simp [Phrase.tokens] at hrest
      | number y =>
        obtain ⟨-, rfl⟩ : .finite x = y ∧ after = rest := by simpa [Phrase.tokens] using hrest
        obtain ⟨q, hq, -⟩ := hslot.replace (group g)
        exact ⟨q, by simp [hq, htokens, Phrase.tokens]⟩
    · rw [reduce?_of_notMem hopen] at h
      exact exists_tokens_of_flatValue? h

end Phrase

/-- Tokens are reduced to a number if and only if the grammar derives them, no divisor is a zero,
and the value of every group and of the whole is finite; the number is the value of the derivation.
All derivations of the tokens agree on the result. -/
theorem reduce?_eq_grammar (tokens : List Token) :
    (∀ v, reduce? tokens = some v ↔ ∃ e : Phrase .expression, e.tokens = tokens ∧
      e.isProper = true ∧ e.value = .finite v) ∧
      ∀ e : Phrase .expression, e.tokens = tokens → reduce? tokens = e.result? := by
  have hderived : ∀ e : Phrase .expression, e.tokens = tokens → reduce? tokens = e.result? := by
    rintro e rfl
    exact e.reduce?_tokens
  refine ⟨fun v => ⟨fun h => ?_, ?_⟩, hderived⟩
  · obtain ⟨e, he⟩ := Phrase.exists_tokens_of_reduce? h
    exact ⟨e, he, Phrase.result?_eq_some_iff.mp ((hderived e he).symm.trans h)⟩
  · rintro ⟨e, he, hvalue⟩
    exact (hderived e he).trans (Phrase.result?_eq_some_iff.mpr hvalue)

end DerivedForm.Formula
