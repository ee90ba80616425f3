import DerivedForm.Proofs.Formula.Grammar

/-!
# Runs without parentheses

The tokens of a phrase without groups are read as one step for every factor, and a list of tokens
that can be read so is derived by a phrase. Products and quotients are taken while a term is in the
making; what has been added up before waits in front of it. So the steps have the value of the
phrase, unless a divisor is zero.
-/

namespace DerivedForm.Formula

open DerivedForm.Number (Binary64 Finite)

namespace Phrase

variable {r : Rank}

def steps (op : Operator) : {r : Rank} → Phrase r → List Step
  | _, number x => [(op, x)]
  | _, group e => [(op, e.value)]
  | _, signed signs a => [(op, (signed signs a).value)]
  | _, ofFactor f => f.steps op
  | _, product t s f => t.steps op ++ f.steps s.operator
  | _, ofTerm t => t.steps op
  | _, sum e s t => e.steps op ++ t.steps s.operator

end Phrase

theorem steps?_signs (signs : List Sign) (x : Binary64) (op : Operator) (negative : Bool)
    (rest : List Token) :
    steps? (some (op, negative)) (Sign.tokens signs ++ .number x :: rest) =
      (steps? none rest).map ((op, if negative ^^ Sign.negate signs then -x else x) :: ·) := by
  induction signs generalizing negative with
  | nil => simp [Sign.tokens, steps?]
  | cons sign others ih =>
    cases sign with
    | plus =>
      rw [Sign.negate_plus, ← ih]
      rfl
    | minus =>
      have hflip : (negative ^^ !Sign.negate others) = (!negative ^^ Sign.negate others) := by
        cases negative <;> simp
      rw [Sign.negate_minus, hflip, ← ih]
      rfl

theorem steps?_operator (op : Operator) (rest : List Token) :
    steps? none (.operator op :: rest) = steps? (some (op, false)) rest := by
  simp [steps?]

theorem steps?_tokens {r : Rank} (p : Phrase r) (hflat : .openParen ∉ p.tokens) (op : Operator)
    (rest : List Token) :
    steps? (some (op, false)) (p.tokens ++ rest) = (steps? none rest).map (p.steps op ++ ·) := by
  induction p generalizing op rest with
  | number x => exact steps?_signs [] x op false rest
  | group e ih => simp [Phrase.tokens] at hflat
  | signed signs a ih =>
    cases a with
    | number x => simpa [Phrase.tokens, Phrase.steps, Phrase.value] using
        steps?_signs signs x op false rest
    | group e => simp [Phrase.tokens] at hflat
  | ofFactor f ih => exact ih hflat op rest
  | ofTerm t ih => exact ih hflat op rest
  | product t s f iht ihf | sum e s t iht ihf =>
    simp only [Phrase.tokens, List.mem_append, List.mem_cons, not_or] at hflat
    simp only [Phrase.tokens, Phrase.steps, List.append_assoc, List.cons_append]
    rw [iht hflat.1, steps?_operator, ihf hflat.2.2, Option.map_map]
    rfl

/-- The value of the steps that remain, if `term` is the term in the making and `front` adds it,
once it is complete, to the terms before it. -/
def total? (front : Binary64 → Binary64) (term : Binary64) (steps : List Step) : Option Binary64 :=
  (terms? term steps).map fun (first, more) => more.foldl addTerm (front first)

variable {front : Binary64 → Binary64} {term x : Binary64} {rest : List Step}

theorem stepsValue?_cons (op : Operator) : stepsValue? ((op, x) :: rest) = total? id x rest := rfl

theorem total?_nil : total? front term [] = some (front term) := rfl

theorem total?_scale (s : Scale) :
    total? front term ((s.operator, x) :: rest) =
      if s.allows x then total? front (s.combine term x) rest else none := by
  cases s with
  | times => rfl
  | dividedBy =>
    cases hzero : x.same 0 <;>
      simp [total?, terms?, Scale.operator, Scale.allows, Scale.combine, hzero]

theorem total?_sign (s : Sign) :
    total? front term ((s.operator, x) :: rest) =
      total? (fun next => s.combine (front term) next) x rest := by
  cases s <;> simp [total?, terms?, Sign.operator, Sign.combine, addTerm, Function.comp_def]

namespace Phrase

theorem isProper_factor (f : Phrase .factor) (hflat : .openParen ∉ f.tokens) :
    f.isProper = true := by
  cases f with
  | signed signs a =>
    cases a with
    | number x => rfl
    | group e => simp [tokens] at hflat

theorem steps_factor (f : Phrase .factor) (op : Operator) : f.steps op = [(op, f.value)] := by
  cases f
  rfl

theorem total?_term : ∀ t : Phrase .term, .openParen ∉ t.tokens →
    ∃ x tail, (∀ op, t.steps op = (op, x) :: tail) ∧ ∀ front more,
      total? front x (tail ++ more) = if t.isProper then total? front t.value more else none
  | ofFactor f, hflat => by
    refine ⟨f.value, [], fun op => f.steps_factor op, fun front more => ?_⟩
    simp [isProper, f.isProper_factor hflat, value]
  | product t s f, hflat => by
    simp only [tokens, List.mem_append, List.mem_cons, not_or] at hflat
    obtain ⟨x, tail, hsteps, htotal⟩ := total?_term t hflat.1
    refine ⟨x, tail ++ [(s.operator, f.value)], fun op => ?_, fun front more => ?_⟩
    · simp [steps, hsteps, f.steps_factor]
    · rw [List.append_assoc, htotal, List.singleton_append, total?_scale]
      cases ht : t.isProper <;>
        simp [isProper, value, ht, f.isProper_factor hflat.2.2]

theorem total?_expression : ∀ e : Phrase .expression, .openParen ∉ e.tokens →
    ∃ x tail, (∀ op, e.steps op = (op, x) :: tail) ∧
      (e.isProper = true → ∃ front last, front last = e.value ∧
        ∀ more, total? id x (tail ++ more) = total? front last more) ∧
      (e.isProper = false → ∀ more, total? id x (tail ++ more) = none)
  | ofTerm t, hflat => by
    obtain ⟨x, tail, hsteps, htotal⟩ := t.total?_term hflat
    refine ⟨x, tail, hsteps, fun h => ⟨id, t.value, rfl, fun more => ?_⟩, fun h more => ?_⟩
    · have ht : t.isProper = true := h
      rw [htotal, if_pos ht]
    · have ht : t.isProper = false := h
      rw [htotal, ht, if_neg Bool.false_ne_true]
  | sum e s t, hflat => by
    simp only [tokens, List.mem_append, List.mem_cons, not_or] at hflat
    obtain ⟨x, tail, hsteps, hproper, himproper⟩ := total?_expression e hflat.1
    obtain ⟨y, more, hterm, htotal⟩ := t.total?_term hflat.2.2
    -- the sign completes the last term of `e`, and `t` is in the making from there on
    refine ⟨x, tail ++ (s.operator, y) :: more, fun op => ?_, fun h => ?_, fun h others => ?_⟩
    · simp [steps, hsteps, hterm]
    · obtain ⟨he, ht⟩ := Bool.and_eq_true_iff.mp h
      obtain ⟨front, last, hvalue, hfront⟩ := hproper he
      refine ⟨fun next => s.combine e.value next, t.value, rfl, fun others => ?_⟩
      rw [List.append_assoc, List.cons_append, hfront, total?_sign, htotal, if_pos ht, hvalue]
    · rw [List.append_assoc, List.cons_append]
      cases he : e.isProper with
      | false => exact himproper he _
      | true =>
        have ht : t.isProper = false := by simpa [isProper, he] using h
        obtain ⟨front, last, -, hfront⟩ := hproper he
        rw [hfront, total?_sign, htotal, ht, if_neg Bool.false_ne_true]

theorem flatValue?_tokens (e : Phrase .expression) (hflat : .openParen ∉ e.tokens) :
    flatValue? e.tokens = e.result? := by
  obtain ⟨x, tail, hsteps, hproper, himproper⟩ := e.total?_expression hflat
  have hread : steps? (some (.add, false)) e.tokens = some (e.steps .add) := by
    simpa [steps?] using steps?_tokens e hflat .add []
  rw [flatValue?, hread, Option.bind_some, hsteps, stepsValue?_cons, result?]
  cases h : e.isProper with
  | true =>
    obtain ⟨front, last, hvalue, hfront⟩ := hproper h
    have htotal := hfront []
    rw [List.append_nil, total?_nil, hvalue] at htotal
    rw [htotal, Option.bind_some, if_pos rfl]
  | false =>
    have htotal := himproper h []
    rw [List.append_nil] at htotal
    rw [htotal, Option.bind_none, if_neg Bool.false_ne_true]

def scale (s : Scale) : Phrase .expression → Phrase .factor → Phrase .expression
  | ofTerm t, f => ofTerm (product t s f)
  | sum e sign t, f => sum e sign (product t s f)

def attach (e : Phrase .expression) (f : Phrase .factor) : Operator → Phrase .expression
  | .add => sum e .plus (ofFactor f)
  | .subtract => sum e .minus (ofFactor f)
  | .multiply => e.scale .times f
  | .divide => e.scale .dividedBy f

theorem tokens_scale (e : Phrase .expression) (s : Scale) (f : Phrase .factor) :
    (e.scale s f).tokens = e.tokens ++ .operator s.operator :: f.tokens := by
  cases e <;> simp [scale, tokens]

theorem tokens_attach (e : Phrase .expression) (f : Phrase .factor) (op : Operator) :
    (e.attach f op).tokens = e.tokens ++ .operator op :: f.tokens := by
  cases op with
  | add | subtract => rfl
  | multiply => exact e.tokens_scale .times f
  | divide => exact e.tokens_scale .dividedBy f

/-- What can be read as steps continues an expression: behind a factor it goes on with an operator,
and behind an operator with the signs and the operand of a factor. -/
theorem exists_tokens_of_steps? (tokens : List Token) :
    (∀ e : Phrase .expression, (steps? none tokens).isSome = true →
      ∃ e' : Phrase .expression, e'.tokens = e.tokens ++ tokens) ∧
    ∀ (op : Operator) (negative : Bool) (build : Phrase .factor → Phrase .expression)
      (before : List Token) (signs : List Sign),
      (∀ f, (build f).tokens = before ++ f.tokens) →
      (steps? (some (op, negative)) tokens).isSome = true →
      ∃ e : Phrase .expression, e.tokens = before ++ Sign.tokens signs ++ tokens := by
  induction tokens with
  | nil =>
    refine ⟨fun e _ => ⟨e, by simp⟩, fun op negative build before signs _ h => ?_⟩
    simp [steps?] at h
  | cons token rest ih =>
    obtain ⟨hexpression, hfactor⟩ := ih
    constructor
    · intro e h
      cases token with
      | operator op =>
        rw [steps?_operator] at h
        obtain ⟨e', he'⟩ := hfactor op false (fun f => e.attach f op)
          (e.tokens ++ [.operator op]) [] (fun f => by simp [tokens_attach]) h
        exact ⟨e', by simpa [Sign.tokens] using he'⟩
      | number x | openParen | closeParen => simp [steps?] at h
    · intro op negative build before signs hbuild h
      cases token with
      | number x =>
        have hrest : (steps? none rest).isSome = true := by simpa [steps?] using h
        obtain ⟨e, he⟩ := hexpression (build (signed signs (number x))) hrest
        exact ⟨e, by simpa [hbuild, Phrase.tokens] using he⟩
      | operator sign =>
        cases sign with
        | add =>
          obtain ⟨e, he⟩ := hfactor op negative build before (signs ++ [.plus]) hbuild h
          exact ⟨e, by simpa [Sign.tokens, Sign.operator] using he⟩
        | subtract =>
          obtain ⟨e, he⟩ := hfactor op (!negative) build before (signs ++ [.minus]) hbuild h
          exact ⟨e, by simpa [Sign.tokens, Sign.operator] using he⟩
        | multiply | divide => simp [steps?] at h
      | openParen | closeParen => simp [steps?] at h

theorem exists_tokens_of_flatValue? {tokens : List Token} {v : Finite}
    (h : flatValue? tokens = some v) : ∃ e : Phrase .expression, e.tokens = tokens := by
  obtain ⟨x, hx, -⟩ := Option.bind_eq_some_iff.mp h
  obtain ⟨steps, hsteps, -⟩ := Option.bind_eq_some_iff.mp hx
  obtain ⟨e, he⟩ := (exists_tokens_of_steps? tokens).2 .add false (fun f => ofTerm (ofFactor f))
    [] [] (fun f => rfl) (Option.isSome_iff_exists.mpr ⟨steps, hsteps⟩)
  exact ⟨e, he⟩

end Phrase

end DerivedForm.Formula
