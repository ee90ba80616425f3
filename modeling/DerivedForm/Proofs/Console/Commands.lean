import Mathlib.Data.List.DropRight
import DerivedForm.Console.Screen
import DerivedForm.Proofs.Calendar.Written

/-!
# Commands on lines

A dialogue trims its lines before it looks for a word and an argument. Only blanks at the end of the argument
get lost, or the space behind the word if nothing else follows, and neither a field nor the value of an edit
depends on them. Lines that are each ended by a line end are read as these lines.
-/

namespace DerivedForm

namespace Text

variable {s front rest : List Char} {c : Char}

def trimEnd (s : List Char) : List Char := s.rdropWhile isBlank

theorem trimmed_eq_trimEnd (s : List Char) : trimmed s = trimEnd (dropBlanks s) := rfl

theorem trimEnd_of_blank (h : s.all isBlank = true) : trimEnd s = [] := by
  rw [trimEnd, List.rdropWhile_eq_nil_iff]
  exact List.all_eq_true.mp h

theorem trimEnd_append_cons (front : List Char) (hc : isBlank c = false) (rest : List Char) :
    trimEnd (front ++ c :: rest) = front ++ c :: trimEnd rest := by
  simp only [trimEnd, List.rdropWhile, List.reverse_append, List.reverse_cons, List.append_assoc,
    List.singleton_append, List.dropWhile_append]
  rw [List.dropWhile_cons_of_neg (by simp [hc])]
  split
  · rename_i hempty
    simp [List.isEmpty_iff.mp hempty]
  · simp

theorem trimEnd_cons (hc : isBlank c = false) (rest : List Char) :
    trimEnd (c :: rest) = c :: trimEnd rest := trimEnd_append_cons [] hc rest

theorem blank_or_exists (s : List Char) : s.all isBlank = true ∨
    ∃ front c rest, s = front ++ c :: rest ∧ front.all isBlank = true ∧ isBlank c = false := by
  induction s with
  | nil => exact Or.inl rfl
  | cons d s ih =>
    cases hd : isBlank d with
    | false => exact Or.inr ⟨[], d, s, rfl, rfl, hd⟩
    | true =>
      rcases ih with hblank | ⟨front, c, rest, rfl, hfront, hc⟩
      · exact Or.inl (by simp [hd, hblank])
      · exact Or.inr ⟨d :: front, c, rest, rfl, by simp [hd, hfront], hc⟩

theorem dropBlanks_append_cons (hfront : front.all isBlank = true) (hc : isBlank c = false)
    (rest : List Char) : dropBlanks (front ++ c :: rest) = c :: rest := by
  unfold dropBlanks
  rw [List.dropWhile_append_of_pos (List.all_eq_true.mp hfront)]
  exact List.dropWhile_cons_of_neg (by simp [hc])

theorem trimmed_trimEnd (s : List Char) : trimmed (trimEnd s) = trimmed s := by
  rcases blank_or_exists s with hblank | ⟨front, c, rest, rfl, hfront, hc⟩
  · rw [trimEnd_of_blank hblank, (trimmed_eq_nil_iff s).mpr hblank, trimmed_nil]
  · rw [trimEnd_append_cons front hc, trimmed_eq_trimEnd, trimmed_eq_trimEnd,
      dropBlanks_append_cons hfront hc, dropBlanks_append_cons hfront hc,
      ← trimEnd_cons hc]
    exact List.rdropWhile_idempotent isBlank _

theorem trimmed_word_argument {word : List Char} (hne : word ≠ [])
    (hword : word.any isBlank = false) (argument : List Char) :
    trimmed (word ++ ' ' :: argument) =
      if argument.all isBlank then word else word ++ ' ' :: trimEnd argument := by
  have hsolid : ∀ c ∈ word, isBlank c = false := by simpa using hword
  obtain ⟨first, others, rfl⟩ := List.exists_cons_of_ne_nil hne
  have hdrop : dropBlanks (first :: others ++ ' ' :: argument) =
      first :: others ++ ' ' :: argument :=
    dropBlanks_cons (hsolid first List.mem_cons_self) _
  rw [trimmed_eq_trimEnd, hdrop]
  rcases blank_or_exists argument with hblank | ⟨front, c, rest, rfl, -, hc⟩
  · obtain ⟨initial, last, hlast⟩ : ∃ initial last, first :: others = initial ++ [last] :=
      ⟨_, _, (List.dropLast_concat_getLast hne).symm⟩
    have hspace : (' ' :: argument).all isBlank = true := by
      rw [List.all_cons, hblank]
      decide
    rw [if_pos hblank, hlast, List.append_assoc, List.singleton_append,
      trimEnd_append_cons initial (hsolid last (by simp [hlast])), trimEnd_of_blank hspace]
  · have hfront : first :: others ++ ' ' :: (front ++ c :: rest) =
        (first :: others ++ ' ' :: front) ++ c :: rest := by simp
    rw [if_neg (by simp [hc]), hfront, trimEnd_append_cons _ hc, trimEnd_append_cons front hc]
    simp

end Text

namespace Console

variable {s before after : List Char} {c : Char}

theorem splitFirst?_of_notMem (h : c ∉ s) : splitFirst? c s = none := by
  induction s with
  | nil => rfl
  | cons d rest ih =>
    obtain ⟨hd, hrest⟩ := not_or.mp (List.mem_cons.not.mp h)
    rw [splitFirst?, if_neg (Ne.symm hd), ih hrest]
    rfl

theorem splitFirst?_append (h : c ∉ before) (after : List Char) :
    splitFirst? c (before ++ c :: after) = some (before, after) := by
  induction before with
  | nil => simp [splitFirst?]
  | cons d rest ih =>
    obtain ⟨hd, hrest⟩ := not_or.mp (List.mem_cons.not.mp h)
    rw [List.cons_append, splitFirst?, if_neg (Ne.symm hd), ih hrest]
    rfl

theorem exists_readEdit? {edit : String} (h : '=' ∈ edit.toList) : ∃ id value,
    readEdit? edit = some (id, value) ∧
      readEdit? (String.ofList (Text.trimEnd edit.toList)) = some (id, value) := by
  obtain ⟨before, after, hsplit, hbefore⟩ := List.eq_append_cons_of_mem h
  refine ⟨String.ofList (Text.trimmed before), editValue after, ?_, ?_⟩
  · rw [readEdit?, hsplit, splitFirst?_append hbefore]
    rfl
  · have hend : Text.trimEnd edit.toList = before ++ '=' :: Text.trimEnd after := by
      rw [hsplit]
      exact Text.trimEnd_append_cons before (by decide) after
    rw [readEdit?, String.toList_ofList, hend, splitFirst?_append hbefore]
    simp only [editValue, Text.trimmed_trimEnd, Option.map_some]

theorem Command.ofLine_argument (word : String) (hne : word.toList ≠ [])
    (hword : word.toList.any Text.isBlank = false) (argument : String) :
    Command.ofLine (word ++ " " ++ argument) =
      Command.ofWord word (String.ofList (Text.trimEnd argument.toList)) := by
  have hspace : ' ' ∉ word.toList := fun h => absurd (List.any_eq_false.mp hword ' ' h) (by decide)
  have hline : (word ++ " " ++ argument).toList = word.toList ++ ' ' :: argument.toList := by
    simp
  rw [Command.ofLine, hline, Text.trimmed_word_argument hne hword]
  split_ifs with hblank
  · rw [splitFirst?_of_notMem hspace, Text.trimEnd_of_blank hblank, String.ofList_toList]
  · simp [splitFirst?_append hspace]

theorem Command.ofLine_trimmed (word : String) (command : String → Command) (hne : word.toList ≠ [])
    (hword : word.toList.any Text.isBlank = false)
    (hcommand : ∀ argument, ofWord word argument = command (Text.trim argument)) {id : String}
    (h : Text.trim id = id) : Command.ofLine (word ++ " " ++ id) = command id := by
  rw [ofLine_argument word hne hword, hcommand, Text.trim, String.toList_ofList,
    Text.trimmed_trimEnd]
  exact congrArg command h

def inputOf (lines : List String) : String := String.join (lines.map (· ++ "\n"))

theorem splitOn_inputOf {lines : List String} (h : ∀ line ∈ lines, '\n' ∉ line.toList) :
    (inputOf lines).toList.splitOn '\n' = lines.map String.toList ++ [[]] := by
  induction lines with
  | nil => rfl
  | cons line rest ih =>
    obtain ⟨hline, hrest⟩ := List.forall_mem_cons.mp h
    have hinput : (inputOf (line :: rest)).toList = line.toList ++ '\n' :: (inputOf rest).toList := by
      simp [inputOf, String.toList_join]
    rw [hinput, List.splitOn_append_cons_self_of_not_mem hline, ih hrest]
    rfl

theorem linesOf_inputOf {lines : List String} (h : ∀ line ∈ lines, '\n' ∉ line.toList) :
    linesOf (inputOf lines) = lines := by
  rw [linesOf, splitOn_inputOf h]
  simp [Function.comp_def]

end Console

end DerivedForm
