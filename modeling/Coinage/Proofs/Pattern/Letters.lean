import Coinage.Proofs.Bracketed.Invariant
import Coinage.Proofs.Pattern.Landmarks

namespace Coinage

open Bracketed

namespace Text

-- The letters that stand outside quotations in the rest of a text, from left
-- to right.
def lettersFrom (quoted : Bool) : Text → List Shortcut
  | [] => []
  | c :: rest =>
    if c = '"' then
      lettersFrom (!quoted) rest
    else
      (if quoted then none else Shortcut.ofChar? c).toList ++ lettersFrom quoted rest

def letters (text : Text) : List Shortcut :=
  lettersFrom false text

theorem mentionsShortcutFrom_eq_false_iff (quoted : Bool) (text : Text) :
    mentionsShortcutFrom quoted text = false ↔ lettersFrom quoted text = [] := by
  induction text generalizing quoted with
  | nil => simp [mentionsShortcutFrom, lettersFrom]
  | cons c rest ih =>
    by_cases hc : c = '"'
    · simp [mentionsShortcutFrom, lettersFrom, hc, ih]
    · cases quoted with
      | true => simp [mentionsShortcutFrom, lettersFrom, hc, ih]
      | false =>
        cases ho : Shortcut.ofChar? c <;> simp [mentionsShortcutFrom, lettersFrom, hc, ih, ho]

-- A text that mentions no shortcut has no letters outside quotations.
theorem mentionsShortcut_eq_false_iff (text : Text) :
    text.mentionsShortcut = false ↔ text.letters = [] :=
  mentionsShortcutFrom_eq_false_iff false text

theorem lettersFrom_quoted {text : Text} (ht : '"' ∉ text) (rest : Text) :
    lettersFrom true (text ++ '"' :: rest) = lettersFrom false rest := by
  induction text with
  | nil => simp [lettersFrom]
  | cons c text ih =>
    simp only [List.mem_cons, not_or] at ht
    simp [lettersFrom, Ne.symm ht.1, ih ht.2]

end Text

namespace Bracket

@[simp] theorem ofChar?_opener (bracket : Bracket) : Shortcut.ofChar? bracket.opener = none := by
  cases bracket <;> rfl

@[simp] theorem ofChar?_closer (bracket : Bracket) : Shortcut.ofChar? bracket.closer = none := by
  cases bracket <;> rfl

end Bracket

namespace Bracketed

def letters (level : Bracketed) : List Shortcut :=
  level.landmarks.filterMap Landmark.letter?

@[simp] theorem letters_nil : nil.letters = [] := rfl

@[simp] theorem letters_char (c : Char) (rest : Bracketed) :
    (char c rest).letters = (Shortcut.ofChar? c).toList ++ rest.letters := by
  rw [letters, landmarks, List.filterMap_append, List.filterMap_map]
  exact congrArg (· ++ rest.letters) List.filterMap_some

@[simp] theorem letters_quoted (text : Text) (rest : Bracketed) :
    (quoted text rest).letters = rest.letters := rfl

@[simp] theorem letters_group (bracket : Bracket) (interior rest : Bracketed) :
    (group bracket interior rest).letters = interior.letters ++ rest.letters :=
  List.filterMap_append

theorem lettersFrom_render {level : Bracketed} (hl : level.Legible) (rest : Text) :
    Text.lettersFrom false (level.render ++ rest) =
      level.letters ++ Text.lettersFrom false rest := by
  induction level generalizing rest with
  | nil => rfl
  | char c more ih =>
    simp [render, Text.lettersFrom, ne_quote_of_notMem_marks hl.1, ih hl.2]
  | quoted text more ih =>
    have hq := Text.lettersFrom_quoted hl.1 (more.render ++ rest)
    simp [render, Text.lettersFrom, hq, ih hl.2]
  | group bracket interior more ihi ihr =>
    have hi := ihi hl.1 (bracket.closer :: (more.render ++ rest))
    simp [render, Text.lettersFrom, hi, ihr hl.2]

theorem letters_render {level : Bracketed} (hl : level.Legible) :
    level.render.letters = level.letters := by
  have h := lettersFrom_render hl []
  simpa [Text.letters, Text.lettersFrom] using h

theorem letters_pattern (level : Bracketed) : level.pattern.letters = level.letters :=
  congrArg (List.filterMap Landmark.letter?) (landmarks_pattern level)

end Bracketed

theorem Pattern.read_eq_ok_iff {text : Text} {pattern : Pattern} :
    Pattern.read text = .ok pattern ↔
      ∃ level, Bracketed.read text = .ok level ∧ level.pattern = pattern := by
  unfold Pattern.read
  cases Bracketed.read text <;> simp [Except.map]

-- The letters of a text are those of the pattern that is read from it.
theorem Pattern.letters_of_read {text : Text} {pattern : Pattern}
    (h : Pattern.read text = .ok pattern) : pattern.letters = text.letters := by
  obtain ⟨level, hread, rfl⟩ := Pattern.read_eq_ok_iff.mp h
  obtain ⟨hl, -, rfl⟩ := Bracketed.read_eq_ok_iff.mp hread
  rw [letters_pattern, letters_render hl]

end Coinage
