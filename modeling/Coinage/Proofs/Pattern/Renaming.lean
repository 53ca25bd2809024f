import Coinage.Proofs.Pattern.Canonical
import Coinage.Proofs.Pattern.Letters
import Mathlib.Logic.Equiv.Defs

namespace Coinage

open Bracketed

section Renaming

variable (names : Shortcut → Shortcut)

-- A letter gives way to another one. Other characters stay.
def Shortcut.renameChar (c : Char) : Char :=
  match ofChar? c with
  | some shortcut => (names shortcut).toChar
  | none => c

namespace Shortcut

variable {names} {c : Char}

theorem renameChar_of_some {shortcut : Shortcut} (h : ofChar? c = some shortcut) :
    renameChar names c = (names shortcut).toChar := by
  rw [renameChar, h]

theorem renameChar_of_none (h : ofChar? c = none) : renameChar names c = c := by
  rw [renameChar, h]

@[simp] theorem renameChar_toChar (shortcut : Shortcut) :
    renameChar names shortcut.toChar = (names shortcut).toChar :=
  renameChar_of_some (ofChar?_toChar shortcut)

-- A letter stays a letter, and nothing else becomes one.
@[simp] theorem ofChar?_renameChar (c : Char) :
    ofChar? (renameChar names c) = (ofChar? c).map names := by
  cases h : ofChar? c with
  | none => rw [renameChar_of_none h, h, Option.map_none]
  | some shortcut => rw [renameChar_of_some h, ofChar?_toChar, Option.map_some]

theorem renameChar_notMem_marks (hc : c ∉ marks) : renameChar names c ∉ marks := by
  cases h : ofChar? c with
  | none => rwa [renameChar_of_none h]
  | some shortcut =>
    rw [renameChar_of_some h]
    exact toChar_notMem_marks (names shortcut)

theorem renameChar_ne_quote (hc : c ≠ '"') : renameChar names c ≠ '"' := by
  cases h : ofChar? c with
  | none => rwa [renameChar_of_none h]
  | some shortcut =>
    rw [renameChar_of_some h]
    exact ne_quote_of_notMem_marks (toChar_notMem_marks (names shortcut))

theorem renameChar_renameChar_symm (permutation : Equiv.Perm Shortcut) (c : Char) :
    renameChar permutation.symm (renameChar permutation c) = c := by
  cases h : ofChar? c with
  | none => rw [renameChar_of_none h, renameChar_of_none h]
  | some shortcut =>
    rw [renameChar_of_some h, renameChar_toChar, Equiv.symm_apply_apply, toChar_of_ofChar? h]

end Shortcut

namespace Text

-- The rest of a text with other letters outside quotations.
def renameFrom (quoted : Bool) : Text → Text
  | [] => []
  | c :: rest =>
    if c = '"' then
      c :: renameFrom (!quoted) rest
    else
      (if quoted then c else Shortcut.renameChar names c) :: renameFrom quoted rest

def rename (text : Text) : Text :=
  renameFrom names false text

variable {names}

theorem mentionsShortcutFrom_renameFrom (quoted : Bool) (text : Text) :
    mentionsShortcutFrom quoted (renameFrom names quoted text) =
      mentionsShortcutFrom quoted text := by
  induction text generalizing quoted with
  | nil => rfl
  | cons c rest ih =>
    by_cases hc : c = '"'
    · simp [renameFrom, mentionsShortcutFrom, hc, ih]
    · cases quoted <;>
        simp [renameFrom, mentionsShortcutFrom, hc, ih, Shortcut.renameChar_ne_quote hc]

-- A text does not change its kind.
theorem mentionsShortcut_rename (text : Text) :
    (text.rename names).mentionsShortcut = text.mentionsShortcut :=
  mentionsShortcutFrom_renameFrom false text

theorem renameFrom_renameFrom_symm (permutation : Equiv.Perm Shortcut) (quoted : Bool)
    (text : Text) :
    renameFrom permutation.symm quoted (renameFrom permutation quoted text) = text := by
  induction text generalizing quoted with
  | nil => rfl
  | cons c rest ih =>
    by_cases hc : c = '"'
    · simp [renameFrom, hc, ih]
    · cases quoted <;>
        simp [renameFrom, hc, ih, Shortcut.renameChar_ne_quote hc,
          Shortcut.renameChar_renameChar_symm]

theorem rename_rename_symm (permutation : Equiv.Perm Shortcut) (text : Text) :
    (text.rename permutation).rename permutation.symm = text :=
  renameFrom_renameFrom_symm permutation false text

variable (names) in
theorem renameFrom_quoted {text : Text} (ht : '"' ∉ text) (rest : Text) :
    renameFrom names true (text ++ '"' :: rest) = text ++ '"' :: renameFrom names false rest := by
  induction text with
  | nil => simp [renameFrom]
  | cons c text ih =>
    simp only [List.mem_cons, not_or] at ht
    simp [renameFrom, Ne.symm ht.1, ih ht.2]

end Text

namespace Bracketed

-- The level of a renamed text.
def rename : Bracketed → Bracketed
  | nil => nil
  | char c rest => char (Shortcut.renameChar names c) rest.rename
  | quoted text rest => quoted text rest.rename
  | group bracket interior rest => group bracket interior.rename rest.rename

theorem renameFrom_render {level : Bracketed} (hl : level.Legible) (rest : Text) :
    Text.renameFrom names false (level.render ++ rest) =
      (level.rename names).render ++ Text.renameFrom names false rest := by
  induction level generalizing rest with
  | nil => rfl
  | char c more ih =>
    simp [render, rename, Text.renameFrom, ne_quote_of_notMem_marks hl.1, ih hl.2]
  | quoted text more ih =>
    have hq := Text.renameFrom_quoted names hl.1 (more.render ++ rest)
    simp [render, rename, Text.renameFrom, hq, ih hl.2]
  | group bracket interior more ihi ihr =>
    have hi := ihi hl.1 (bracket.closer :: (more.render ++ rest))
    have ho : Shortcut.renameChar names bracket.opener = bracket.opener :=
      Shortcut.renameChar_of_none bracket.ofChar?_opener
    have hc : Shortcut.renameChar names bracket.closer = bracket.closer :=
      Shortcut.renameChar_of_none bracket.ofChar?_closer
    simp [render, rename, Text.renameFrom, hi, ihr hl.2, ho, hc]

theorem rename_render {level : Bracketed} (hl : level.Legible) :
    level.render.rename names = (level.rename names).render := by
  have h := renameFrom_render names hl []
  simpa [Text.rename, Text.renameFrom] using h

variable {names}

theorem Legible.rename {level : Bracketed} (hl : level.Legible) : (level.rename names).Legible := by
  induction level with
  | nil => trivial
  | char c rest ih => exact ⟨Shortcut.renameChar_notMem_marks hl.1, ih hl.2⟩
  | quoted text rest ih => exact ⟨hl.1, ih hl.2⟩
  | group bracket interior rest ihi ihr => exact ⟨ihi hl.1, ihr hl.2⟩

theorem depth_rename (level : Bracketed) : (level.rename names).depth = level.depth := by
  induction level with
  | nil => rfl
  | char c rest ih => exact ih
  | quoted text rest ih => exact ih
  | group bracket interior rest ihi ihr => simp only [rename, depth, ihi, ihr]

theorem read_rename {text : Text} {level : Bracketed} (h : read text = .ok level) :
    read (text.rename names) = .ok (level.rename names) := by
  obtain ⟨hl, hd, rfl⟩ := read_eq_ok_iff.mp h
  refine read_eq_ok_iff.mpr ⟨hl.rename, ?_, (rename_render names hl).symm⟩
  rwa [depth_rename]

end Bracketed

mutual

def Pattern.rename : Pattern → Pattern
  | .nil => .nil
  | .cons body suffix rest => .cons body.rename suffix rest.rename

def Body.rename : Body → Body
  | .nil => .nil
  | .plain run rest => .plain run rest.rename
  | .quoted text rest => .quoted text rest.rename
  | .letter shortcut rest => .letter (names shortcut) rest.rename
  | .group bracket interior rest => .group bracket interior.rename rest.rename

end

variable {names}

theorem Pattern.suffixes_rename (pattern : Pattern) :
    (pattern.rename names).suffixes = pattern.suffixes := by
  cases pattern with
  | nil => rfl
  | cons body suffix rest => exact congrArg (suffix :: ·) (Pattern.suffixes_rename rest)

theorem Body.rename_prepend (c : Char) (body : Body) :
    (body.prepend c).rename names = (body.rename names).prepend c := by
  cases body <;> rfl

theorem Body.leadingDigits_rename (body : Body) :
    (body.rename names).leadingDigits = body.leadingDigits := by
  cases body <;> rfl

theorem Body.rename_dropDigits (body : Body) :
    body.dropDigits.rename names = (body.rename names).dropDigits := by
  cases body with
  | plain run rest =>
    simp only [Body.dropDigits, Body.rename]
    cases run.dropWhile Char.isDigit <;> rfl
  | _ => rfl

namespace Alternatives

variable (names)

def rename (right : Alternatives) : Alternatives :=
  ⟨right.body.rename names, right.suffix, right.rest.rename names⟩

theorem close_rename (right : Alternatives) :
    (right.rename names).close = right.close.rename names := by
  obtain ⟨body, suffix, rest⟩ := right
  cases body <;> cases suffix <;> rfl

-- Letters are renamed and no character gets another meaning.
theorem rename_char (c : Char) (right : Alternatives) :
    (right.char c).rename names = (right.rename names).char (Shortcut.renameChar names c) := by
  cases hc : Shortcut.ofChar? c with
  | some shortcut =>
    obtain ⟨hslash, hstar⟩ := shortcut.toChar_ne_separator
    obtain ⟨hslash', hstar'⟩ := (names shortcut).toChar_ne_separator
    obtain rfl := Shortcut.toChar_of_ofChar? hc
    simp only [Shortcut.renameChar_toChar, Alternatives.char, hslash, hstar, hslash', hstar',
      if_false, Shortcut.ofChar?_toChar]
    rfl
  | none =>
    rw [Shortcut.renameChar_of_none hc]
    unfold Alternatives.char
    by_cases hslash : c = '/'
    · rw [if_pos hslash, if_pos hslash, slash, slash, close_rename]
      rfl
    by_cases hstar : c = '*'
    · have hclose := close_rename names { right with body := right.body.dropDigits }
      rw [if_neg hslash, if_pos hstar, if_neg hslash, if_pos hstar, star, star]
      simp only [rename] at hclose ⊢
      rw [← hclose, Body.rename_dropDigits, Body.leadingDigits_rename]
      rfl
    rw [if_neg hslash, if_neg hstar, if_neg hslash, if_neg hstar, hc]
    simp only [rename, Body.rename_prepend]

end Alternatives

namespace Bracketed

theorem alternatives_rename (level : Bracketed) :
    (level.rename names).alternatives = level.alternatives.rename names := by
  induction level with
  | nil => rfl
  | char c rest ih => rw [rename, alternatives, alternatives, Alternatives.rename_char, ih]
  | quoted text rest ih =>
    rw [rename, alternatives, alternatives, ih]
    rfl
  | group bracket interior rest ihi ihr =>
    rw [rename, alternatives, alternatives, ihi, ihr, Alternatives.close_rename]
    rfl

-- Reading and renaming can change places.
theorem pattern_rename (level : Bracketed) :
    (level.rename names).pattern = level.pattern.rename names := by
  rw [pattern, alternatives_rename, Alternatives.close_rename, pattern]

end Bracketed

end Renaming

end Coinage
