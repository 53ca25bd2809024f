import Coinage.Proofs.Pattern.Letters

namespace Coinage

open Bracketed

namespace Text

-- Each letter outside quotations that has a definition gives way to the
-- definition in square brackets.
def expandFrom (definitions : ShortcutMap Text) (quoted : Bool) : Text → Text
  | [] => []
  | c :: rest =>
    if c = '"' then
      c :: expandFrom definitions (!quoted) rest
    else
      match (if quoted then none else Shortcut.ofChar? c).bind definitions.get? with
      | some definition => '[' :: definition ++ ']' :: expandFrom definitions quoted rest
      | none => c :: expandFrom definitions quoted rest

def expand (definitions : ShortcutMap Text) (text : Text) : Text :=
  expandFrom definitions false text

-- The greatest number of groups that are open at once in the rest of a text.
def nestingFrom (quoted : Bool) (level : Nat) : Text → Nat
  | [] => level
  | c :: rest =>
    if c = '"' then
      nestingFrom (!quoted) level rest
    else if quoted then
      nestingFrom quoted level rest
    else if (Bracket.ofOpener? c).isSome then
      nestingFrom quoted (level + 1) rest
    else if (Bracket.ofCloser? c).isSome then
      max level (nestingFrom quoted (level - 1) rest)
    else
      nestingFrom quoted level rest

def nesting (text : Text) : Nat :=
  nestingFrom false 0 text

theorem le_nestingFrom (quoted : Bool) (level : Nat) (text : Text) :
    level ≤ nestingFrom quoted level text := by
  induction text generalizing quoted level with
  | nil => exact Nat.le_refl level
  | cons c rest ih =>
    simp only [nestingFrom]
    split
    · exact ih _ _
    split
    · exact ih _ _
    split
    · exact Nat.le_of_succ_le (ih _ _)
    split
    · exact Nat.le_max_left _ _
    · exact ih _ _

theorem expandFrom_quoted (definitions : ShortcutMap Text) {text : Text} (ht : '"' ∉ text)
    (rest : Text) :
    expandFrom definitions true (text ++ '"' :: rest) =
      text ++ '"' :: expandFrom definitions false rest := by
  induction text with
  | nil => simp [expandFrom]
  | cons c text ih =>
    simp only [List.mem_cons, not_or] at ht
    simp [expandFrom, Ne.symm ht.1, ih ht.2]

theorem nestingFrom_quoted (level : Nat) {text : Text} (ht : '"' ∉ text) (rest : Text) :
    nestingFrom true level (text ++ '"' :: rest) = nestingFrom false level rest := by
  induction text with
  | nil => simp [nestingFrom]
  | cons c text ih =>
    simp only [List.mem_cons, not_or] at ht
    simp [nestingFrom, Ne.symm ht.1, ih ht.2]

end Text

namespace Bracketed

-- The groups that are open at once in a level are those that nest in it.
theorem nestingFrom_render {level : Bracketed} (hl : level.Legible) (above : Nat) (rest : Text) :
    Text.nestingFrom false above (level.render ++ rest) =
      max (above + level.depth) (Text.nestingFrom false above rest) := by
  induction level generalizing above rest with
  | nil =>
    have h := Text.le_nestingFrom false above rest
    simp only [render, depth, List.nil_append]
    omega
  | char c more ih =>
    simp [render, depth, Text.nestingFrom, ne_quote_of_notMem_marks hl.1,
      ofOpener?_of_notMem_marks hl.1, ofCloser?_of_notMem_marks hl.1, ih hl.2]
  | quoted text more ih =>
    have hq := Text.nestingFrom_quoted above hl.1 (more.render ++ rest)
    simp [render, depth, Text.nestingFrom, hq, ih hl.2]
  | group bracket interior more ihi ihr =>
    have hi := ihi hl.1 (above + 1) (bracket.closer :: (more.render ++ rest))
    have hc : Text.nestingFrom false (above + 1) (bracket.closer :: (more.render ++ rest)) =
        max (above + 1) (Text.nestingFrom false above (more.render ++ rest)) := by
      cases bracket <;> simp [Text.nestingFrom, Bracket.closer, Bracket.ofOpener?, Bracket.ofCloser?]
    have ho : Text.nestingFrom false above ((group bracket interior more).render ++ rest) =
        Text.nestingFrom false (above + 1)
          (interior.render ++ bracket.closer :: (more.render ++ rest)) := by
      cases bracket <;> simp [render, Text.nestingFrom, Bracket.opener, Bracket.ofOpener?]
    rw [ho, hi, hc, ihr hl.2, depth]
    omega

theorem nesting_render {level : Bracketed} (hl : level.Legible) :
    level.render.nesting = level.depth := by
  have h := nestingFrom_render hl 0 []
  simpa [Text.nesting, Text.nestingFrom] using h

-- The level of an expanded text.
def expand (definitions : Shortcut → Option Bracketed) : Bracketed → Bracketed
  | nil => nil
  | char c rest =>
    match (Shortcut.ofChar? c).bind definitions with
    | some definition => group .square definition (rest.expand definitions)
    | none => char c (rest.expand definitions)
  | quoted text rest => quoted text (rest.expand definitions)
  | group bracket interior rest =>
    group bracket (interior.expand definitions) (rest.expand definitions)

theorem expandFrom_render {texts : ShortcutMap Text} {definitions : Shortcut → Option Bracketed}
    (hd : ∀ shortcut, (definitions shortcut).map render = texts.get? shortcut)
    {level : Bracketed} (hl : level.Legible) (rest : Text) :
    Text.expandFrom texts false (level.render ++ rest) =
      (level.expand definitions).render ++ Text.expandFrom texts false rest := by
  induction level generalizing rest with
  | nil => rfl
  | char c more ih =>
    have hc := ne_quote_of_notMem_marks hl.1
    have hbind : (Shortcut.ofChar? c).bind texts.get? =
        ((Shortcut.ofChar? c).bind definitions).map render := by
      cases Shortcut.ofChar? c with
      | none => rfl
      | some shortcut => exact (hd shortcut).symm
    simp only [render, List.cons_append, Text.expandFrom, if_neg hc, expand]
    rw [if_neg Bool.false_ne_true, hbind, ih hl.2]
    cases (Shortcut.ofChar? c).bind definitions with
    | none => rfl
    | some definition => simp [render, Bracket.opener, Bracket.closer]
  | quoted text more ih =>
    have hq := Text.expandFrom_quoted texts hl.1 (more.render ++ rest)
    simp [render, expand, Text.expandFrom, hq, ih hl.2]
  | group bracket interior more ihi ihr =>
    have hi := ihi hl.1 (bracket.closer :: (more.render ++ rest))
    simp [render, expand, Text.expandFrom, hi, ihr hl.2]

theorem expand_render {texts : ShortcutMap Text} {definitions : Shortcut → Option Bracketed}
    (hd : ∀ shortcut, (definitions shortcut).map render = texts.get? shortcut)
    {level : Bracketed} (hl : level.Legible) :
    level.render.expand texts = (level.expand definitions).render := by
  have h := expandFrom_render hd hl []
  simpa [Text.expand, Text.expandFrom] using h

theorem Legible.expand {definitions : Shortcut → Option Bracketed}
    (hd : ∀ shortcut definition, definitions shortcut = some definition → definition.Legible)
    {level : Bracketed} (hl : level.Legible) : (level.expand definitions).Legible := by
  induction level with
  | nil => trivial
  | char c rest ih =>
    rw [Bracketed.expand]
    split
    · rename_i definition hs
      obtain ⟨shortcut, -, hs⟩ := Option.bind_eq_some_iff.mp hs
      exact ⟨hd shortcut definition hs, ih hl.2⟩
    · exact ⟨hl.1, ih hl.2⟩
  | quoted text rest ih => exact ⟨hl.1, ih hl.2⟩
  | group bracket interior rest ihi ihr => exact ⟨ihi hl.1, ihr hl.2⟩

end Bracketed

mutual

-- Each letter that has a definition gives way to a mandatory group.
def Pattern.expand (definitions : Shortcut → Option Pattern) : Pattern → Pattern
  | .nil => .nil
  | .cons body suffix rest => .cons (body.expand definitions) suffix (rest.expand definitions)

def Body.expand (definitions : Shortcut → Option Pattern) : Body → Body
  | .nil => .nil
  | .plain run rest => .plain run (rest.expand definitions)
  | .quoted text rest => .quoted text (rest.expand definitions)
  | .letter shortcut rest =>
    match definitions shortcut with
    | some definition => .group .square definition (rest.expand definitions)
    | none => .letter shortcut (rest.expand definitions)
  | .group bracket interior rest =>
    .group bracket (interior.expand definitions) (rest.expand definitions)

end

section Commute

variable (definitions : Shortcut → Option Pattern)

theorem Pattern.suffixes_expand (pattern : Pattern) :
    (pattern.expand definitions).suffixes = pattern.suffixes := by
  cases pattern with
  | nil => rfl
  | cons body suffix rest => exact congrArg (suffix :: ·) (Pattern.suffixes_expand rest)

theorem Body.expand_prepend (c : Char) (body : Body) :
    (body.prepend c).expand definitions = (body.expand definitions).prepend c := by
  cases body with
  | letter shortcut rest =>
    simp only [Body.prepend, Body.expand]
    cases definitions shortcut <;> rfl
  | _ => rfl

theorem Body.leadingDigits_expand (body : Body) :
    (body.expand definitions).leadingDigits = body.leadingDigits := by
  cases body with
  | letter shortcut rest =>
    simp only [Body.expand]
    cases definitions shortcut <;> rfl
  | _ => rfl

theorem Body.expand_dropDigits (body : Body) :
    body.dropDigits.expand definitions = (body.expand definitions).dropDigits := by
  cases body with
  | plain run rest =>
    simp only [Body.dropDigits, Body.expand]
    cases run.dropWhile Char.isDigit <;> rfl
  | letter shortcut rest =>
    simp only [Body.dropDigits, Body.expand]
    cases definitions shortcut <;> rfl
  | _ => rfl

namespace Alternatives

def expand (right : Alternatives) : Alternatives :=
  ⟨right.body.expand definitions, right.suffix, right.rest.expand definitions⟩

theorem close_expand (right : Alternatives) :
    (right.expand definitions).close = right.close.expand definitions := by
  obtain ⟨body, suffix, rest⟩ := right
  cases body with
  | letter shortcut more =>
    simp only [expand, close, Body.expand, Pattern.expand]
    cases definitions shortcut <;> rfl
  | _ => cases suffix <;> rfl

-- Separators and plain characters do not see what the letters become.
theorem expand_char {c : Char} (h : (Shortcut.ofChar? c).bind definitions = none)
    (right : Alternatives) :
    (right.char c).expand definitions = (right.expand definitions).char c := by
  unfold Alternatives.char
  by_cases hslash : c = '/'
  · rw [if_pos hslash, if_pos hslash, slash, slash, close_expand]
    rfl
  by_cases hstar : c = '*'
  · have hclose := close_expand definitions { right with body := right.body.dropDigits }
    rw [if_neg hslash, if_pos hstar, if_neg hslash, if_pos hstar, star, star]
    simp only [expand] at hclose ⊢
    rw [← hclose, Body.expand_dropDigits, Body.leadingDigits_expand]
    rfl
  rw [if_neg hslash, if_neg hstar, if_neg hslash, if_neg hstar]
  cases hs : Shortcut.ofChar? c with
  | none => simp only [expand, Body.expand_prepend]
  | some shortcut =>
    rw [hs, Option.bind_some] at h
    simp only [expand, Body.expand, h]

theorem expand_char_of_some {c : Char} {shortcut : Shortcut} {definition : Pattern}
    (hc : Shortcut.ofChar? c = some shortcut) (h : definitions shortcut = some definition)
    (right : Alternatives) :
    (right.char c).expand definitions =
      ⟨.group .square definition (right.expand definitions).body, right.suffix,
        (right.expand definitions).rest⟩ := by
  have hslash : c ≠ '/' := by
    rintro rfl
    cases hc
  have hstar : c ≠ '*' := by
    rintro rfl
    cases hc
  rw [Alternatives.char, if_neg hslash, if_neg hstar, hc]
  simp only [expand, Body.expand, h]

end Alternatives

end Commute

namespace Bracketed

theorem alternatives_expand (definitions : Shortcut → Option Bracketed) (level : Bracketed) :
    (level.expand definitions).alternatives =
      level.alternatives.expand fun shortcut => (definitions shortcut).map pattern := by
  induction level with
  | nil => rfl
  | char c rest ih =>
    rw [expand]
    split
    · rename_i definition hs
      obtain ⟨shortcut, hc, hd⟩ := Option.bind_eq_some_iff.mp hs
      have hp : (definitions shortcut).map pattern = some definition.pattern := by rw [hd]; rfl
      rw [alternatives, alternatives, Alternatives.expand_char_of_some _ hc hp, ih]
      rfl
    · rename_i hs
      have hp : (Shortcut.ofChar? c).bind (fun shortcut => (definitions shortcut).map pattern) =
          none := by
        cases hc : Shortcut.ofChar? c with
        | none => rfl
        | some shortcut =>
          rw [hc, Option.bind_some] at hs
          simp [hs]
      rw [alternatives, alternatives, Alternatives.expand_char _ hp, ih]
  | quoted text rest ih =>
    rw [expand, alternatives, alternatives, ih]
    rfl
  | group bracket interior rest ihi ihr =>
    rw [expand, alternatives, alternatives, ihi, ihr, Alternatives.close_expand]
    rfl

-- Reading and expanding can change places.
theorem pattern_expand (definitions : Shortcut → Option Bracketed) (level : Bracketed) :
    (level.expand definitions).pattern =
      level.pattern.expand fun shortcut => (definitions shortcut).map pattern := by
  rw [pattern, alternatives_expand, Alternatives.close_expand, pattern]

end Bracketed

end Coinage
