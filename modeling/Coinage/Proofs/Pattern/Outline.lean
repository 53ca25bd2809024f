import Coinage.Proofs.Pattern.Letters

namespace Coinage

open Bracketed

namespace Text

-- The level that a text begins with, up to the closer that ends it. A quotation
-- or a group in it leaves a single quote.
def outlineFrom (quoted : Bool) (depth : Nat) : Text → Text
  | [] => []
  | c :: rest =>
    if c = '"' then
      (if quoted = false ∧ depth = 0 then ['"'] else []) ++ outlineFrom (!quoted) depth rest
    else if quoted then
      outlineFrom quoted depth rest
    else
      match Bracket.ofOpener? c, Bracket.ofCloser? c, depth with
      | some _, _, depth => (if depth = 0 then ['"'] else []) ++ outlineFrom quoted (depth + 1) rest
      | none, some _, 0 => []
      | none, some _, depth + 1 => outlineFrom quoted depth rest
      | none, none, depth => (if depth = 0 then [c] else []) ++ outlineFrom quoted depth rest

def outline (text : Text) : Text :=
  outlineFrom false 0 text

-- The number of parts that slashes and weights cut a level into, from left to
-- right. A part counts if it holds anything or has a weight. `pending` tells
-- whether the part at hand holds anything yet, and `weight` whether the digits
-- of a weight are being read.
def fragmentsFrom (pending weight : Bool) : Text → Nat
  | [] => if pending then 1 else 0
  | c :: rest =>
    if c = '/' then
      (if pending then 1 else 0) + fragmentsFrom false false rest
    else if c = '*' then
      1 + fragmentsFrom false true rest
    else if weight && c.isDigit then
      fragmentsFrom false true rest
    else
      fragmentsFrom true false rest

def fragments (text : Text) : Nat :=
  fragmentsFrom false false text

theorem outlineFrom_quote (depth : Nat) (rest : Text) :
    outlineFrom false depth ('"' :: rest) =
      (if depth = 0 then ['"'] else []) ++ outlineFrom true depth rest := by
  simp [outlineFrom]

theorem outlineFrom_quoted (depth : Nat) {text : Text} (ht : '"' ∉ text) (rest : Text) :
    outlineFrom true depth (text ++ '"' :: rest) = outlineFrom false depth rest := by
  induction text with
  | nil => simp [outlineFrom]
  | cons c text ih =>
    simp only [List.mem_cons, not_or] at ht
    simp [outlineFrom, Ne.symm ht.1, ih ht.2]

theorem outlineFrom_opener (depth : Nat) (bracket : Bracket) (rest : Text) :
    outlineFrom false depth (bracket.opener :: rest) =
      (if depth = 0 then ['"'] else []) ++ outlineFrom false (depth + 1) rest := by
  simp [outlineFrom]

theorem outlineFrom_closer (depth : Nat) (bracket : Bracket) (rest : Text) :
    outlineFrom false (depth + 1) (bracket.closer :: rest) = outlineFrom false depth rest := by
  simp [outlineFrom]

-- A closer that belongs to no group of the level ends it.
theorem outlineFrom_closer_zero (bracket : Bracket) (rest : Text) :
    outlineFrom false 0 (bracket.closer :: rest) = [] := by
  simp [outlineFrom]

end Text

namespace Bracketed

def outline : Bracketed → Text
  | nil => []
  | char c rest => c :: rest.outline
  | quoted _ rest => '"' :: rest.outline
  | group _ _ rest => '"' :: rest.outline

theorem outlineFrom_render {level : Bracketed} (hl : level.Legible) (depth : Nat) (rest : Text) :
    Text.outlineFrom false depth (level.render ++ rest) =
      (if depth = 0 then level.outline else []) ++ Text.outlineFrom false depth rest := by
  induction level generalizing depth rest with
  | nil => simp [render, outline]
  | char c more ih =>
    by_cases hd : depth = 0 <;>
      simp [render, outline, Text.outlineFrom, ne_quote_of_notMem_marks hl.1,
        ofOpener?_of_notMem_marks hl.1, ofCloser?_of_notMem_marks hl.1, ih hl.2, hd]
  | quoted text more ih =>
    simp only [render, List.cons_append, List.append_assoc]
    rw [Text.outlineFrom_quote, Text.outlineFrom_quoted depth hl.1, ih hl.2]
    by_cases hd : depth = 0 <;> simp [outline, hd]
  | group bracket interior more ihi ihr =>
    simp only [render, List.cons_append, List.append_assoc]
    rw [Text.outlineFrom_opener, ihi hl.1, Text.outlineFrom_closer, ihr hl.2]
    by_cases hd : depth = 0 <;> simp [outline, hd]

theorem outline_render {level : Bracketed} (hl : level.Legible) :
    level.render.outline = level.outline := by
  have h := outlineFrom_render hl 0 []
  simpa [Text.outline, Text.outlineFrom] using h

-- The outline of what follows an opener is that of the interior of its group.
theorem outline_interior {interior : Bracketed} (hl : interior.Legible) (bracket : Bracket)
    (rest : Text) :
    Text.outline (interior.render ++ bracket.closer :: rest) = interior.outline := by
  have h := outlineFrom_render hl 0 (bracket.closer :: rest)
  rw [Text.outlineFrom_closer_zero] at h
  simpa [Text.outline] using h

end Bracketed

namespace Body

theorem prepend_ne_nil (c : Char) (body : Body) : body.prepend c ≠ .nil := by
  cases body <;> simp [Body.prepend]

-- Digits in front of a body are dropped one by one.
theorem dropDigits_prepend {c : Char} (hc : c.isDigit = true) (body : Body) :
    (body.prepend c).dropDigits = body.dropDigits := by
  cases body <;> simp [Body.prepend, Body.dropDigits, hc]

theorem dropDigits_prepend_of_not_isDigit {c : Char} (hc : c.isDigit = false) (body : Body) :
    (body.prepend c).dropDigits = body.prepend c := by
  cases body <;> simp [Body.prepend, Body.dropDigits, hc]

end Body

theorem Shortcut.ofChar?_of_isDigit {c : Char} (hc : c.isDigit = true) : ofChar? c = none := by
  refine dif_neg fun h => ?_
  have hd : 48 ≤ c.val ∧ c.val ≤ 57 := by simpa [Char.isDigit] using hc
  have hhigh : c.toNat ≤ 57 := hd.2
  have hA : 'A'.toNat = 65 := rfl
  omega

namespace Alternatives

theorem length_suffixes_close {right : Alternatives} (h : right.body ≠ .nil) :
    right.close.suffixes.length = right.rest.suffixes.length + 1 := by
  obtain ⟨body, suffix, rest⟩ := right
  cases body with
  | nil => exact absurd rfl h
  | _ => rfl

-- What a character that is neither a slash nor a star adds to.
theorem char_eq_of_ne {c : Char} (hslash : c ≠ '/') (hstar : c ≠ '*') (right : Alternatives) :
    ∃ body, body ≠ .nil ∧ (c.isDigit = false → body.dropDigits = body) ∧
      right.char c = { right with body } := by
  rw [char, if_neg hslash, if_neg hstar]
  cases Shortcut.ofChar? c with
  | none =>
    exact ⟨_, Body.prepend_ne_nil c right.body,
      fun hc => Body.dropDigits_prepend_of_not_isDigit hc right.body, rfl⟩
  | some shortcut => exact ⟨.letter shortcut right.body, nofun, fun _ => rfl, rfl⟩

-- The alternatives that are left of a level after the digits it begins with.
def afterDigits (right : Alternatives) : Pattern :=
  { right with body := right.body.dropDigits }.close

theorem afterDigits_char_of_isDigit {c : Char} (hc : c.isDigit = true) (right : Alternatives) :
    (right.char c).afterDigits = right.afterDigits := by
  have hslash : c ≠ '/' := by
    rintro rfl
    cases hc
  have hstar : c ≠ '*' := by
    rintro rfl
    cases hc
  rw [char, if_neg hslash, if_neg hstar, Shortcut.ofChar?_of_isDigit hc, afterDigits,
    Body.dropDigits_prepend hc, afterDigits]

end Alternatives

namespace Bracketed

-- The parts that are counted from left to right are the alternatives that are
-- read from right to left, in each of the three states of the count.
structure CountedAsRead (level : Bracketed) : Prop where
  fresh : Text.fragmentsFrom false false level.outline = level.pattern.suffixes.length
  pending : Text.fragmentsFrom true false level.outline =
    level.alternatives.rest.suffixes.length + 1
  weight : Text.fragmentsFrom false true level.outline =
    level.alternatives.afterDigits.suffixes.length

namespace CountedAsRead

variable {rest : Bracketed}

theorem slash (h : rest.CountedAsRead) : (char '/' rest).CountedAsRead := by
  have hcount : ∀ weight, Text.fragmentsFrom false weight ('/' :: rest.outline) =
      rest.pattern.suffixes.length := by
    intro weight
    simp [Text.fragmentsFrom, h.fresh]
  refine ⟨hcount false, ?_, hcount true⟩
  show Text.fragmentsFrom true false ('/' :: rest.outline) = rest.pattern.suffixes.length + 1
  simp [Text.fragmentsFrom, h.fresh, Nat.add_comm]

theorem star (h : rest.CountedAsRead) : (char '*' rest).CountedAsRead := by
  have hcount : ∀ pending weight, Text.fragmentsFrom pending weight ('*' :: rest.outline) =
      rest.alternatives.afterDigits.suffixes.length + 1 := by
    intro pending weight
    simp [Text.fragmentsFrom, h.weight, Nat.add_comm]
  exact ⟨hcount _ _, hcount _ _, hcount _ _⟩

-- Anything else starts or continues a part, digits after a star apart.
theorem char (h : rest.CountedAsRead) {c : Char} (hslash : c ≠ '/') (hstar : c ≠ '*') :
    (char c rest).CountedAsRead := by
  obtain ⟨body, hne, hdrop, hchar⟩ := rest.alternatives.char_eq_of_ne hslash hstar
  have hclose : { rest.alternatives with body : Alternatives }.close.suffixes.length =
      rest.alternatives.rest.suffixes.length + 1 := Alternatives.length_suffixes_close hne
  refine ⟨?_, ?_, ?_⟩
  · rw [outline, pattern, alternatives, hchar, hclose]
    simp [Text.fragmentsFrom, hslash, hstar, h.pending]
  · rw [outline, alternatives, hchar]
    simp [Text.fragmentsFrom, hslash, hstar, h.pending]
  · rw [outline, alternatives]
    by_cases hdigit : c.isDigit = true
    · rw [Alternatives.afterDigits_char_of_isDigit hdigit, ← h.weight]
      simp [Text.fragmentsFrom, hslash, hstar, hdigit]
    · have hdigit : c.isDigit = false := eq_false_of_ne_true hdigit
      rw [hchar, Alternatives.afterDigits]
      simp only [hdrop hdigit, hclose]
      simp [Text.fragmentsFrom, hslash, hstar, hdigit, h.pending]

-- A quotation or a group leaves a quote, and its body begins with no digit.
theorem item (h : rest.CountedAsRead) {level : Bracketed} {body : Body} (hne : body ≠ .nil)
    (hdrop : body.dropDigits = body) (houtline : level.outline = '"' :: rest.outline)
    (hlevel : level.alternatives = { rest.alternatives with body }) : level.CountedAsRead := by
  have hclose : { rest.alternatives with body : Alternatives }.close.suffixes.length =
      rest.alternatives.rest.suffixes.length + 1 := Alternatives.length_suffixes_close hne
  refine ⟨?_, ?_, ?_⟩
  · rw [houtline, pattern, hlevel, hclose]
    exact h.pending
  · rw [houtline, hlevel]
    exact h.pending
  · rw [houtline, hlevel, Alternatives.afterDigits, hdrop, hclose]
    exact h.pending

end CountedAsRead

theorem countedAsRead (level : Bracketed) : level.CountedAsRead := by
  induction level with
  | nil => exact ⟨rfl, rfl, rfl⟩
  | quoted text rest ih =>
    have hne : Body.quoted text rest.alternatives.body ≠ .nil := nofun
    exact ih.item hne rfl rfl rfl
  | group bracket interior rest _ ih =>
    have hne : Body.group bracket interior.alternatives.close rest.alternatives.body ≠ .nil := nofun
    exact ih.item hne rfl rfl rfl
  | char c rest ih =>
    by_cases hslash : c = '/'
    · subst hslash
      exact ih.slash
    by_cases hstar : c = '*'
    · subst hstar
      exact ih.star
    exact ih.char hslash hstar

theorem fragments_outline (level : Bracketed) :
    level.outline.fragments = level.pattern.suffixes.length :=
  level.countedAsRead.fresh

end Bracketed

namespace Alternatives

def weighted (right : Alternatives) : Bool :=
  right.suffix.isSome || right.rest.weighted

theorem weighted_close (right : Alternatives) : right.close.weighted = right.weighted := by
  obtain ⟨body, suffix, rest⟩ := right
  cases body <;> cases suffix <;> rfl

theorem weighted_char (c : Char) (right : Alternatives) :
    (right.char c).weighted = (c == '*' || right.weighted) := by
  by_cases hslash : c = '/'
  · subst hslash
    exact weighted_close right
  by_cases hstar : c = '*'
  · subst hstar
    rfl
  obtain ⟨body, -, -, hchar⟩ := right.char_eq_of_ne hslash hstar
  simp [hchar, hstar, weighted]

end Alternatives

namespace Bracketed

-- A level has a weight if a star stands in it.
theorem contains_star_outline (level : Bracketed) :
    level.outline.contains '*' = level.pattern.weighted := by
  rw [pattern, Alternatives.weighted_close]
  induction level with
  | nil => rfl
  | char c rest ih =>
    rw [alternatives, Alternatives.weighted_char, ← ih, outline, List.contains_cons,
      Bool.beq_comm]
  | quoted text rest ih => exact (List.contains_cons ..).trans ih
  | group bracket interior rest _ ih => exact (List.contains_cons ..).trans ih

end Bracketed

end Coinage
