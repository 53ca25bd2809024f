import Coinage.Proofs.Pattern.Segment

namespace Coinage

open Bracketed

namespace Text

-- What the rest of a text says: quotes, brackets, slashes and weights are left
-- out, and a letter gives way to a text. `weight` tells whether the digits of a
-- weight are being read. In a quotation every character stands for itself.
def contentFrom (find : Shortcut → Text) (quoted weight : Bool) : Text → Text
  | [] => []
  | c :: rest =>
    if c = '"' then
      contentFrom find (!quoted) false rest
    else if quoted then
      c :: contentFrom find true false rest
    else if c ∈ ['[', ']', '(', ')', '/'] then
      contentFrom find false false rest
    else if c = '*' then
      contentFrom find false true rest
    else if weight && c.isDigit then
      contentFrom find false true rest
    else
      match Shortcut.ofChar? c with
      | some shortcut => find shortcut ++ contentFrom find false false rest
      | none => c :: contentFrom find false false rest

def content (find : Shortcut → Text) (text : Text) : Text :=
  contentFrom find false false text

theorem contentFrom_quoted (find : Shortcut → Text) {text : Text} (ht : '"' ∉ text)
    (rest : Text) :
    contentFrom find true false (text ++ '"' :: rest) =
      text ++ contentFrom find false false rest := by
  induction text with
  | nil => simp [contentFrom]
  | cons c text ih =>
    simp only [List.mem_cons, not_or] at ht
    simp [contentFrom, Ne.symm ht.1, ih ht.2]

end Text

mutual

def Pattern.content (find : Shortcut → Text) : Pattern → Text
  | .nil => []
  | .cons body _ rest => body.content find ++ rest.content find

def Body.content (find : Shortcut → Text) : Body → Text
  | .nil => []
  | .plain run rest => run ++ rest.content find
  | .quoted text rest => text ++ rest.content find
  | .letter shortcut rest => find shortcut ++ rest.content find
  | .group _ interior rest => interior.content find ++ rest.content find

end

theorem Body.content_prepend (find : Shortcut → Text) (c : Char) (body : Body) :
    (body.prepend c).content find = c :: body.content find := by
  cases body <;> rfl

namespace Alternatives

def content (find : Shortcut → Text) (right : Alternatives) : Text :=
  right.body.content find ++ right.rest.content find

theorem content_close (find : Shortcut → Text) (right : Alternatives) :
    right.close.content find = right.content find := by
  obtain ⟨body, suffix, rest⟩ := right
  cases body <;> cases suffix <;> rfl

theorem content_char (find : Shortcut → Text) {c : Char} (hslash : c ≠ '/') (hstar : c ≠ '*')
    (right : Alternatives) :
    (right.char c).content find =
      match Shortcut.ofChar? c with
      | some shortcut => find shortcut ++ right.content find
      | none => c :: right.content find := by
  rw [char, if_neg hslash, if_neg hstar]
  cases Shortcut.ofChar? c with
  | some shortcut => exact List.append_assoc _ _ _
  | none => rw [content, Body.content_prepend, List.cons_append, content]

end Alternatives

namespace Bracketed

-- What a level says, read from left to right.
def contentFrom (find : Shortcut → Text) (weight : Bool) : Bracketed → Text
  | nil => []
  | char c rest =>
    if c = '/' then
      rest.contentFrom find false
    else if c = '*' then
      rest.contentFrom find true
    else if weight && c.isDigit then
      rest.contentFrom find true
    else
      match Shortcut.ofChar? c with
      | some shortcut => find shortcut ++ rest.contentFrom find false
      | none => c :: rest.contentFrom find false
  | quoted text rest => text ++ rest.contentFrom find false
  | group _ interior rest => interior.contentFrom find false ++ rest.contentFrom find false

section Render

variable (find : Shortcut → Text)

theorem contentFrom_char {c : Char} (hc : c ∉ marks) (weight : Bool) (rest : Text) :
    Text.contentFrom find false weight (c :: rest) =
      if c = '/' then
        Text.contentFrom find false false rest
      else if c = '*' then
        Text.contentFrom find false true rest
      else if weight && c.isDigit then
        Text.contentFrom find false true rest
      else
        match Shortcut.ofChar? c with
        | some shortcut => find shortcut ++ Text.contentFrom find false false rest
        | none => c :: Text.contentFrom find false false rest := by
  have hslash : c ∈ ['[', ']', '(', ')', '/'] ↔ c = '/' := by
    simp only [marks, List.mem_cons, List.not_mem_nil, or_false, not_or] at hc ⊢
    simp [hc]
  rw [Text.contentFrom, if_neg (ne_quote_of_notMem_marks hc), if_neg Bool.false_ne_true]
  simp only [hslash]

theorem contentFrom_opener (weight : Bool) (bracket : Bracket) (rest : Text) :
    Text.contentFrom find false weight (bracket.opener :: rest) =
      Text.contentFrom find false false rest := by
  cases bracket <;> simp [Text.contentFrom, Bracket.opener]

theorem contentFrom_closer (weight : Bool) (bracket : Bracket) (rest : Text) :
    Text.contentFrom find false weight (bracket.closer :: rest) =
      Text.contentFrom find false false rest := by
  cases bracket <;> simp [Text.contentFrom, Bracket.closer]

-- A weight does not reach beyond its level, so what follows the level is read as if
-- there were none.
theorem contentFrom_render {level : Bracketed} (hl : level.Legible) (weight : Bool) {rest : Text}
    (hrest : ∀ weight, Text.contentFrom find false weight rest =
      Text.contentFrom find false false rest) :
    Text.contentFrom find false weight (level.render ++ rest) =
      level.contentFrom find weight ++ Text.contentFrom find false false rest := by
  induction level generalizing weight rest with
  | nil => exact hrest weight
  | char c more ih =>
    have hmore := fun weight => ih hl.2 weight hrest
    rw [render, List.cons_append, contentFrom_char find hl.1, contentFrom]
    split_ifs
    · exact hmore false
    · exact hmore true
    · exact hmore true
    · cases Shortcut.ofChar? c <;> simp [hmore]
  | quoted text more ih =>
    have hopen :
        Text.contentFrom find false weight ('"' :: (text ++ '"' :: (more.render ++ rest))) =
          Text.contentFrom find true false (text ++ '"' :: (more.render ++ rest)) := rfl
    simp only [render, List.cons_append, List.append_assoc, contentFrom]
    rw [hopen, Text.contentFrom_quoted find hl.1, ih hl.2 false hrest]
  | group bracket interior more ihi ihr =>
    have hcloser : ∀ weight, Text.contentFrom find false weight
        (bracket.closer :: (more.render ++ rest)) = Text.contentFrom find false false
          (bracket.closer :: (more.render ++ rest)) := by
      intro weight
      rw [contentFrom_closer, contentFrom_closer]
    simp only [render, List.cons_append, List.append_assoc, contentFrom]
    rw [contentFrom_opener, ihi hl.1 false hcloser, contentFrom_closer, ihr hl.2 false hrest]

theorem content_render {level : Bracketed} (hl : level.Legible) :
    level.render.content find = level.contentFrom find false := by
  have h := contentFrom_render find hl false (fun _ => rfl : ∀ weight,
    Text.contentFrom find false weight [] = Text.contentFrom find false false [])
  simpa [Text.content, Text.contentFrom] using h

end Render

-- What a level says from left to right is what its alternatives say, which are
-- read from right to left, with and without the digits it begins with.
structure SaysAsRead (find : Shortcut → Text) (level : Bracketed) : Prop where
  plain : level.contentFrom find false = level.alternatives.content find
  weight : level.contentFrom find true = level.alternatives.afterDigits.content find

namespace SaysAsRead

variable {find : Shortcut → Text} {rest : Bracketed}

theorem slash (h : rest.SaysAsRead find) : (char '/' rest).SaysAsRead find := by
  have hclose : rest.contentFrom find false = rest.alternatives.close.content find := by
    rw [Alternatives.content_close, h.plain]
  exact ⟨hclose, hclose⟩

theorem star (h : rest.SaysAsRead find) : (char '*' rest).SaysAsRead find :=
  ⟨h.weight, h.weight⟩

-- Any other character says something, digits of a weight apart.
theorem char (h : rest.SaysAsRead find) {c : Char} (hslash : c ≠ '/') (hstar : c ≠ '*') :
    (char c rest).SaysAsRead find := by
  have hplain : (Bracketed.char c rest).contentFrom find false =
      (rest.alternatives.char c).content find := by
    rw [contentFrom, if_neg hslash, if_neg hstar, Bool.false_and, if_neg Bool.false_ne_true,
      Alternatives.content_char find hslash hstar, h.plain]
  refine ⟨hplain, ?_⟩
  by_cases hdigit : c.isDigit = true
  · rw [contentFrom, if_neg hslash, if_neg hstar, Bool.true_and, if_pos hdigit, h.weight,
      alternatives, Alternatives.afterDigits_char_of_isDigit hdigit]
  · have hnot : c.isDigit = false := eq_false_of_ne_true hdigit
    obtain ⟨-, hafter⟩ := Alternatives.afterDigits_char_of_not_isDigit hnot rest.alternatives
    rw [alternatives, hafter, Alternatives.content_close, ← hplain, contentFrom, contentFrom]
    simp [hnot]

end SaysAsRead

theorem saysAsRead (find : Shortcut → Text) (level : Bracketed) : level.SaysAsRead find := by
  induction level with
  | nil => exact ⟨rfl, rfl⟩
  | quoted text rest ih =>
    have hplain : (quoted text rest).contentFrom find false =
        (quoted text rest).alternatives.content find := by
      rw [contentFrom, ih.plain]
      exact (List.append_assoc _ _ _).symm
    exact ⟨hplain, hplain⟩
  | group bracket interior rest ihi ihr =>
    have hplain : (group bracket interior rest).contentFrom find false =
        (group bracket interior rest).alternatives.content find := by
      rw [contentFrom, ihi.plain, ihr.plain, ← Alternatives.content_close]
      exact (List.append_assoc _ _ _).symm
    exact ⟨hplain, hplain⟩
  | char c rest ih =>
    by_cases hslash : c = '/'
    · subst hslash
      exact ih.slash
    by_cases hstar : c = '*'
    · subst hstar
      exact ih.star
    exact ih.char hslash hstar

theorem content_pattern (find : Shortcut → Text) (level : Bracketed) :
    level.pattern.content find = level.contentFrom find false := by
  rw [pattern, Alternatives.content_close, (level.saysAsRead find).plain]

end Bracketed

-- Reading a text loses nothing of what it says and says nothing twice.
theorem Pattern.content_of_read {text : Text} {pattern : Pattern}
    (h : Pattern.read text = .ok pattern) (find : Shortcut → Text) :
    pattern.content find = text.content find := by
  obtain ⟨level, hread, rfl⟩ := Pattern.read_eq_ok_iff.mp h
  obtain ⟨hl, -, rfl⟩ := Bracketed.read_eq_ok_iff.mp hread
  rw [content_pattern, content_render find hl]

end Coinage
