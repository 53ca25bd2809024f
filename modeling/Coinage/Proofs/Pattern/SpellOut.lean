import Coinage.Proofs.Bracketed.Append
import Coinage.Proofs.Pattern.Letters

namespace Coinage

open Bracketed

namespace Text

-- The rest of a text in which some optional groups give way to mandatory ones
-- that offer an empty quotation at their end. A group is chosen by the byte
-- offset of its opener. For each group that is still open, `groups` tells
-- whether it has been chosen, innermost first.
def spellOutFrom (chosen : Nat → Bool) (groups : List Bool) (quoted : Bool) (offset : Nat) :
    Text → Text
  | [] => []
  | c :: rest =>
    let next := offset + c.utf8Size
    if c = '"' then
      c :: spellOutFrom chosen groups (!quoted) next rest
    else if quoted then
      c :: spellOutFrom chosen groups quoted next rest
    else
      match Bracket.ofOpener? c, Bracket.ofCloser? c with
      | some bracket, _ =>
        let change := bracket.optional && chosen offset
        (if change then '[' else c) :: spellOutFrom chosen (change :: groups) quoted next rest
      | none, some _ =>
        (if groups.headD false then ['/', '"', '"', ']'] else [c]) ++
          spellOutFrom chosen groups.tail quoted next rest
      | none, none => c :: spellOutFrom chosen groups quoted next rest

def spellOut (chosen : Nat → Bool) (text : Text) : Text :=
  spellOutFrom chosen [] false 0 text

section SpellOutFrom

variable (chosen : Nat → Bool) (groups : List Bool) (offset : Nat)

theorem spellOutFrom_char {c : Char} (hc : c ∉ marks) (rest : Text) :
    spellOutFrom chosen groups false offset (c :: rest) =
      c :: spellOutFrom chosen groups false (offset + c.utf8Size) rest := by
  simp [spellOutFrom, ne_quote_of_notMem_marks hc, ofOpener?_of_notMem_marks hc,
    ofCloser?_of_notMem_marks hc]

theorem spellOutFrom_opener (bracket : Bracket) (rest : Text) :
    spellOutFrom chosen groups false offset (bracket.opener :: rest) =
      (if bracket.optional && chosen offset then '[' else bracket.opener) ::
        spellOutFrom chosen ((bracket.optional && chosen offset) :: groups) false
          (offset + bracket.opener.utf8Size) rest := by
  simp [spellOutFrom]

theorem spellOutFrom_closer (bracket : Bracket) (change : Bool) (rest : Text) :
    spellOutFrom chosen (change :: groups) false offset (bracket.closer :: rest) =
      (if change then ['/', '"', '"', ']'] else [bracket.closer]) ++
        spellOutFrom chosen groups false (offset + bracket.closer.utf8Size) rest := by
  simp [spellOutFrom]

theorem spellOutFrom_quoted {text : Text} (ht : '"' ∉ text) (rest : Text) :
    spellOutFrom chosen groups true offset (text ++ '"' :: rest) =
      text ++ '"' :: spellOutFrom chosen groups false
        (offset + text.utf8Length + '"'.utf8Size) rest := by
  induction text generalizing offset with
  | nil => simp [spellOutFrom]
  | cons c text ih =>
    simp only [List.mem_cons, not_or] at ht
    simp [spellOutFrom, Ne.symm ht.1, ih _ ht.2, Nat.add_assoc]

end SpellOutFrom

end Text

namespace Bracketed

-- What the interior of an optional group gains when the group becomes mandatory.
def emptyOffer : Bracketed :=
  .char '/' (.quoted [] .nil)

-- The level of a text whose chosen optional groups are spelled out.
def spellOut (chosen : Nat → Bool) (offset : Nat) : Bracketed → Bracketed
  | nil => nil
  | char c rest => char c (rest.spellOut chosen (offset + c.utf8Size))
  | quoted text rest =>
    quoted text (rest.spellOut chosen (offset + '"'.utf8Size + text.utf8Length + '"'.utf8Size))
  | group bracket interior rest =>
    let inside := offset + bracket.opener.utf8Size
    let after := inside + interior.render.utf8Length + bracket.closer.utf8Size
    let interior := interior.spellOut chosen inside
    if bracket.optional && chosen offset then
      group .square (interior.append emptyOffer) (rest.spellOut chosen after)
    else
      group bracket interior (rest.spellOut chosen after)

theorem spellOutFrom_render (chosen : Nat → Bool) {level : Bracketed} (hl : level.Legible)
    (groups : List Bool) (offset : Nat) (rest : Text) :
    Text.spellOutFrom chosen groups false offset (level.render ++ rest) =
      (level.spellOut chosen offset).render ++
        Text.spellOutFrom chosen groups false (offset + level.render.utf8Length) rest := by
  induction level generalizing groups offset rest with
  | nil => rfl
  | char c more ih =>
    rw [render, List.cons_append, Text.spellOutFrom_char _ _ _ hl.1, ih hl.2]
    simp [spellOut, render, Nat.add_assoc]
  | quoted text more ih =>
    have hopen : ∀ tail, Text.spellOutFrom chosen groups false offset ('"' :: tail) =
        '"' :: Text.spellOutFrom chosen groups true (offset + '"'.utf8Size) tail := fun _ => rfl
    simp only [render, List.cons_append, List.append_assoc]
    rw [hopen, Text.spellOutFrom_quoted _ _ _ hl.1, ih hl.2]
    simp [spellOut, render, Nat.add_assoc]
  | group bracket interior more ihi ihr =>
    simp only [render, List.cons_append, List.append_assoc]
    rw [Text.spellOutFrom_opener, ihi hl.1, Text.spellOutFrom_closer, ihr hl.2]
    by_cases hchange : (bracket.optional && chosen offset) = true
    · simp [spellOut, hchange, render, emptyOffer, Bracket.opener, Bracket.closer, Nat.add_assoc]
    · simp [spellOut, hchange, render, Nat.add_assoc]

theorem spellOut_render (chosen : Nat → Bool) {level : Bracketed} (hl : level.Legible) :
    level.render.spellOut chosen = (level.spellOut chosen 0).render := by
  have h := spellOutFrom_render chosen hl [] 0 []
  simpa [Text.spellOut, Text.spellOutFrom] using h

theorem Legible.spellOut (chosen : Nat → Bool) {level : Bracketed} (hl : level.Legible)
    (offset : Nat) : (level.spellOut chosen offset).Legible := by
  induction level generalizing offset with
  | nil => trivial
  | char c rest ih => exact ⟨hl.1, ih hl.2 _⟩
  | quoted text rest ih => exact ⟨hl.1, ih hl.2 _⟩
  | group bracket interior rest ihi ihr =>
    have hoffer : emptyOffer.Legible := ⟨by decide, by decide, trivial⟩
    simp only [Bracketed.spellOut]
    split
    · exact ⟨(legible_append _ _).mpr ⟨ihi hl.1 _, hoffer⟩, ihr hl.2 _⟩
    · exact ⟨ihi hl.1 _, ihr hl.2 _⟩

-- No group is nested deeper than before.
theorem depth_spellOut (chosen : Nat → Bool) (level : Bracketed) (offset : Nat) :
    (level.spellOut chosen offset).depth = level.depth := by
  induction level generalizing offset with
  | nil => rfl
  | char c rest ih => exact ih _
  | quoted text rest ih => exact ih _
  | group bracket interior rest ihi ihr =>
    simp only [spellOut]
    split
    · simp [depth, depth_append, ihi, ihr, emptyOffer]
    · simp [depth, ihi, ihr]

end Bracketed

-- The alternatives of one pattern followed by those of another.
def Pattern.append : Pattern → Pattern → Pattern
  | .nil, tail => tail
  | .cons body suffix rest, tail => .cons body suffix (rest.append tail)

theorem Pattern.suffixes_append : (pattern tail : Pattern) →
    (pattern.append tail).suffixes = pattern.suffixes ++ tail.suffixes
  | .nil, _ => rfl
  | .cons _ suffix rest, tail => congrArg (suffix :: ·) (Pattern.suffixes_append rest tail)

-- An empty quotation as an alternative.
def Pattern.emptyOffer : Pattern :=
  .cons (.quoted [] .nil) none .nil

-- The alternatives of a level that is followed by a slash and more.
theorem Bracketed.alternatives_append {tail : Bracketed} {offered : Pattern}
    (ht : tail.alternatives = ⟨.nil, none, offered⟩) (level : Bracketed) :
    (level.append tail).alternatives =
      { level.alternatives with rest := level.alternatives.rest.append offered } := by
  have hclose : ∀ right : Alternatives,
      { right with rest := right.rest.append offered : Alternatives }.close =
        right.close.append offered := by
    rintro ⟨body, suffix, rest⟩
    cases body <;> cases suffix <;> rfl
  induction level with
  | nil => exact ht
  | char c rest ih =>
    rw [append, alternatives, ih, alternatives]
    unfold Alternatives.char
    by_cases hslash : c = '/'
    · rw [if_pos hslash, if_pos hslash, Alternatives.slash, hclose]
      rfl
    by_cases hstar : c = '*'
    · rw [if_neg hslash, if_pos hstar, if_neg hslash, if_pos hstar, Alternatives.star,
        Alternatives.star, ← hclose]
    rw [if_neg hslash, if_neg hstar, if_neg hslash, if_neg hstar]
    cases Shortcut.ofChar? c <;> rfl
  | quoted text rest ih => rw [append, alternatives, ih, alternatives]
  | group bracket interior rest _ ih => rw [append, alternatives, ih, alternatives]

theorem Bracketed.pattern_append_emptyOffer (level : Bracketed) :
    (level.append emptyOffer).pattern = level.pattern.append Pattern.emptyOffer := by
  rw [pattern, alternatives_append rfl, pattern]
  rcases level.alternatives with ⟨body, suffix, rest⟩
  cases body <;> cases suffix <;> rfl

mutual

-- Some optional groups of the first pattern, at any depth, are mandatory in the
-- second and offer an empty quotation at their end.
inductive Pattern.SpelledOut : Pattern → Pattern → Prop
  | nil : Pattern.SpelledOut .nil .nil
  | cons {body body' : Body} {suffix : Option Text} {rest rest' : Pattern}
      (hbody : Body.SpelledOut body body') (hrest : Pattern.SpelledOut rest rest') :
      Pattern.SpelledOut (.cons body suffix rest) (.cons body' suffix rest')

inductive Body.SpelledOut : Body → Body → Prop
  | nil : Body.SpelledOut .nil .nil
  | plain {run : Text} {rest rest' : Body} (hrest : Body.SpelledOut rest rest') :
      Body.SpelledOut (.plain run rest) (.plain run rest')
  | quoted {text : Text} {rest rest' : Body} (hrest : Body.SpelledOut rest rest') :
      Body.SpelledOut (.quoted text rest) (.quoted text rest')
  | letter {shortcut : Shortcut} {rest rest' : Body} (hrest : Body.SpelledOut rest rest') :
      Body.SpelledOut (.letter shortcut rest) (.letter shortcut rest')
  | group {bracket : Bracket} {interior interior' : Pattern} {rest rest' : Body}
      (hinterior : Pattern.SpelledOut interior interior') (hrest : Body.SpelledOut rest rest') :
      Body.SpelledOut (.group bracket interior rest) (.group bracket interior' rest')
  | optional {interior interior' : Pattern} {rest rest' : Body}
      (hinterior : Pattern.SpelledOut interior interior') (hrest : Body.SpelledOut rest rest') :
      Body.SpelledOut (.group .round interior rest)
        (.group .square (interior'.append .emptyOffer) rest')

end

theorem Pattern.SpelledOut.suffixes_eq : {pattern other : Pattern} → pattern.SpelledOut other →
    other.suffixes = pattern.suffixes
  | _, _, .nil => rfl
  | _, _, .cons _ hrest => congrArg (_ :: ·) hrest.suffixes_eq

namespace Body

theorem SpelledOut.prepend {body other : Body} (h : body.SpelledOut other) (c : Char) :
    (body.prepend c).SpelledOut (other.prepend c) := by
  cases h with
  | plain hrest => exact .plain hrest
  | nil => exact .plain .nil
  | quoted hrest => exact .plain (.quoted hrest)
  | letter hrest => exact .plain (.letter hrest)
  | group hinterior hrest => exact .plain (.group hinterior hrest)
  | optional hinterior hrest => exact .plain (.optional hinterior hrest)

theorem SpelledOut.leadingDigits_eq {body other : Body} (h : body.SpelledOut other) :
    other.leadingDigits = body.leadingDigits := by
  cases h <;> rfl

theorem SpelledOut.dropDigits {body other : Body} (h : body.SpelledOut other) :
    body.dropDigits.SpelledOut other.dropDigits := by
  cases h with
  | @plain run _ _ hrest =>
    simp only [Body.dropDigits]
    cases run.dropWhile Char.isDigit with
    | nil => exact hrest
    | cons c run => exact .plain hrest
  | nil => exact .nil
  | quoted hrest => exact .quoted hrest
  | letter hrest => exact .letter hrest
  | group hinterior hrest => exact .group hinterior hrest
  | optional hinterior hrest => exact .optional hinterior hrest

end Body

namespace Alternatives

structure SpelledOut (right other : Alternatives) : Prop where
  body : right.body.SpelledOut other.body
  suffix : other.suffix = right.suffix
  rest : right.rest.SpelledOut other.rest

theorem SpelledOut.close {right other : Alternatives} (h : right.SpelledOut other) :
    right.close.SpelledOut other.close := by
  obtain ⟨body, suffix, rest⟩ := right
  obtain ⟨body', suffix', rest'⟩ := other
  obtain ⟨hbody, hsuffix, hrest⟩ := h
  cases hsuffix
  cases hbody with
  | nil =>
    cases suffix with
    | none => exact hrest
    | some digits => exact .cons .nil hrest
  | plain hmore => exact .cons (.plain hmore) hrest
  | quoted hmore => exact .cons (.quoted hmore) hrest
  | letter hmore => exact .cons (.letter hmore) hrest
  | group hinterior hmore => exact .cons (.group hinterior hmore) hrest
  | optional hinterior hmore => exact .cons (.optional hinterior hmore) hrest

theorem SpelledOut.char {right other : Alternatives} (h : right.SpelledOut other) (c : Char) :
    (right.char c).SpelledOut (other.char c) := by
  unfold Alternatives.char
  by_cases hslash : c = '/'
  · rw [if_pos hslash, if_pos hslash]
    exact ⟨.nil, rfl, h.close⟩
  by_cases hstar : c = '*'
  · rw [if_neg hslash, if_pos hstar, if_neg hslash, if_pos hstar]
    have hdrop : SpelledOut { right with body := right.body.dropDigits }
        { other with body := other.body.dropDigits } := ⟨h.body.dropDigits, h.suffix, h.rest⟩
    exact ⟨.nil, congrArg some h.body.leadingDigits_eq, hdrop.close⟩
  rw [if_neg hslash, if_neg hstar, if_neg hslash, if_neg hstar]
  cases Shortcut.ofChar? c with
  | none => exact ⟨h.body.prepend c, h.suffix, h.rest⟩
  | some shortcut => exact ⟨.letter h.body, h.suffix, h.rest⟩

end Alternatives

namespace Bracketed

-- Reading commutes with spelling out.
theorem alternatives_spellOut (chosen : Nat → Bool) (level : Bracketed) (offset : Nat) :
    level.alternatives.SpelledOut (level.spellOut chosen offset).alternatives := by
  induction level generalizing offset with
  | nil => exact ⟨.nil, rfl, .nil⟩
  | char c rest ih => exact (ih _).char c
  | quoted text rest ih =>
    obtain ⟨hbody, hsuffix, hrest⟩ := ih (offset + '"'.utf8Size + text.utf8Length + '"'.utf8Size)
    exact ⟨.quoted hbody, hsuffix, hrest⟩
  | group bracket interior rest ihi ihr =>
    have hinterior := (ihi (offset + bracket.opener.utf8Size)).close
    obtain ⟨hbody, hsuffix, hrest⟩ := ihr (offset + bracket.opener.utf8Size +
      interior.render.utf8Length + bracket.closer.utf8Size)
    by_cases hchange : (bracket.optional && chosen offset) = true
    · obtain rfl : bracket = .round := by
        cases bracket with
        | square => cases hchange
        | round => rfl
      simp only [spellOut, if_pos hchange]
      rw [alternatives, alternatives, ← pattern, ← pattern, pattern_append_emptyOffer]
      exact ⟨.optional hinterior hbody, hsuffix, hrest⟩
    · simp only [spellOut, if_neg hchange]
      exact ⟨.group hinterior hbody, hsuffix, hrest⟩

theorem pattern_spellOut (chosen : Nat → Bool) (level : Bracketed) :
    level.pattern.SpelledOut (level.spellOut chosen 0).pattern :=
  (alternatives_spellOut chosen level 0).close

end Bracketed

end Coinage
