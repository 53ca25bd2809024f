import Coinage.Proofs.Bracketed.Place
import Coinage.Proofs.Pattern.Segment

namespace Coinage

open Bracketed

namespace Text

-- The places where a slash has nothing to part: at an end of the text or of a
-- group, beside another slash, and behind a weight with all its digits.
inductive Idle : Text → Text → Prop
  | start {after : Text} : Idle [] after
  | finish {before : Text} : Idle before []
  | behindOpener {before after : Text} (bracket : Bracket) : Idle (before ++ [bracket.opener]) after
  | beforeCloser {before after : Text} (bracket : Bracket) : Idle before (bracket.closer :: after)
  | behindSlash {before after : Text} : Idle (before ++ ['/']) after
  | beforeSlash {before after : Text} : Idle before ('/' :: after)
  | behindWeight {before digits after : Text} (hdigits : ∀ c ∈ digits, c.isDigit = true)
      (hcomplete : ∀ c ∈ after.head?, c.isDigit = false) : Idle (before ++ '*' :: digits) after

end Text

namespace Bracketed

section Digits

variable {digits : Text}

theorem leading_chars (hdigits : ∀ c ∈ digits, c.isDigit = true) (rest : Bracketed) :
    (chars digits rest).leading Char.isDigit = digits ++ rest.leading Char.isDigit := by
  induction digits with
  | nil => rfl
  | cons c digits ih =>
    obtain ⟨hc, hmore⟩ := List.forall_mem_cons.mp hdigits
    rw [chars_cons, leading, if_pos hc, ih hmore, List.cons_append]

theorem trailing_chars (hdigits : ∀ c ∈ digits, c.isDigit = true) (rest : Bracketed) :
    (chars digits rest).trailing Char.isDigit = rest.trailing Char.isDigit := by
  induction digits with
  | nil => rfl
  | cons c digits ih =>
    obtain ⟨hc, hmore⟩ := List.forall_mem_cons.mp hdigits
    rw [chars_cons, trailing, if_pos hc, ih hmore]

theorem Legible.of_chars {rest : Bracketed} (h : (chars digits rest).Legible) : rest.Legible := by
  induction digits with
  | nil => exact h
  | cons c digits ih => exact ih h.2

end Digits

-- Another level that is read as the same alternatives and is as deep.
structure ReadsAs (other level : Bracketed) : Prop where
  legible : level.Legible → other.Legible
  depth : other.depth = level.depth
  alternatives : other.alternatives = level.alternatives

namespace ReadsAs

variable {other level : Bracketed}

theorem append (h : other.ReadsAs level) (left : Bracketed) :
    (left.append other).ReadsAs (left.append level) where
  legible hl := by
    obtain ⟨hleft, hlevel⟩ := (legible_append left level).mp hl
    exact (legible_append left other).mpr ⟨hleft, h.legible hlevel⟩
  depth := by rw [depth_append, depth_append, h.depth]
  alternatives := by
    induction left with
    | nil => exact h.alternatives
    | char c rest ih => rw [Bracketed.append, Bracketed.append, Bracketed.alternatives, ih,
        Bracketed.alternatives]
    | quoted text rest ih => rw [Bracketed.append, Bracketed.append, Bracketed.alternatives, ih,
        Bracketed.alternatives]
    | group bracket interior rest _ ih => rw [Bracketed.append, Bracketed.append,
        Bracketed.alternatives, ih, Bracketed.alternatives]

theorem group (h : other.ReadsAs level) (bracket : Bracket) (right : Bracketed) :
    (Bracketed.group bracket other right).ReadsAs (.group bracket level right) where
  legible hl := ⟨h.legible hl.1, hl.2⟩
  depth := by rw [Bracketed.depth, h.depth, Bracketed.depth]
  alternatives := by rw [Bracketed.alternatives, h.alternatives, Bracketed.alternatives]

theorem fill (h : other.ReadsAs level) (place : Place) :
    (place.fill other).ReadsAs (place.fill level) := by
  induction place with
  | here left => exact h.append left
  | inside left bracket place right ih => exact (ih.group bracket right).append left

-- A slash at the end of a level.
theorem slash_nil : (char '/' nil).ReadsAs nil :=
  ⟨fun _ => ⟨by decide, trivial⟩, rfl, rfl⟩

-- A second slash beside a first one.
theorem slash_slash (rest : Bracketed) : (char '/' (char '/' rest)).ReadsAs (char '/' rest) :=
  ⟨fun hl => ⟨hl.1, hl⟩, rfl, rfl⟩

-- A slash at the beginning of a group.
theorem group_slash (bracket : Bracket) (interior rest : Bracketed) :
    (Bracketed.group bracket (char '/' interior) rest).ReadsAs (.group bracket interior rest) :=
  ⟨fun hl => ⟨⟨by decide, hl.1⟩, hl.2⟩, rfl, rfl⟩

-- A slash behind a weight. The digits end there with or without it.
theorem weight_slash {digits : Text} (hdigits : ∀ c ∈ digits, c.isDigit = true) {rest : Bracketed}
    (hcomplete : rest.leading Char.isDigit = []) :
    (char '*' (chars digits (char '/' rest))).ReadsAs (char '*' (chars digits rest)) where
  legible hl := by
    have hplain := fun c hc => (isPlain_of_isDigit (hdigits c hc)).1
    exact ⟨hl.1, legible_chars hplain ⟨by decide, hl.2.of_chars⟩⟩
  depth := by simp [Bracketed.depth]
  alternatives := by
    obtain ⟨hslash, hafter⟩ := leadingDigits_alternatives (chars digits (char '/' rest))
    obtain ⟨hbare, hbehind⟩ := leadingDigits_alternatives (chars digits rest)
    rw [leading_chars hdigits] at hslash hbare
    rw [trailing_chars hdigits] at hafter hbehind
    have hkept : rest.trailing Char.isDigit = rest := by
      have h : chars (rest.leading Char.isDigit) (rest.trailing Char.isDigit) = rest :=
        chars_leading rest
      rwa [hcomplete] at h
    rw [hcomplete] at hbare
    rw [hkept] at hbehind
    have hstar : ∀ level : Bracketed, (char '*' level).alternatives =
        ⟨.nil, some level.alternatives.body.leadingDigits, level.alternatives.afterDigits⟩ :=
      fun _ => rfl
    rw [hstar, hstar, hslash, hafter, hbare, hbehind]
    rfl

end ReadsAs

section Tail

variable {tail : Bracketed} {closing rest : Text}

theorem exists_slashed_end (h : tail = nil) :
    ∃ other : Bracketed, other.ReadsAs tail ∧ other.render ++ closing = '/' :: closing := by
  subst h
  exact ⟨char '/' nil, ReadsAs.slash_nil, rfl⟩

theorem exists_slashed_slash (hends : Ends closing) (h : tail.render ++ closing = '/' :: rest) :
    ∃ other : Bracketed, other.ReadsAs tail ∧ other.render ++ closing = '/' :: '/' :: rest := by
  obtain ⟨more, rfl, rfl⟩ := exists_char_of_render hends (by decide) h
  exact ⟨char '/' (char '/' more), ReadsAs.slash_slash more, rfl⟩

theorem exists_slashed_group (hl : tail.Legible) (hends : Ends closing) {bracket : Bracket}
    (h : tail.render ++ closing = bracket.opener :: rest) :
    ∃ other : Bracketed, other.ReadsAs tail ∧
      other.render ++ closing = bracket.opener :: '/' :: rest := by
  obtain ⟨interior, more, rfl, rfl⟩ := exists_group_of_render hl hends h
  exact ⟨group bracket (char '/' interior) more, ReadsAs.group_slash bracket interior more,
    by simp [render]⟩

theorem exists_chars_of_render (hends : Ends closing) {run : Text} (hrun : ∀ c ∈ run, c ∉ marks)
    (h : tail.render ++ closing = run ++ rest) :
    ∃ more, tail = chars run more ∧ more.render ++ closing = rest := by
  induction run generalizing tail with
  | nil => exact ⟨tail, rfl, h⟩
  | cons c run ih =>
    obtain ⟨hc, hmore⟩ := List.forall_mem_cons.mp hrun
    obtain ⟨next, rfl, hnext⟩ := exists_char_of_render hends hc h
    obtain ⟨more, rfl, hrest⟩ := ih hmore hnext
    exact ⟨more, rfl, hrest⟩

theorem exists_slashed_weight (hends : Ends closing) {digits : Text}
    (hdigits : ∀ c ∈ digits, c.isDigit = true) (hcomplete : ∀ c ∈ rest.head?, c.isDigit = false)
    (h : tail.render ++ closing = '*' :: (digits ++ rest)) :
    ∃ other : Bracketed, other.ReadsAs tail ∧
      other.render ++ closing = '*' :: (digits ++ '/' :: rest) := by
  have hplain := fun c hc => (isPlain_of_isDigit (hdigits c hc)).1
  obtain ⟨weight, rfl, hweight⟩ := exists_char_of_render hends (by decide) h
  obtain ⟨more, rfl, rfl⟩ := exists_chars_of_render hends hplain hweight
  have hleading : more.leading Char.isDigit = [] := by
    cases more with
    | char c more => rw [leading, hcomplete c rfl, if_neg Bool.false_ne_true]
    | _ => rfl
  exact ⟨_, ReadsAs.weight_slash hdigits hleading, by simp [render]⟩

end Tail

section Split

variable {level : Bracketed} {before after : Text}

-- What begins at a place outside quotations can be replaced by what is read alike.
theorem exists_refilled (hl : level.Legible) (hsplit : level.render = before ++ after)
    (hquotes : before.count '"' % 2 = 0) {slashed : Text}
    (h : ∀ (tail : Bracketed) (closing : Text), tail.Legible → Ends closing →
      tail.render ++ closing = after →
        ∃ other : Bracketed, other.ReadsAs tail ∧ other.render ++ closing = slashed) :
    ∃ other : Bracketed, other.ReadsAs level ∧ other.render = before ++ slashed := by
  obtain ⟨place, tail, rfl, rfl⟩ := exists_place hl hsplit hquotes
  rw [Place.render_fill, List.append_cancel_left_eq] at hsplit
  obtain ⟨other, hreads, hslashed⟩ := h tail place.closing (Place.Legible.of_fill hl)
    place.ends_closing hsplit
  exact ⟨place.fill other, hreads.fill place, by rw [Place.render_fill, hslashed]⟩

-- A slash in an idle place does not show in the pattern.
theorem exists_slashed (hl : level.Legible) (hsplit : level.render = before ++ after)
    (hquotes : before.count '"' % 2 = 0) (hidle : Text.Idle before after) :
    ∃ other : Bracketed, other.Legible ∧ other.depth = level.depth ∧
      other.render = before ++ '/' :: after ∧ other.pattern = level.pattern := by
  have hall : ∀ slashed, slashed = before ++ '/' :: after →
      (∃ other : Bracketed, other.ReadsAs level ∧ other.render = slashed) →
      ∃ other : Bracketed, other.Legible ∧ other.depth = level.depth ∧
        other.render = before ++ '/' :: after ∧ other.pattern = level.pattern := by
    rintro _ rfl ⟨other, hreads, hrender⟩
    exact ⟨other, hreads.legible hl, hreads.depth, hrender,
      congrArg Alternatives.close hreads.alternatives⟩
  cases hidle with
  | start =>
    -- only here does a slash open an alternative of its own, which is dropped
    refine ⟨char '/' level, ⟨by decide, hl⟩, rfl, ?_, rfl⟩
    rw [render, hsplit]
    rfl
  | finish =>
    refine hall _ rfl (exists_refilled hl hsplit hquotes fun tail closing _ _ htext => ?_)
    obtain rfl := (List.append_eq_nil_iff.mp htext).2
    exact exists_slashed_end (eq_nil_of_render_append htext)
  | beforeCloser bracket =>
    refine hall _ rfl (exists_refilled hl hsplit hquotes fun tail closing htail _ htext => ?_)
    obtain rfl := eq_nil_of_closer htail htext
    obtain rfl : closing = _ := htext
    exact exists_slashed_end rfl
  | beforeSlash =>
    exact hall _ rfl (exists_refilled hl hsplit hquotes fun _ _ _ hends htext =>
      exists_slashed_slash hends htext)
  | @behindSlash before =>
    rw [List.append_assoc] at hsplit
    rw [List.count_append] at hquotes
    exact hall _ (by simp) (exists_refilled hl hsplit hquotes fun _ _ _ hends htext =>
      exists_slashed_slash hends htext)
  | @behindOpener before _ bracket =>
    rw [List.append_assoc] at hsplit
    rw [List.count_append, List.count_singleton, if_neg (by simp)] at hquotes
    exact hall _ (by simp) (exists_refilled hl hsplit hquotes fun _ _ htail hends htext =>
      exists_slashed_group htail hends htext)
  | @behindWeight before digits _ hdigits hcomplete =>
    rw [List.append_assoc] at hsplit
    have hcount : ('*' :: digits).count '"' = 0 := by
      refine List.count_eq_zero_of_not_mem fun hmem => ?_
      rcases List.mem_cons.mp hmem with hstar | hdigit
      · cases hstar
      · exact absurd (hdigits '"' hdigit) (by decide)
    rw [List.count_append, hcount] at hquotes
    exact hall _ (by simp) (exists_refilled hl hsplit hquotes fun _ _ _ hends htext =>
      exists_slashed_weight hends hdigits hcomplete htext)

end Split

end Bracketed

end Coinage
