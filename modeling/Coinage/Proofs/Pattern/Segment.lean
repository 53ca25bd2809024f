import Coinage.Proofs.Bracketed.Append
import Coinage.Proofs.Pattern.Outline
import Coinage.Proofs.Pattern.RoundTrip

namespace Coinage

open Bracketed

namespace Body

theorem leadingDigits_prepend {c : Char} (hc : c.isDigit = true) (body : Body) :
    (body.prepend c).leadingDigits = c :: body.leadingDigits := by
  cases body <;> simp [prepend, leadingDigits, hc]

theorem leadingDigits_prepend_of_not_isDigit {c : Char} (hc : c.isDigit = false) (body : Body) :
    (body.prepend c).leadingDigits = [] := by
  cases body <;> simp [prepend, leadingDigits, hc]

end Body

-- An alternative with a weight is never dropped.
theorem Alternatives.close_of_suffix (body : Body) (digits : Text) (rest : Pattern) :
    (⟨body, some digits, rest⟩ : Alternatives).close = .cons body (some digits) rest := by
  cases body <;> rfl

theorem Alternatives.close_of_ne_nil {body : Body} (h : body ≠ .nil) (suffix : Option Text)
    (rest : Pattern) : (⟨body, suffix, rest⟩ : Alternatives).close = .cons body suffix rest := by
  cases body with
  | nil => exact absurd rfl h
  | _ => rfl

-- Without digits in front, none are dropped.
theorem Alternatives.afterDigits_char_of_not_isDigit {c : Char} (hc : c.isDigit = false)
    (right : Alternatives) :
    (right.char c).body.leadingDigits = [] ∧ (right.char c).afterDigits = (right.char c).close := by
  by_cases hslash : c = '/'
  · subst hslash
    exact ⟨rfl, rfl⟩
  by_cases hstar : c = '*'
  · subst hstar
    exact ⟨rfl, rfl⟩
  rw [Alternatives.char, if_neg hslash, if_neg hstar]
  cases Shortcut.ofChar? c with
  | some shortcut => exact ⟨rfl, rfl⟩
  | none =>
    refine ⟨Body.leadingDigits_prepend_of_not_isDigit hc _, ?_⟩
    rw [afterDigits, Body.dropDigits_prepend_of_not_isDigit hc]

namespace Bracketed

-- The plain characters that a level begins with, as long as they satisfy a
-- condition.
def leading (condition : Char → Bool) : Bracketed → Text
  | char c rest => if condition c then c :: rest.leading condition else []
  | _ => []

def trailing (condition : Char → Bool) : Bracketed → Bracketed
  | char c rest => if condition c then rest.trailing condition else char c rest
  | level => level

section Leading

variable {condition : Char → Bool}

-- Induction on a level that may leave out all characters of a run at once.
@[elab_as_elim]
theorem induction_trailing {motive : Bracketed → Prop} (condition : Char → Bool)
    (nil : motive nil)
    (char : ∀ c rest, motive rest → motive (rest.trailing condition) → motive (char c rest))
    (quoted : ∀ text rest, motive rest → motive (quoted text rest))
    (group : ∀ bracket interior rest, motive rest → motive (group bracket interior rest))
    (level : Bracketed) : motive level := by
  have both : motive level ∧ motive (level.trailing condition) := by
    induction level with
    | nil => exact ⟨nil, nil⟩
    | quoted text rest ih => exact ⟨quoted text rest ih.1, quoted text rest ih.1⟩
    | group bracket interior rest _ ih =>
      exact ⟨group bracket interior rest ih.1, group bracket interior rest ih.1⟩
    | char c rest ih =>
      have hlevel := char c rest ih.1 ih.2
      refine ⟨hlevel, ?_⟩
      rw [trailing]
      split
      · exact ih.2
      · exact hlevel
  exact both.1

theorem chars_leading (level : Bracketed) :
    chars (level.leading condition) (level.trailing condition) = level := by
  induction level with
  | nil => rfl
  | quoted text rest => rfl
  | group bracket interior rest => rfl
  | char c rest ih =>
    by_cases hc : condition c = true
    · simp [leading, trailing, hc, ih]
    · simp [leading, trailing, hc]

theorem all_leading (level : Bracketed) : ∀ c ∈ level.leading condition, condition c = true := by
  induction level with
  | nil => exact List.forall_mem_nil _
  | quoted text rest => exact List.forall_mem_nil _
  | group bracket interior rest => exact List.forall_mem_nil _
  | char c rest ih =>
    by_cases hc : condition c = true
    · simpa [leading, hc] using ih
    · simp [leading, hc]

-- A condition that no quote and no opener satisfies does not reach beyond the
-- plain characters.
theorem takeWhile_render (hquote : condition '"' = false)
    (hopener : ∀ bracket : Bracket, condition bracket.opener = false) (level : Bracketed) :
    level.render.takeWhile condition = level.leading condition ∧
      level.render.dropWhile condition = (level.trailing condition).render := by
  induction level with
  | nil => exact ⟨rfl, rfl⟩
  | quoted text rest => simp [render, leading, trailing, hquote]
  | group bracket interior rest => simp [render, leading, trailing, hopener]
  | char c rest ih =>
    by_cases hc : condition c = true
    · simpa [render, leading, trailing, hc] using ih
    · simp [render, leading, trailing, hc]

end Leading

-- The digits that a level begins with are those of its first alternative.
theorem leadingDigits_alternatives (level : Bracketed) :
    level.alternatives.body.leadingDigits = level.leading Char.isDigit ∧
      level.alternatives.afterDigits = (level.trailing Char.isDigit).pattern := by
  induction level with
  | nil => exact ⟨rfl, rfl⟩
  | quoted text rest => exact ⟨rfl, rfl⟩
  | group bracket interior rest => exact ⟨rfl, rfl⟩
  | char c rest ih =>
    rw [alternatives]
    by_cases hdigit : c.isDigit = true
    · rw [Alternatives.afterDigits_char_of_isDigit hdigit, leading, trailing, if_pos hdigit,
        if_pos hdigit, ← ih.1, Alternatives.char_of_isPlain (isPlain_of_isDigit hdigit)]
      exact ⟨Body.leadingDigits_prepend hdigit _, ih.2⟩
    · have hnot : c.isDigit = false := eq_false_of_ne_true hdigit
      rw [leading, trailing, if_neg hdigit, if_neg hdigit]
      exact Alternatives.afterDigits_char_of_not_isDigit hnot _

-- No slash and no star stands on the level itself.
def Unseparated : Bracketed → Prop
  | nil => True
  | char c rest => c ≠ '/' ∧ c ≠ '*' ∧ rest.Unseparated
  | quoted _ rest => rest.Unseparated
  | group _ _ rest => rest.Unseparated

-- The items of a level in front of a body.
def onto : Bracketed → Body → Body
  | nil, body => body
  | char c rest, body =>
    match Shortcut.ofChar? c with
    | some shortcut => .letter shortcut (rest.onto body)
    | none => (rest.onto body).prepend c
  | quoted text rest, body => .quoted text (rest.onto body)
  | group bracket interior rest, body => .group bracket interior.pattern (rest.onto body)

theorem chars_append (run : Text) (first second : Bracketed) :
    (chars run first).append second = chars run (first.append second) := by
  induction run with
  | nil => rfl
  | cons c run ih => rw [chars_cons, append, ih, chars_cons]

theorem unseparated_append {first second : Bracketed} :
    (first.append second).Unseparated ↔ first.Unseparated ∧ second.Unseparated := by
  induction first with
  | nil => simp [append, Unseparated]
  | char c rest ih => simp [append, Unseparated, ih, and_assoc]
  | quoted text rest ih => simp [append, Unseparated, ih]
  | group bracket interior rest _ ih => simp [append, Unseparated, ih]

theorem Unseparated.trailing {level : Bracketed} (h : level.Unseparated)
    (condition : Char → Bool) : (level.trailing condition).Unseparated := by
  induction level with
  | nil => exact h
  | quoted text rest => exact h
  | group bracket interior rest => exact h
  | char c rest ih =>
    rw [Bracketed.trailing]
    split
    · exact ih h.2.2
    · exact h

theorem onto_eq_nil_iff {level : Bracketed} : level.onto .nil = .nil ↔ level = nil := by
  constructor
  · intro h
    cases level with
    | nil => rfl
    | char c rest =>
      rw [onto] at h
      split at h
      · cases h
      · exact absurd h (Body.prepend_ne_nil c _)
    | quoted text rest => cases h
    | group bracket interior rest => cases h
  · rintro rfl
    rfl

-- Plain characters become a run if no run follows them.
theorem onto_chars {run : Text} (hne : run ≠ []) (hrun : ∀ c ∈ run, Shortcut.ofChar? c = none)
    {level : Bracketed} {body : Body} (h : ∀ other rest, level.onto body ≠ .plain other rest) :
    (chars run level).onto body = .plain run (level.onto body) := by
  induction run with
  | nil => exact absurd rfl hne
  | cons c run ih =>
    rw [chars_cons, onto, hrun c List.mem_cons_self]
    by_cases hr : run = []
    · subst hr
      exact Body.prepend_of_ne_plain c h
    · show ((chars run level).onto body).prepend c = _
      rw [ih hr fun d hd => hrun d (List.mem_cons_of_mem _ hd)]
      rfl

-- Without separators only the first alternative grows.
theorem alternatives_append_of_unseparated {level : Bracketed} (h : level.Unseparated)
    (tail : Bracketed) :
    (level.append tail).alternatives =
      { tail.alternatives with body := level.onto tail.alternatives.body } := by
  induction level with
  | nil => rfl
  | char c rest ih =>
    obtain ⟨hslash, hstar, hrest⟩ := h
    rw [append, alternatives, ih hrest, Alternatives.char, if_neg hslash, if_neg hstar, onto]
    cases Shortcut.ofChar? c <;> rfl
  | quoted text rest ih =>
    rw [append, alternatives, ih h]
    rfl
  | group bracket interior rest _ ih =>
    rw [append, alternatives, ih h]
    rfl

theorem pattern_of_unseparated {level : Bracketed} (h : level.Unseparated) :
    level.pattern = (⟨level.onto .nil, none, .nil⟩ : Alternatives).close := by
  have halternatives := alternatives_append_of_unseparated h nil
  rw [append_nil] at halternatives
  rw [pattern, halternatives]
  rfl

theorem pattern_append_slash {level : Bracketed} (h : level.Unseparated) (rest : Bracketed) :
    (level.append (char '/' rest)).pattern =
      (⟨level.onto .nil, none, rest.pattern⟩ : Alternatives).close := by
  rw [pattern, alternatives_append_of_unseparated h]
  rfl

theorem pattern_append_star {level : Bracketed} (h : level.Unseparated) (rest : Bracketed) :
    (level.append (char '*' rest)).pattern =
      .cons (level.onto .nil) (some (rest.leading Char.isDigit))
        (rest.trailing Char.isDigit).pattern := by
  obtain ⟨hdigits, hafter⟩ := leadingDigits_alternatives rest
  rw [pattern, alternatives_append_of_unseparated h, ← hdigits, ← hafter]
  exact Alternatives.close_of_suffix _ _ _

end Bracketed

end Coinage
