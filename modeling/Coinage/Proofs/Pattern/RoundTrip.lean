import Coinage.Proofs.Pattern.Canonical
import Mathlib.Data.List.TakeWhile

namespace Coinage

open Bracketed

namespace Alternatives

theorem char_of_isPlain {c : Char} (h : IsPlain c) (right : Alternatives) :
    right.char c = { right with body := right.body.prepend c } := by
  obtain ⟨-, hslash, hstar, hletter⟩ := h
  simp [Alternatives.char, hslash, hstar, hletter]

theorem char_letter (shortcut : Shortcut) (right : Alternatives) :
    right.char shortcut.toChar = { right with body := .letter shortcut right.body } := by
  have h := shortcut.toChar_ne_separator
  simp [Alternatives.char, h.1, h.2, Shortcut.ofChar?_toChar]

theorem char_slash (right : Alternatives) : right.char '/' = right.slash := rfl

theorem char_star (right : Alternatives) : right.char '*' = right.star := rfl

end Alternatives

theorem Body.prepend_of_ne_plain (c : Char) {body : Body}
    (h : ∀ run rest, body ≠ .plain run rest) : body.prepend c = .plain [c] body := by
  cases body with
  | plain run rest => exact absurd rfl (h run rest)
  | nil => rfl
  | quoted text rest => rfl
  | letter shortcut rest => rfl
  | group bracket interior rest => rfl

-- Plain characters become a run if no run follows them.
theorem alternatives_chars {run : Text} (hne : run ≠ []) (hrun : ∀ c ∈ run, IsPlain c)
    {level : Bracketed} (h : ∀ other rest, level.alternatives.body ≠ .plain other rest) :
    (chars run level).alternatives =
      { level.alternatives with body := .plain run level.alternatives.body } := by
  induction run with
  | nil => exact absurd rfl hne
  | cons c run ih =>
    rw [chars_cons, alternatives, Alternatives.char_of_isPlain (hrun c List.mem_cons_self)]
    by_cases hr : run = []
    · subst hr
      rw [chars_nil, Body.prepend_of_ne_plain c h]
    · rw [ih hr fun d hd => hrun d (List.mem_cons_of_mem _ hd)]
      rfl

-- The digits after a star become the weight of a new alternative.
theorem alternatives_suffixLevel {suffix : Option Text} {tail : Bracketed} {rest : Pattern}
    (hs : ∀ digits, suffix = some digits → ∀ c ∈ digits, c.isDigit)
    (ht : tail.alternatives = ⟨.nil, none, rest⟩) :
    (suffixLevel suffix tail).alternatives = ⟨.nil, suffix, rest⟩ := by
  cases suffix with
  | none => exact ht
  | some digits =>
    have hdigits := hs digits rfl
    rw [suffixLevel, alternatives, Alternatives.char_star]
    by_cases hd : digits = []
    · subst hd
      rw [chars_nil, ht]
      rfl
    · rw [alternatives_chars hd (fun c hc => isPlain_of_isDigit (hdigits c hc)) (by simp [ht]), ht]
      have htake : digits.takeWhile Char.isDigit = digits := List.takeWhile_eq_self_iff.mpr hdigits
      have hdrop : digits.dropWhile Char.isDigit = [] := List.dropWhile_eq_nil_iff.mpr hdigits
      simp [Alternatives.star, Body.leadingDigits, Body.dropDigits, htake, hdrop,
        Alternatives.close]

theorem Pattern.alternatives_slash {pattern : Pattern} (h : pattern.level.pattern = pattern) :
    (pattern.slash pattern.level).alternatives = ⟨.nil, none, pattern⟩ := by
  cases pattern with
  | nil => rfl
  | cons body suffix rest =>
    rw [Pattern.slash, alternatives, Alternatives.char_slash, Alternatives.slash]
    exact congrArg (Alternatives.mk .nil none) h

mutual

-- The level of a canonical pattern is read as this pattern.
theorem Pattern.Canonical.pattern_level : (pattern : Pattern) → pattern.Canonical →
    pattern.level.pattern = pattern
  | .nil, _ => rfl
  | .cons body suffix rest, h => by
    obtain ⟨hne, hsuffix, hbody, hrest⟩ := h
    have hslash := Pattern.alternatives_slash (Pattern.Canonical.pattern_level rest hrest)
    have htail := alternatives_suffixLevel hsuffix hslash
    have hlevel := Body.Canonical.alternatives_level body hbody (by rw [htail])
    rw [Bracketed.pattern, Pattern.level, hlevel, htail]
    cases suffix with
    | some digits => cases body <;> rfl
    | none =>
      cases body with
      | nil => exact absurd rfl (hne rfl)
      | _ => rfl

theorem Body.Canonical.alternatives_level : (body : Body) → body.Canonical → {tail : Bracketed} →
    tail.alternatives.body = .nil →
    (body.level tail).alternatives = { tail.alternatives with body := body }
  | .nil, _, tail, ht => by
    rw [Body.level, ← ht]
  | .plain run rest, h, tail, ht => by
    obtain ⟨hne, hrun, hplain, hrest⟩ := h
    have ih := Body.Canonical.alternatives_level rest hrest ht
    rw [Body.level, alternatives_chars hne hrun (by rw [ih]; exact hplain), ih]
  | .quoted text rest, h, tail, ht => by
    rw [Body.level, alternatives, Body.Canonical.alternatives_level rest h.2 ht]
  | .letter shortcut rest, h, tail, ht => by
    rw [Body.level, alternatives, Alternatives.char_letter,
      Body.Canonical.alternatives_level rest h ht]
  | .group bracket interior rest, h, tail, ht => by
    have hi := Pattern.Canonical.pattern_level interior h.1
    rw [Bracketed.pattern] at hi
    rw [Body.level, alternatives, Body.Canonical.alternatives_level rest h.2 ht, hi]

end

-- What a canonical pattern renders as is read as this pattern.
theorem Pattern.read_render {pattern : Pattern} (hc : pattern.Canonical)
    (hd : pattern.depth ≤ depthLimit) : Pattern.read pattern.render = .ok pattern := by
  have hlevel : Bracketed.read pattern.render = .ok pattern.level := by
    rw [← Pattern.render_level]
    exact Bracketed.read_render hc.legible (by rw [Pattern.depth_level]; exact hd)
  rw [Pattern.read, hlevel]
  exact congrArg Except.ok hc.pattern_level

end Coinage
