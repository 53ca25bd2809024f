import Coinage.Pattern.Read
import Coinage.Proofs.Bracketed.Invariant

namespace Coinage

open Bracketed

namespace Shortcut

theorem ofChar?_toChar (shortcut : Shortcut) : ofChar? shortcut.toChar = some shortcut := by
  obtain ⟨index⟩ := shortcut
  revert index
  decide

theorem toChar_of_ofChar? {c : Char} {shortcut : Shortcut} (h : ofChar? c = some shortcut) :
    shortcut.toChar = c := by
  unfold ofChar? at h
  split at h
  · rename_i hc
    cases h
    rw [toChar, Nat.add_sub_cancel' hc.1, Char.ofNat_toNat]
  · cases h

theorem ofChar?_eq_some_iff {c : Char} {shortcut : Shortcut} :
    ofChar? c = some shortcut ↔ shortcut.toChar = c :=
  ⟨toChar_of_ofChar?, fun h => h ▸ ofChar?_toChar shortcut⟩

theorem toChar_injective : Function.Injective toChar := by
  intro first second h
  have hsome := ofChar?_toChar first
  rw [h, ofChar?_toChar] at hsome
  exact (Option.some.inj hsome).symm

theorem toChar_notMem_marks (shortcut : Shortcut) : shortcut.toChar ∉ marks := by
  obtain ⟨index⟩ := shortcut
  revert index
  decide

theorem toChar_ne_separator (shortcut : Shortcut) :
    shortcut.toChar ≠ '/' ∧ shortcut.toChar ≠ '*' := by
  obtain ⟨index⟩ := shortcut
  revert index
  decide

end Shortcut

-- A character without a meaning of its own.
def IsPlain (c : Char) : Prop :=
  c ∉ marks ∧ c ≠ '/' ∧ c ≠ '*' ∧ Shortcut.ofChar? c = none

theorem isPlain_of_isDigit {c : Char} (h : c.isDigit) : IsPlain c := by
  have hd : 48 ≤ c.val ∧ c.val ≤ 57 := by simpa [Char.isDigit] using h
  have hlow : 48 ≤ c.toNat := hd.1
  have hhigh : c.toNat ≤ 57 := hd.2
  have hother : ∀ d : Char, d.toNat < 48 ∨ 57 < d.toNat → c ≠ d := by
    rintro d hd rfl
    omega
  refine ⟨?_, hother _ (by decide), hother _ (by decide), ?_⟩
  · intro hm
    simp only [marks, List.mem_cons, List.not_mem_nil, or_false] at hm
    rcases hm with rfl | rfl | rfl | rfl | rfl <;> simp at hlow hhigh
  · refine dif_neg fun h => ?_
    have hA : 'A'.toNat = 65 := rfl
    omega

mutual

-- The patterns that the reader yields for what they render as: an alternative
-- without a weight is not empty, and a run is as long as it can be.
def Pattern.Canonical : Pattern → Prop
  | .nil => True
  | .cons body suffix rest =>
    (suffix = none → body ≠ .nil) ∧ (∀ digits, suffix = some digits → ∀ c ∈ digits, c.isDigit) ∧
      body.Canonical ∧ rest.Canonical

def Body.Canonical : Body → Prop
  | .nil => True
  | .plain run rest =>
    run ≠ [] ∧ (∀ c ∈ run, IsPlain c) ∧ (∀ other more, rest ≠ .plain other more) ∧ rest.Canonical
  | .quoted text rest => '"' ∉ text ∧ rest.Canonical
  | .letter _ rest => rest.Canonical
  | .group _ interior rest => interior.Canonical ∧ rest.Canonical

end

mutual

def Pattern.depth : Pattern → Nat
  | .nil => 0
  | .cons body _ rest => max body.depth rest.depth

def Body.depth : Body → Nat
  | .nil => 0
  | .plain _ rest => rest.depth
  | .quoted _ rest => rest.depth
  | .letter _ rest => rest.depth
  | .group _ interior rest => max (interior.depth + 1) rest.depth

end

namespace Bracketed

-- Plain characters in front of a level.
def chars (run : Text) (tail : Bracketed) : Bracketed :=
  run.foldr char tail

@[simp] theorem chars_nil (tail : Bracketed) : chars [] tail = tail := rfl

@[simp] theorem chars_cons (c : Char) (run : Text) (tail : Bracketed) :
    chars (c :: run) tail = char c (chars run tail) := rfl

@[simp] theorem render_chars (run : Text) (tail : Bracketed) :
    (chars run tail).render = run ++ tail.render := by
  induction run with
  | nil => rfl
  | cons c run ih => rw [chars_cons, Bracketed.render, ih, List.cons_append]

@[simp] theorem depth_chars (run : Text) (tail : Bracketed) :
    (chars run tail).depth = tail.depth := by
  induction run with
  | nil => rfl
  | cons c run ih => exact ih

theorem legible_chars {run : Text} {tail : Bracketed} (hrun : ∀ c ∈ run, c ∉ marks)
    (htail : tail.Legible) : (chars run tail).Legible := by
  induction run with
  | nil => exact htail
  | cons c run ih =>
    exact ⟨hrun c List.mem_cons_self, ih fun d hd => hrun d (List.mem_cons_of_mem _ hd)⟩

end Bracketed

-- The level of a suffix.
def suffixLevel : Option Text → Bracketed → Bracketed
  | none, tail => tail
  | some digits, tail => .char '*' (chars digits tail)

-- A slash parts an alternative from those that follow, if there are any.
def Pattern.slash : Pattern → Bracketed → Bracketed
  | .nil, _ => .nil
  | .cons .., level => .char '/' level

mutual

-- The level that a pattern is read from.
def Pattern.level : Pattern → Bracketed
  | .nil => .nil
  | .cons body suffix rest => body.level (suffixLevel suffix (rest.slash rest.level))

def Body.level (tail : Bracketed) : Body → Bracketed
  | .nil => tail
  | .plain run rest => chars run (rest.level tail)
  | .quoted text rest => .quoted text (rest.level tail)
  | .letter shortcut rest => .char shortcut.toChar (rest.level tail)
  | .group bracket interior rest => .group bracket interior.level (rest.level tail)

end

theorem render_suffixLevel (suffix : Option Text) (tail : Bracketed) :
    (suffixLevel suffix tail).render = suffixText suffix ++ tail.render := by
  cases suffix with
  | none => rfl
  | some digits => simp [suffixLevel, suffixText, Bracketed.render]

theorem Pattern.render_cons_cons (body next : Body) (suffix other : Option Text) (rest : Pattern) :
    (Pattern.cons body suffix (.cons next other rest)).render =
      body.render ++ suffixText suffix ++ '/' :: (Pattern.cons next other rest).render := by
  simp [Pattern.render, Pattern.renders, List.intercalate]

mutual

theorem Pattern.render_level : (pattern : Pattern) → pattern.level.render = pattern.render
  | .nil => rfl
  | .cons body suffix .nil => by
    rw [Pattern.level, Body.render_level body, render_suffixLevel]
    simp [Pattern.slash, Bracketed.render, Pattern.render, Pattern.renders, List.intercalate]
  | .cons body suffix (.cons next other rest) => by
    rw [Pattern.level, Body.render_level body, render_suffixLevel, Pattern.slash, Bracketed.render,
      Pattern.render_level (.cons next other rest), Pattern.render_cons_cons, List.append_assoc]

theorem Body.render_level : (body : Body) → {tail : Bracketed} →
    (body.level tail).render = body.render ++ tail.render
  | .nil, _ => rfl
  | .plain run rest, _ => by
    rw [Body.level, render_chars, Body.render_level rest, Body.render, List.append_assoc]
  | .quoted text rest, _ => by
    simp [Body.level, Bracketed.render, Body.render_level rest, Body.render]
  | .letter shortcut rest, _ => by
    simp [Body.level, Bracketed.render, Body.render_level rest, Body.render]
  | .group bracket interior rest, _ => by
    have hi := Pattern.render_level interior
    simp [Body.level, Bracketed.render, Body.render_level rest, Body.render, hi, Pattern.render]

end

theorem depth_suffixLevel (suffix : Option Text) (tail : Bracketed) :
    (suffixLevel suffix tail).depth = tail.depth := by
  cases suffix with
  | none => rfl
  | some digits => exact depth_chars digits tail

theorem Pattern.depth_slash (pattern : Pattern) :
    (pattern.slash pattern.level).depth = pattern.level.depth := by
  cases pattern <;> rfl

mutual

theorem Pattern.depth_level : (pattern : Pattern) → pattern.level.depth = pattern.depth
  | .nil => rfl
  | .cons body suffix rest => by
    rw [Pattern.level, Body.depth_level body, depth_suffixLevel, Pattern.depth_slash,
      Pattern.depth_level rest, Pattern.depth]

theorem Body.depth_level : (body : Body) → {tail : Bracketed} →
    (body.level tail).depth = max body.depth tail.depth
  | .nil, _ => by simp [Body.level, Body.depth]
  | .plain run rest, _ => by rw [Body.level, depth_chars, Body.depth_level rest, Body.depth]
  | .quoted text rest, _ => by
    rw [Body.level, Bracketed.depth, Body.depth_level rest, Body.depth]
  | .letter shortcut rest, _ => by
    rw [Body.level, Bracketed.depth, Body.depth_level rest, Body.depth]
  | .group bracket interior rest, _ => by
    rw [Body.level, Bracketed.depth, Body.depth_level rest, Pattern.depth_level interior, Body.depth,
      Nat.max_assoc]

end

theorem legible_suffixLevel {suffix : Option Text} {tail : Bracketed}
    (hs : ∀ digits, suffix = some digits → ∀ c ∈ digits, c.isDigit) (ht : tail.Legible) :
    (suffixLevel suffix tail).Legible := by
  cases suffix with
  | none => exact ht
  | some digits =>
    exact ⟨by decide, legible_chars (fun c hc => (isPlain_of_isDigit (hs digits rfl c hc)).1) ht⟩

theorem Pattern.legible_slash {pattern : Pattern} (h : pattern.level.Legible) :
    (pattern.slash pattern.level).Legible := by
  cases pattern with
  | nil => trivial
  | cons body suffix rest => exact ⟨by decide, h⟩

mutual

theorem Pattern.Canonical.legible : (pattern : Pattern) → pattern.Canonical → pattern.level.Legible
  | .nil, _ => trivial
  | .cons body suffix rest, h => by
    obtain ⟨-, hsuffix, hbody, hrest⟩ := h
    have hslash := Pattern.legible_slash (Pattern.Canonical.legible rest hrest)
    exact Body.Canonical.legible body hbody (legible_suffixLevel hsuffix hslash)

theorem Body.Canonical.legible : (body : Body) → body.Canonical → {tail : Bracketed} →
    tail.Legible → (body.level tail).Legible
  | .nil, _, _, ht => ht
  | .plain run rest, h, _, ht => by
    obtain ⟨-, hrun, -, hrest⟩ := h
    exact legible_chars (fun c hc => (hrun c hc).1) (Body.Canonical.legible rest hrest ht)
  | .quoted text rest, h, _, ht => ⟨h.1, Body.Canonical.legible rest h.2 ht⟩
  | .letter shortcut rest, h, _, ht =>
    ⟨shortcut.toChar_notMem_marks, Body.Canonical.legible rest h ht⟩
  | .group bracket interior rest, h, _, ht =>
    ⟨Pattern.Canonical.legible interior h.1, Body.Canonical.legible rest h.2 ht⟩

end

end Coinage
