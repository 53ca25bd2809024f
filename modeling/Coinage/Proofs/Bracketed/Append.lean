import Coinage.Proofs.Bracketed.Grammar

namespace Coinage

namespace Bracketed

-- The items of one level followed by those of another.
def append : Bracketed → Bracketed → Bracketed
  | nil, tail => tail
  | char c rest, tail => char c (rest.append tail)
  | quoted text rest, tail => quoted text (rest.append tail)
  | group bracket interior rest, tail => group bracket interior (rest.append tail)

@[simp] theorem render_append (level tail : Bracketed) :
    (level.append tail).render = level.render ++ tail.render := by
  induction level with
  | nil => rfl
  | char c rest ih => simp [append, render, ih]
  | quoted text rest ih => simp [append, render, ih]
  | group bracket interior rest _ ih => simp [append, render, ih]

theorem depth_append (level tail : Bracketed) :
    (level.append tail).depth = max level.depth tail.depth := by
  induction level with
  | nil => simp [append, depth]
  | char c rest ih => exact ih
  | quoted text rest ih => exact ih
  | group bracket interior rest _ ih =>
    simp only [append, depth, ih]
    omega

theorem legible_append (level tail : Bracketed) :
    (level.append tail).Legible ↔ level.Legible ∧ tail.Legible := by
  induction level with
  | nil => simp [append, Legible]
  | char c rest ih => simp [append, Legible, ih, and_assoc]
  | quoted text rest ih => simp [append, Legible, ih, and_assoc]
  | group bracket interior rest _ ih => simp [append, Legible, ih, and_assoc]

theorem append_nil (level : Bracketed) : level.append nil = level := by
  induction level with
  | nil => rfl
  | char c rest ih => rw [append, ih]
  | quoted text rest ih => rw [append, ih]
  | group bracket interior rest _ ih => rw [append, ih]

theorem append_assoc (first second third : Bracketed) :
    (first.append second).append third = first.append (second.append third) := by
  induction first with
  | nil => rfl
  | char c rest ih => rw [append, append, append, ih]
  | quoted text rest ih => rw [append, append, append, ih]
  | group bracket interior rest _ ih => rw [append, append, append, ih]

end Bracketed

end Coinage
