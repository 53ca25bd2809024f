import Coinage.Proofs.Pattern.Canonical

namespace Coinage

namespace Body

theorem depth_prepend (c : Char) (body : Body) : (body.prepend c).depth = body.depth := by
  cases body <;> rfl

theorem depth_dropDigits (body : Body) : body.dropDigits.depth = body.depth := by
  cases body with
  | plain run rest =>
    simp only [dropDigits]
    split <;> rfl
  | _ => rfl

end Body

namespace Alternatives

def depth (right : Alternatives) : Nat :=
  max right.body.depth right.rest.depth

theorem depth_close (right : Alternatives) : right.close.depth = right.depth := by
  obtain ⟨body, suffix, rest⟩ := right
  have hnil : max 0 rest.depth = rest.depth := Nat.zero_max _
  cases body with
  | nil =>
    cases suffix with
    | none => exact hnil.symm
    | some digits => rfl
  | _ => rfl

theorem depth_char (c : Char) (right : Alternatives) : (right.char c).depth = right.depth := by
  unfold Alternatives.char
  by_cases hslash : c = '/'
  · rw [if_pos hslash, slash, depth, depth_close]
    exact Nat.zero_max _
  by_cases hstar : c = '*'
  · rw [if_neg hslash, if_pos hstar, star, depth, depth_close]
    simp only [depth, Body.depth_dropDigits]
    exact Nat.zero_max _
  rw [if_neg hslash, if_neg hstar]
  cases Shortcut.ofChar? c with
  | none => rw [depth, Body.depth_prepend, depth]
  | some shortcut => rfl

end Alternatives

namespace Bracketed

theorem depth_alternatives (level : Bracketed) : level.alternatives.depth = level.depth := by
  induction level with
  | nil => rfl
  | char c rest ih => rw [alternatives, Alternatives.depth_char, ih, depth]
  | quoted text rest ih => exact ih
  | group bracket interior rest ihi ihr =>
    rw [depth, ← ihi, ← ihr, ← Alternatives.depth_close interior.alternatives]
    exact Nat.max_assoc _ _ _

-- The groups of a pattern nest as they do in the level that it is read from.
theorem depth_pattern (level : Bracketed) : level.pattern.depth = level.depth := by
  rw [pattern, Alternatives.depth_close, depth_alternatives]

end Bracketed

end Coinage
