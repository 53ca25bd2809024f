import Coinage.Proofs.Bracketed.Append
import Coinage.Proofs.Cursor.Closers

namespace Coinage

namespace Bracketed

-- The closers of a level are noted for openers in the level only.
theorem lookup_closers_eq_none {level : Bracketed} {offset key : Nat}
    (h : key < offset ∨ offset + level.render.utf8Length ≤ key) :
    (level.closers offset).lookup key = none := by
  induction level generalizing offset with
  | nil => rfl
  | char c rest ih =>
    apply ih
    simp only [render, Text.utf8Length_cons] at h
    omega
  | quoted text rest ih =>
    apply ih
    simp only [render, Text.utf8Length_append, Text.utf8Length_cons] at h
    omega
  | group bracket interior rest ihi ihr =>
    simp only [render, Text.utf8Length_append, Text.utf8Length_cons] at h
    have hopener := Char.utf8Size_pos bracket.opener
    have hne : (key == offset) = false := beq_false_of_ne (by omega)
    rw [closers, List.lookup_append, ihr (by omega), Option.none_or, List.lookup_cons, hne]
    exact ihi (by omega)

-- A table leads from each opener of a level that begins at an offset to its closer.
def Listed (closers : Closers) : Nat → Bracketed → Prop
  | _, nil => True
  | offset, char c rest => Listed closers (offset + c.utf8Size) rest
  | offset, quoted text rest =>
    Listed closers (offset + '"'.utf8Size + text.utf8Length + '"'.utf8Size) rest
  | offset, group bracket interior rest =>
    let inside := offset + bracket.opener.utf8Size
    let closer := inside + interior.render.utf8Length
    closers.lookup offset = some closer ∧ Listed closers inside interior ∧
      Listed closers (closer + bracket.closer.utf8Size) rest

-- Only the openers in the level matter.
theorem Listed.congr {first second : Closers} {level : Bracketed} {offset : Nat}
    (hsame : ∀ key, offset ≤ key → key < offset + level.render.utf8Length →
      second.lookup key = first.lookup key)
    (h : Listed first offset level) : Listed second offset level := by
  induction level generalizing offset with
  | nil => trivial
  | char c rest ih =>
    apply ih _ h
    intro key hlow hhigh
    apply hsame key (by omega)
    simp only [render, Text.utf8Length_cons]
    omega
  | quoted text rest ih =>
    apply ih _ h
    intro key hlow hhigh
    apply hsame key (by omega)
    simp only [render, Text.utf8Length_append, Text.utf8Length_cons]
    omega
  | group bracket interior rest ihi ihr =>
    obtain ⟨hcloser, hinterior, hrest⟩ := h
    simp only [render, Text.utf8Length_append, Text.utf8Length_cons] at hsame
    have hopener := Char.utf8Size_pos bracket.opener
    refine ⟨?_, ihi ?_ hinterior, ihr ?_ hrest⟩
    · rw [hsame offset (by omega) (by omega)]
      exact hcloser
    · intro key hlow hhigh
      exact hsame key (by omega) (by omega)
    · intro key hlow hhigh
      exact hsame key (by omega) (by omega)

theorem listed_append {closers : Closers} {first second : Bracketed} {offset : Nat} :
    Listed closers offset (first.append second) ↔
      Listed closers offset first ∧
        Listed closers (offset + first.render.utf8Length) second := by
  induction first generalizing offset with
  | nil => simp [append, Listed, render]
  | char c rest ih => simp [append, Listed, render, ih, Nat.add_assoc]
  | quoted text rest ih => simp [append, Listed, render, ih, Nat.add_assoc]
  | group bracket interior rest _ ih =>
    simp [append, Listed, render, ih, and_assoc, Nat.add_assoc]

theorem listed_closers (level : Bracketed) (offset : Nat) :
    Listed (level.closers offset) offset level := by
  induction level generalizing offset with
  | nil => trivial
  | char c rest ih => exact ih _
  | quoted text rest ih => exact ih _
  | group bracket interior rest ihi ihr =>
    have hopener := Char.utf8Size_pos bracket.opener
    have hcloser := Char.utf8Size_pos bracket.closer
    refine ⟨?_, (ihi _).congr ?_, (ihr _).congr ?_⟩
    · rw [closers, List.lookup_append, lookup_closers_eq_none (.inl (by omega)), Option.none_or,
        List.lookup_cons_self]
    · intro key hlow hhigh
      have hne : (key == offset) = false := beq_false_of_ne (by omega)
      rw [closers, List.lookup_append, lookup_closers_eq_none (.inl (by omega)), Option.none_or,
        List.lookup_cons, hne]
    · intro key hlow hhigh
      have hne : (key == offset) = false := beq_false_of_ne (by omega)
      have hinside : (interior.closers (offset + bracket.opener.utf8Size)).lookup key = none := by
        apply lookup_closers_eq_none
        omega
      rw [closers, List.lookup_append, List.lookup_cons, hne, hinside, Option.or_none]

end Bracketed

end Coinage
