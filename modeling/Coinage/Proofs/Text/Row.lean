import Coinage.Text

namespace Coinage.Text

-- Texts in a row, a separator before each of them and a closing text at the end.
def row (separator closing : Text) : List Text → Text
  | [] => closing
  | text :: texts => separator ++ text ++ row separator closing texts

theorem row_append (separator closing : Text) (first second : List Text) :
    row separator closing (first ++ second) =
      row separator (row separator closing second) first := by
  induction first with
  | nil => rfl
  | cons text first ih => rw [List.cons_append, row, ih, row]

-- One separator more makes a row of what stands between separators.
theorem append_intercalate (separator closing : Text) {texts : List Text} (h : texts ≠ []) :
    separator ++ separator.intercalate texts ++ closing = row separator closing texts := by
  induction texts with
  | nil => exact absurd rfl h
  | cons text rest ih =>
    cases rest with
    | nil => rw [List.intercalate_singleton, row, row]
    | cons next rest =>
      rw [row, ← ih (List.cons_ne_nil next rest), List.intercalate_cons_cons]
      simp only [List.append_assoc]

theorem intercalate_cons_append (separator closing text : Text) (texts : List Text) :
    separator.intercalate (text :: texts) ++ closing = text ++ row separator closing texts := by
  have hrow := append_intercalate separator closing (List.cons_ne_nil text texts)
  rw [row, List.append_assoc, List.append_assoc] at hrow
  exact List.append_cancel_left hrow

-- The longest beginning of a text where all characters satisfy a condition.
theorem eq_of_append_eq {condition : Char → Bool} {first second rest other : Text}
    (hfirst : ∀ c ∈ first, condition c) (hsecond : ∀ c ∈ second, condition c)
    (hrest : rest.takeWhile condition = []) (hother : other.takeWhile condition = [])
    (h : first ++ rest = second ++ other) : first = second ∧ rest = other := by
  have htake := congrArg (List.takeWhile condition) h
  rw [List.takeWhile_append_of_pos hfirst, List.takeWhile_append_of_pos hsecond, hrest, hother,
    List.append_nil, List.append_nil] at htake
  subst htake
  exact ⟨rfl, List.append_cancel_left h⟩

section Reading

variable {α : Type} {render : α → Text} {separator closing other : Text}

-- A row is read in one way only, if each of its items can be told from what follows
-- it, and the closing text from a separator.
theorem eq_of_row_eq (Follows : Text → Prop)
    (hclosing : ∀ texts, Follows (row separator closing texts))
    (hother : ∀ texts, Follows (row separator other texts))
    (hend : ¬separator <+: closing) (hend' : ¬separator <+: other) {first second : List α}
    (hitem : ∀ item ∈ first, ∀ item' ∈ second, ∀ rest rest', Follows rest → Follows rest' →
      render item ++ rest = render item' ++ rest' → item = item' ∧ rest = rest')
    (h : row separator closing (first.map render) = row separator other (second.map render)) :
    first = second ∧ closing = other := by
  induction first generalizing second with
  | nil =>
    cases second with
    | nil => exact ⟨rfl, h⟩
    | cons item' second =>
      simp only [List.map_nil, List.map_cons, row, List.append_assoc] at h
      exact absurd ⟨_, h.symm⟩ hend
  | cons item first ih =>
    cases second with
    | nil =>
      simp only [List.map_nil, List.map_cons, row, List.append_assoc] at h
      exact absurd ⟨_, h⟩ hend'
    | cons item' second =>
      simp only [List.map_cons, row, List.append_assoc] at h
      obtain ⟨rfl, hrest⟩ := hitem item List.mem_cons_self item' List.mem_cons_self _ _
        (hclosing _) (hother _) (List.append_cancel_left h)
      obtain ⟨rfl, hclose⟩ := ih (fun next hn next' hn' =>
        hitem next (List.mem_cons_of_mem _ hn) next' (List.mem_cons_of_mem _ hn')) hrest
      exact ⟨rfl, hclose⟩

end Reading

end Coinage.Text
