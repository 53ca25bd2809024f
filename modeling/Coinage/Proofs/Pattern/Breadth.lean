import Coinage.Proofs.Pattern.Letters

namespace Coinage

-- Texts shorter than this have so few alternatives that sums of their weights
-- are exact.
def sizeLimit : Nat := 0x200000000000

-- What is split into alternatives: the whole pattern, and each group in it.
def Pattern.splits (pattern : Pattern) : List (Bool × Pattern) :=
  (false, pattern) :: pattern.groups

-- All groups have fewer alternatives than the limit.
def Narrow (groups : List (Bool × Pattern)) : Prop :=
  ∀ group ∈ groups, group.2.suffixes.length < sizeLimit

@[simp] theorem narrow_cons (group : Bool × Pattern) (groups : List (Bool × Pattern)) :
    Narrow (group :: groups) ↔ group.2.suffixes.length < sizeLimit ∧ Narrow groups :=
  List.forall_mem_cons

@[simp] theorem narrow_append (first second : List (Bool × Pattern)) :
    Narrow (first ++ second) ↔ Narrow first ∧ Narrow second :=
  List.forall_mem_append

namespace Alternatives

theorem length_suffixes_rest_le (right : Alternatives) :
    right.rest.suffixes.length ≤ right.close.suffixes.length := by
  obtain ⟨body, suffix, rest⟩ := right
  cases body <;> cases suffix <;> simp [close, Pattern.suffixes]

theorem length_suffixes_close_le (right : Alternatives) :
    right.close.suffixes.length ≤ right.rest.suffixes.length + 1 := by
  obtain ⟨body, suffix, rest⟩ := right
  cases body <;> cases suffix <;> simp [close, Pattern.suffixes]

-- Nothing but a weight can end without digits and stay an alternative.
theorem length_suffixes_dropDigits_le (right : Alternatives) :
    { right with body := right.body.dropDigits }.close.suffixes.length ≤
      right.close.suffixes.length := by
  obtain ⟨body, suffix, rest⟩ := right
  cases body with
  | plain run more =>
    have h := length_suffixes_close_le ⟨(Body.plain run more).dropDigits, suffix, rest⟩
    exact h
  | _ => exact Nat.le_refl _

theorem length_suffixes_body_le (body : Body) (right : Alternatives) :
    { right with body }.close.suffixes.length ≤ right.close.suffixes.length + 1 := by
  have hclose := length_suffixes_close_le { right with body }
  have hrest := length_suffixes_rest_le right
  exact Nat.le_trans hclose (Nat.succ_le_succ hrest)

theorem length_suffixes_char_le (c : Char) (right : Alternatives) :
    (right.char c).close.suffixes.length ≤ right.close.suffixes.length + 1 := by
  unfold Alternatives.char
  by_cases hslash : c = '/'
  · subst hslash
    exact Nat.le_succ _
  by_cases hstar : c = '*'
  · subst hstar
    exact Nat.succ_le_succ (length_suffixes_dropDigits_le right)
  rw [if_neg hslash, if_neg hstar]
  cases Shortcut.ofChar? c <;> exact length_suffixes_body_le _ right

end Alternatives

namespace Bracketed

-- Each character adds at most one alternative.
theorem length_suffixes_pattern_le (level : Bracketed) :
    level.pattern.suffixes.length ≤ level.render.length := by
  induction level with
  | nil => exact Nat.le_refl 0
  | char c rest ih =>
    have h := rest.alternatives.length_suffixes_char_le c
    exact Nat.le_trans h (Nat.succ_le_succ ih)
  | quoted text rest ih =>
    have h := rest.alternatives.length_suffixes_body_le (.quoted text rest.alternatives.body)
    refine Nat.le_trans h ?_
    simp only [render, List.length_cons, List.length_append, List.cons_append]
    simp only [pattern] at ih
    omega
  | group bracket interior rest _ ih =>
    have h := rest.alternatives.length_suffixes_body_le
      (.group bracket interior.pattern rest.alternatives.body)
    refine Nat.le_trans h ?_
    simp only [render, List.length_cons, List.length_append, List.cons_append]
    simp only [pattern] at ih
    omega

def groups (level : Bracketed) : List (Bool × Pattern) :=
  level.landmarks.filterMap Landmark.group?

@[simp] theorem groups_nil : nil.groups = [] := rfl

@[simp] theorem groups_char (c : Char) (rest : Bracketed) : (char c rest).groups = rest.groups := by
  rw [groups, landmarks]
  cases Shortcut.ofChar? c <;> rfl

@[simp] theorem groups_quoted (text : Text) (rest : Bracketed) :
    (quoted text rest).groups = rest.groups := rfl

@[simp] theorem groups_group (bracket : Bracket) (interior rest : Bracketed) :
    (group bracket interior rest).groups =
      (bracket.optional, interior.pattern) :: (interior.groups ++ rest.groups) :=
  congrArg ((bracket.optional, interior.pattern) :: ·) List.filterMap_append

theorem groups_pattern (level : Bracketed) : level.pattern.groups = level.groups :=
  congrArg (List.filterMap Landmark.group?) (landmarks_pattern level)

theorem length_suffixes_group_le {level : Bracketed} :
    ∀ group ∈ level.groups, group.2.suffixes.length ≤ level.render.length := by
  induction level with
  | nil => exact List.forall_mem_nil _
  | char c rest ih =>
    rw [groups_char]
    intro group hg
    exact Nat.le_succ_of_le (ih group hg)
  | quoted text rest ih =>
    intro group hg
    have hrest := ih group hg
    simp only [render, List.length_cons, List.length_append, List.cons_append]
    omega
  | group bracket interior rest ihi ihr =>
    have hfirst := interior.length_suffixes_pattern_le
    rw [groups_group]
    intro group hg
    simp only [render, List.length_cons, List.length_append, List.cons_append]
    rcases List.mem_cons.mp hg with rfl | hg
    · exact Nat.le_succ_of_le (Nat.le_add_right_of_le hfirst)
    rcases List.mem_append.mp hg with hi | hr
    · have hinterior := ihi group hi
      omega
    · have hrest := ihr group hr
      omega

end Bracketed

namespace Pattern

-- A text has at least one character for each alternative of any of its groups.
theorem length_suffixes_le_of_read {text : Text} {pattern : Pattern}
    (h : Pattern.read text = .ok pattern) :
    ∀ split ∈ pattern.splits, split.2.suffixes.length ≤ text.utf8Length := by
  obtain ⟨level, hread, rfl⟩ := Pattern.read_eq_ok_iff.mp h
  obtain ⟨-, -, rfl⟩ := Bracketed.read_eq_ok_iff.mp hread
  have hlength := Text.length_le_utf8Length level.render
  intro split hs
  rw [splits, Bracketed.groups_pattern] at hs
  rcases List.mem_cons.mp hs with rfl | hg
  · exact Nat.le_trans level.length_suffixes_pattern_le hlength
  · exact Nat.le_trans (Bracketed.length_suffixes_group_le split hg) hlength

theorem narrow_splits_of_read {text : Text} {pattern : Pattern}
    (h : Pattern.read text = .ok pattern) (hsize : text.utf8Length < sizeLimit) :
    Narrow pattern.splits :=
  fun split hs => Nat.lt_of_le_of_lt (length_suffixes_le_of_read h split hs) hsize

end Pattern

end Coinage
