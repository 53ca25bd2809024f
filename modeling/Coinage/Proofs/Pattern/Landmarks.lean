import Coinage.Pattern.Read

namespace Coinage

-- What is meant by a character other than itself, weights and slashes apart.
inductive Landmark
  | letter (shortcut : Shortcut)
  | group (optional : Bool) (interior : Pattern)

namespace Landmark

def letter? : Landmark → Option Shortcut
  | letter shortcut => some shortcut
  | group .. => none

def group? : Landmark → Option (Bool × Pattern)
  | letter _ => none
  | group optional interior => some (optional, interior)

end Landmark

mutual

-- The letters and groups of a pattern at any depth, from left to right. A group
-- comes before what it contains.
def Pattern.landmarks : Pattern → List Landmark
  | .nil => []
  | .cons body _ rest => body.landmarks ++ rest.landmarks

def Body.landmarks : Body → List Landmark
  | .nil => []
  | .plain _ rest => rest.landmarks
  | .quoted _ rest => rest.landmarks
  | .letter shortcut rest => .letter shortcut :: rest.landmarks
  | .group bracket interior rest =>
    .group bracket.optional interior :: interior.landmarks ++ rest.landmarks

end

def Pattern.letters (pattern : Pattern) : List Shortcut :=
  pattern.landmarks.filterMap Landmark.letter?

def Body.letters (body : Body) : List Shortcut :=
  body.landmarks.filterMap Landmark.letter?

def Pattern.groups (pattern : Pattern) : List (Bool × Pattern) :=
  pattern.landmarks.filterMap Landmark.group?

def Body.groups (body : Body) : List (Bool × Pattern) :=
  body.landmarks.filterMap Landmark.group?

@[simp] theorem Pattern.letters_nil : Pattern.nil.letters = [] := rfl

@[simp] theorem Pattern.letters_cons (body : Body) (suffix : Option Text) (rest : Pattern) :
    (Pattern.cons body suffix rest).letters = body.letters ++ rest.letters :=
  List.filterMap_append

@[simp] theorem Body.letters_nil : Body.nil.letters = [] := rfl

@[simp] theorem Body.letters_plain (run : Text) (rest : Body) :
    (Body.plain run rest).letters = rest.letters := rfl

@[simp] theorem Body.letters_quoted (text : Text) (rest : Body) :
    (Body.quoted text rest).letters = rest.letters := rfl

@[simp] theorem Body.letters_letter (shortcut : Shortcut) (rest : Body) :
    (Body.letter shortcut rest).letters = shortcut :: rest.letters := rfl

@[simp] theorem Body.letters_group (bracket : Bracket) (interior : Pattern) (rest : Body) :
    (Body.group bracket interior rest).letters = interior.letters ++ rest.letters :=
  List.filterMap_append

@[simp] theorem Pattern.groups_nil : Pattern.nil.groups = [] := rfl

@[simp] theorem Pattern.groups_cons (body : Body) (suffix : Option Text) (rest : Pattern) :
    (Pattern.cons body suffix rest).groups = body.groups ++ rest.groups :=
  List.filterMap_append

@[simp] theorem Body.groups_nil : Body.nil.groups = [] := rfl

@[simp] theorem Body.groups_plain (run : Text) (rest : Body) :
    (Body.plain run rest).groups = rest.groups := rfl

@[simp] theorem Body.groups_quoted (text : Text) (rest : Body) :
    (Body.quoted text rest).groups = rest.groups := rfl

@[simp] theorem Body.groups_letter (shortcut : Shortcut) (rest : Body) :
    (Body.letter shortcut rest).groups = rest.groups := rfl

@[simp] theorem Body.groups_group (bracket : Bracket) (interior : Pattern) (rest : Body) :
    (Body.group bracket interior rest).groups =
      (bracket.optional, interior) :: (interior.groups ++ rest.groups) :=
  congrArg ((bracket.optional, interior) :: ·) List.filterMap_append

theorem Body.landmarks_prepend (c : Char) (body : Body) :
    (body.prepend c).landmarks = body.landmarks := by
  cases body <;> rfl

theorem Body.landmarks_dropDigits (body : Body) : body.dropDigits.landmarks = body.landmarks := by
  cases body with
  | plain run rest =>
    simp only [Body.dropDigits]
    split <;> rfl
  | _ => rfl

namespace Alternatives

def landmarks (right : Alternatives) : List Landmark :=
  right.body.landmarks ++ right.rest.landmarks

theorem landmarks_close (right : Alternatives) : right.close.landmarks = right.landmarks := by
  obtain ⟨body, suffix, rest⟩ := right
  cases body <;> cases suffix <;> rfl

theorem landmarks_char (c : Char) (right : Alternatives) :
    (right.char c).landmarks = (Shortcut.ofChar? c).toList.map .letter ++ right.landmarks := by
  unfold Alternatives.char
  by_cases hslash : c = '/'
  · subst hslash
    exact landmarks_close right
  by_cases hstar : c = '*'
  · subst hstar
    have h := landmarks_close { right with body := right.body.dropDigits }
    rw [landmarks, Body.landmarks_dropDigits] at h
    exact h
  rw [if_neg hslash, if_neg hstar]
  cases Shortcut.ofChar? c with
  | none => exact congrArg (· ++ right.rest.landmarks) (Body.landmarks_prepend c right.body)
  | some shortcut => rfl

end Alternatives

namespace Bracketed

def landmarks : Bracketed → List Landmark
  | nil => []
  | char c rest => (Shortcut.ofChar? c).toList.map .letter ++ rest.landmarks
  | quoted _ rest => rest.landmarks
  | group bracket interior rest =>
    .group bracket.optional interior.pattern :: interior.landmarks ++ rest.landmarks

-- Reading a level loses no letter and no group, and keeps their order.
theorem landmarks_alternatives (level : Bracketed) :
    level.alternatives.landmarks = level.landmarks := by
  induction level with
  | nil => rfl
  | char c rest ih => rw [alternatives, Alternatives.landmarks_char, ih, landmarks]
  | quoted text rest ih => exact ih
  | group bracket interior rest ihi ihr =>
    rw [landmarks, ← ihi, ← ihr, ← Alternatives.landmarks_close interior.alternatives]
    exact List.append_assoc (.group bracket.optional interior.pattern :: interior.pattern.landmarks)
      _ _

theorem landmarks_pattern (level : Bracketed) : level.pattern.landmarks = level.landmarks := by
  rw [pattern, Alternatives.landmarks_close, landmarks_alternatives]

end Bracketed

end Coinage
