import Coinage.Proofs.Pattern.Renaming
import Coinage.Proofs.Recipe.Outcome

namespace Coinage

-- The second context has under new letters what the first one has under old ones.
def Context.Renamed (names : Shortcut → Shortcut) (source target : Context) : Prop :=
  ∀ shortcut, target.recipes.get? (names shortcut) = source.recipes.get? shortcut

namespace Context.Renamed

variable {names : Shortcut → Shortcut} {source target : Context}

theorem find (h : source.Renamed names target) (shortcut : Shortcut) :
    (target.find (names shortcut)).toOption = (source.find shortcut).toOption := by
  unfold Context.find
  rw [h shortcut]
  cases source.recipes.get? shortcut <;> rfl

theorem outcome_of_recipes {pattern : Pattern} (optional : Bool)
    (h : ((pattern.rename names).recipes target).result.toOption =
      (pattern.recipes source).result.toOption) :
    ((pattern.rename names).outcome target optional).toOption =
      (pattern.outcome source optional).toOption := by
  rw [Pattern.outcome, Pattern.outcome, except_toOption_bind, except_toOption_bind, h,
    Pattern.suffixes_rename]

mutual

-- The same recipes come out. Only a failure may name another letter.
theorem recipes (h : source.Renamed names target) : (pattern : Pattern) →
    ((pattern.rename names).recipes target).result.toOption =
      (pattern.recipes source).result.toOption
  | .nil => rfl
  | .cons body suffix rest => by
    rw [Pattern.rename, Pattern.result_recipes_cons, Pattern.result_recipes_cons,
      except_toOption_bind, except_toOption_bind, h.parts body]
    simp only [except_toOption_map, h.recipes rest]

theorem parts (h : source.Renamed names target) : (body : Body) →
    ((body.rename names).parts target).result.toOption = (body.parts source).result.toOption
  | .nil => rfl
  | .plain run rest => by
    simp only [Body.rename, Body.result_parts_plain, except_toOption_map, h.parts rest]
  | .quoted text rest => by
    simp only [Body.rename, Body.result_parts_quoted, except_toOption_map, h.parts rest]
  | .letter shortcut rest => by
    simp only [Body.rename, Body.result_parts_letter, except_toOption_bind, except_toOption_map,
      h.find, h.parts rest]
  | .group bracket interior rest => by
    have hinterior := outcome_of_recipes bracket.optional (h.recipes interior)
    simp only [Body.rename, Body.result_parts_group, except_toOption_bind, except_toOption_map,
      hinterior, h.parts rest]

end

theorem outcome (h : source.Renamed names target) (optional : Bool) (pattern : Pattern) :
    ((pattern.rename names).outcome target optional).toOption =
      (pattern.outcome source optional).toOption :=
  outcome_of_recipes optional (h.recipes pattern)

-- A text yields under new letters what it yields under old ones.
theorem compile (h : source.Renamed names target) {text : Text} {recipe : Recipe}
    (hcompile : (Recipe.compile source text).result = .ok recipe) :
    (Recipe.compile target (text.rename names)).result = .ok recipe := by
  obtain ⟨level, hread, houtcome⟩ := Recipe.compile_eq_ok hcompile
  apply Recipe.compile_of_outcome (Bracketed.read_rename hread)
  rw [Bracketed.pattern_rename, ← except_toOption_eq_some, h.outcome, houtcome]
  rfl

end Context.Renamed

end Coinage
