import Coinage.Proofs.Recipe.Outcome

namespace Coinage

variable {context other : Context}

theorem Pattern.outcome_congr (optional : Bool) {pattern : Pattern}
    (h : (pattern.recipes context).result = (pattern.recipes other).result) :
    pattern.outcome context optional = pattern.outcome other optional := by
  rw [Pattern.outcome, Pattern.outcome, h]

mutual

-- Of a context, only what it has for the letters of a pattern matters.
theorem Pattern.result_recipes_congr : (pattern : Pattern) →
    (∀ letter ∈ pattern.letters, context.find letter = other.find letter) →
      (pattern.recipes context).result = (pattern.recipes other).result
  | .nil, _ => rfl
  | .cons body suffix rest, h => by
    rw [Pattern.letters_cons, List.forall_mem_append] at h
    rw [Pattern.result_recipes_cons, Pattern.result_recipes_cons,
      Body.result_parts_congr body h.1, Pattern.result_recipes_congr rest h.2]

theorem Body.result_parts_congr : (body : Body) →
    (∀ letter ∈ body.letters, context.find letter = other.find letter) →
      (body.parts context).result = (body.parts other).result
  | .nil, _ => rfl
  | .plain run rest, h => by
    rw [Body.result_parts_plain, Body.result_parts_plain, Body.result_parts_congr rest h]
  | .quoted text rest, h => by
    rw [Body.result_parts_quoted, Body.result_parts_quoted, Body.result_parts_congr rest h]
  | .letter shortcut rest, h => by
    rw [Body.letters_letter, List.forall_mem_cons] at h
    rw [Body.result_parts_letter, Body.result_parts_letter, h.1,
      Body.result_parts_congr rest h.2]
  | .group bracket interior rest, h => by
    rw [Body.letters_group, List.forall_mem_append] at h
    have hinterior := Pattern.outcome_congr bracket.optional
      (Pattern.result_recipes_congr interior h.1)
    rw [Body.result_parts_group, Body.result_parts_group, hinterior,
      Body.result_parts_congr rest h.2]

end

theorem Recipe.result_compile_congr {text : Text}
    (h : ∀ letter ∈ text.letters, context.find letter = other.find letter) :
    (Recipe.compile context text).result = (Recipe.compile other text).result := by
  unfold Recipe.compile
  cases hread : Pattern.read text with
  | error malformation => rfl
  | ok pattern =>
    rw [← Pattern.letters_of_read hread] at h
    change (pattern.compile context).result = (pattern.compile other).result
    rw [Pattern.result_compile, Pattern.result_compile,
      Pattern.outcome_congr false (Pattern.result_recipes_congr pattern h)]

end Coinage
