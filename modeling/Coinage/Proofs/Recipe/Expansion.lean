import Coinage.Proofs.Pattern.Expansion
import Coinage.Proofs.Recipe.Outcome

namespace Coinage

-- A context where letters are replaced by their definitions simulates one where
-- they stand for the recipes of these.
structure Simulates (source target : Context) (definitions : Shortcut → Option Pattern) : Prop where
  replaced : ∀ shortcut definition, definitions shortcut = some definition →
    ∀ recipe, source.recipes.get? shortcut = some recipe →
      definition.outcome target false = .ok recipe
  kept : ∀ shortcut, definitions shortcut = none →
    target.recipes.get? shortcut = source.recipes.get? shortcut

section Simulation

variable {source target : Context} {definitions : Shortcut → Option Pattern}

theorem Context.find_eq_ok {context : Context} {shortcut : Shortcut} {recipe : Recipe} :
    context.find shortcut = .ok recipe ↔ context.recipes.get? shortcut = some recipe := by
  unfold Context.find
  cases context.recipes.get? shortcut <;> simp

theorem Pattern.outcome_expand (optional : Bool) {pattern : Pattern} {recipe : Recipe}
    (hrecipes : ∀ recipes, (pattern.recipes source).result = .ok recipes →
      ((pattern.expand definitions).recipes target).result = .ok recipes)
    (h : pattern.outcome source optional = .ok recipe) :
    (pattern.expand definitions).outcome target optional = .ok recipe := by
  obtain ⟨recipes, hr, hchoice⟩ := except_bind_eq_ok.mp h
  rw [← Pattern.suffixes_expand definitions pattern] at hchoice
  exact except_bind_eq_ok.mpr ⟨recipes, hrecipes recipes hr, hchoice⟩

mutual

theorem Pattern.recipes_expand (hs : Simulates source target definitions) :
    (pattern : Pattern) → (recipes : List Recipe) → (pattern.recipes source).result = .ok recipes →
      ((pattern.expand definitions).recipes target).result = .ok recipes
  | .nil, _, h => h
  | .cons body suffix rest, recipes, h => by
    rw [Pattern.result_recipes_cons] at h
    obtain ⟨parts, hp, h⟩ := except_bind_eq_ok.mp h
    obtain ⟨more, hm, rfl⟩ := except_map_eq_ok.mp h
    rw [Pattern.expand, Pattern.result_recipes_cons, Body.parts_expand hs body parts hp,
      Except.bind, Pattern.recipes_expand hs rest more hm]
    rfl

theorem Body.parts_expand (hs : Simulates source target definitions) :
    (body : Body) → (parts : List Recipe) → (body.parts source).result = .ok parts →
      ((body.expand definitions).parts target).result = .ok parts
  | .nil, _, h => h
  | .plain run rest, parts, h => by
    obtain ⟨more, hm, rfl⟩ := except_map_eq_ok.mp h
    rw [Body.expand, Body.result_parts_plain, Body.parts_expand hs rest more hm]
    rfl
  | .quoted text rest, parts, h => by
    obtain ⟨more, hm, rfl⟩ := except_map_eq_ok.mp h
    rw [Body.expand, Body.result_parts_quoted, Body.parts_expand hs rest more hm]
    rfl
  | .letter shortcut rest, parts, h => by
    rw [Body.result_parts_letter] at h
    obtain ⟨part, hf, h⟩ := except_bind_eq_ok.mp h
    obtain ⟨more, hm, rfl⟩ := except_map_eq_ok.mp h
    have hfound := Context.find_eq_ok.mp hf
    have hrest := Body.parts_expand hs rest more hm
    cases hd : definitions shortcut with
    | some definition =>
      -- a mandatory group yields what its interior yields on its own
      have hpart := hs.replaced shortcut definition hd part hfound
      simp only [Body.expand, hd, Body.result_parts_group]
      rw [Bracket.optional, hpart, Except.bind, hrest]
      rfl
    | none =>
      have hpart : target.find shortcut = .ok part :=
        Context.find_eq_ok.mpr ((hs.kept shortcut hd).trans hfound)
      simp only [Body.expand, hd, Body.result_parts_letter]
      rw [hpart, Except.bind, hrest]
      rfl
  | .group bracket interior rest, parts, h => by
    rw [Body.result_parts_group] at h
    obtain ⟨part, ho, h⟩ := except_bind_eq_ok.mp h
    obtain ⟨more, hm, rfl⟩ := except_map_eq_ok.mp h
    have hinterior := Pattern.outcome_expand bracket.optional (Pattern.recipes_expand hs interior) ho
    rw [Body.expand, Body.result_parts_group, hinterior, Except.bind,
      Body.parts_expand hs rest more hm]
    rfl

end

theorem Simulates.outcome (hs : Simulates source target definitions) {pattern : Pattern}
    {recipe : Recipe} (h : pattern.outcome source false = .ok recipe) :
    (pattern.expand definitions).outcome target false = .ok recipe :=
  Pattern.outcome_expand false (Pattern.recipes_expand hs pattern) h

end Simulation

mutual

theorem Pattern.expand_none : (pattern : Pattern) → pattern.expand (fun _ => none) = pattern
  | .nil => rfl
  | .cons body suffix rest => by
    rw [Pattern.expand, Body.expand_none body, Pattern.expand_none rest]

theorem Body.expand_none : (body : Body) → body.expand (fun _ => none) = body
  | .nil => rfl
  | .plain run rest => congrArg (Body.plain run) (Body.expand_none rest)
  | .quoted text rest => congrArg (Body.quoted text) (Body.expand_none rest)
  | .letter shortcut rest => congrArg (Body.letter shortcut) (Body.expand_none rest)
  | .group bracket interior rest => by
    rw [Body.expand, Pattern.expand_none interior, Body.expand_none rest]

end

-- Where a pattern stands does not matter as long as it is compiled.
theorem Pattern.outcome_of_origin {recipes : ShortcutMap Recipe} {origin other : Origin}
    {pattern : Pattern} {recipe : Recipe}
    (h : pattern.outcome ⟨recipes, origin⟩ false = .ok recipe) :
    pattern.outcome ⟨recipes, other⟩ false = .ok recipe := by
  have hs : Simulates ⟨recipes, origin⟩ ⟨recipes, other⟩ fun _ => none :=
    ⟨nofun, fun _ _ => rfl⟩
  have hexpand := hs.outcome h
  rwa [Pattern.expand_none] at hexpand

end Coinage
