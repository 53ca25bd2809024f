import Coinage.Proofs.Pattern.Content
import Coinage.Proofs.Recipe.Scope

namespace Coinage

mutual

-- The literals of a recipe, one after the other. Of a choice all alternatives count.
def Recipe.content : Recipe → Text
  | .literal text => text
  | .sequence parts => Recipe.contents parts
  | .uniform choices => Recipe.contents choices
  | .weighted _ choices => Recipe.contents choices

def Recipe.contents : List Recipe → Text
  | [] => []
  | recipe :: recipes => recipe.content ++ Recipe.contents recipes

end

namespace Recipe

theorem contents_append (first second : List Recipe) :
    contents (first ++ second) = contents first ++ contents second := by
  induction first with
  | nil => rfl
  | cons recipe first ih => rw [List.cons_append, contents, ih, contents, List.append_assoc]

theorem content_ofParts (parts : List Recipe) : (ofParts parts).content = contents parts := by
  rcases parts with _ | ⟨part, _ | ⟨second, parts⟩⟩
  · rfl
  · exact (List.append_nil part.content).symm
  · rfl

-- The empty text that an optional group adds says nothing.
theorem content_ofAlternatives {optional : Bool} {suffixes : List (Option Text)}
    {recipes : List Recipe} {recipe : Recipe}
    (h : ofAlternatives optional suffixes recipes = .ok recipe) :
    recipe.content = contents recipes := by
  have hchoices : contents (recipes ++ if optional then [.literal []] else []) =
      contents recipes := by
    rw [contents_append]
    cases optional <;> exact List.append_nil _
  unfold ofAlternatives at h
  split at h
  · cases h
    rfl
  · cases h
    exact (List.append_nil _).symm
  · simp only at h
    split at h
    · obtain ⟨scale, -, rfl⟩ := except_map_eq_ok.mp h
      exact hchoices
    · cases h
      exact hchoices

end Recipe

theorem Context.find_eq_known {context : Context} {shortcut : Shortcut} {recipe : Recipe}
    (h : context.find shortcut = .ok recipe) : recipe = context.known shortcut := by
  unfold Context.find at h
  unfold Context.known
  cases hget : context.recipes.get? shortcut with
  | none =>
    rw [hget] at h
    cases h
  | some found =>
    rw [hget] at h
    cases h
    rfl

section Steps

variable (context : Context)

theorem Pattern.content_outcome {optional : Bool} {pattern : Pattern} {recipe : Recipe}
    (hrecipes : ∀ recipes, (pattern.recipes context).result = .ok recipes →
      Recipe.contents recipes = pattern.content fun shortcut => (context.known shortcut).content)
    (h : pattern.outcome context optional = .ok recipe) :
    recipe.content = pattern.content fun shortcut => (context.known shortcut).content := by
  obtain ⟨recipes, hresult, hchoice⟩ := except_bind_eq_ok.mp h
  rw [Recipe.content_ofAlternatives hchoice, hrecipes recipes hresult]

mutual

-- What is compiled says what the pattern says.
theorem Pattern.contents_recipes : (pattern : Pattern) → ∀ recipes,
    (pattern.recipes context).result = .ok recipes →
      Recipe.contents recipes = pattern.content fun shortcut => (context.known shortcut).content
  | .nil, _, h => by
    cases h
    rfl
  | .cons body suffix rest, _, h => by
    rw [Pattern.result_recipes_cons] at h
    obtain ⟨parts, hparts, h⟩ := except_bind_eq_ok.mp h
    obtain ⟨recipes, hrecipes, rfl⟩ := except_map_eq_ok.mp h
    rw [Recipe.contents, Recipe.content_ofParts, Body.contents_parts body parts hparts,
      Pattern.contents_recipes rest recipes hrecipes, Pattern.content]

theorem Body.contents_parts : (body : Body) → ∀ parts,
    (body.parts context).result = .ok parts →
      Recipe.contents parts = body.content fun shortcut => (context.known shortcut).content
  | .nil, _, h => by
    cases h
    rfl
  | .plain run rest, _, h => by
    rw [Body.result_parts_plain] at h
    obtain ⟨parts, hparts, rfl⟩ := except_map_eq_ok.mp h
    rw [Recipe.contents, Recipe.content, Body.contents_parts rest parts hparts, Body.content]
  | .quoted text rest, _, h => by
    rw [Body.result_parts_quoted] at h
    obtain ⟨parts, hparts, rfl⟩ := except_map_eq_ok.mp h
    rw [Recipe.contents, Recipe.content, Body.contents_parts rest parts hparts, Body.content]
  | .letter shortcut rest, _, h => by
    rw [Body.result_parts_letter] at h
    obtain ⟨part, hpart, h⟩ := except_bind_eq_ok.mp h
    obtain ⟨parts, hparts, rfl⟩ := except_map_eq_ok.mp h
    rw [Recipe.contents, Context.find_eq_known hpart, Body.contents_parts rest parts hparts,
      Body.content]
  | .group bracket interior rest, _, h => by
    rw [Body.result_parts_group] at h
    obtain ⟨part, hpart, h⟩ := except_bind_eq_ok.mp h
    obtain ⟨parts, hparts, rfl⟩ := except_map_eq_ok.mp h
    rw [Recipe.contents, Body.contents_parts rest parts hparts,
      Pattern.content_outcome context (Pattern.contents_recipes interior) hpart, Body.content]

end

end Steps

-- Compilation loses no text and adds none: the literals of a recipe are what the
-- text says, each letter of it being known.
theorem Recipe.compile_content {context : Context} {text : Text} {recipe : Recipe}
    (h : (compile context text).result = .ok recipe) :
    (∀ shortcut ∈ text.letters, (context.recipes.get? shortcut).isSome) ∧
      recipe.content = text.content fun shortcut => (context.known shortcut).content := by
  refine ⟨(Recipe.scoped_compile context text).known recipe h, ?_⟩
  obtain ⟨level, hread, houtcome⟩ := Recipe.compile_eq_ok h
  have hpattern : Pattern.read text = .ok level.pattern :=
    Pattern.read_eq_ok_iff.mpr ⟨level, hread, rfl⟩
  rw [Pattern.content_outcome context (Pattern.contents_recipes context level.pattern) houtcome,
    Pattern.content_of_read hpattern]

-- The letter C stands for one of two letters.
def stopContext : Context :=
  ⟨⟨fun shortcut => match shortcut.toChar with
    | 'C' => some (.uniform [.literal ['p'], .literal ['t']])
    | _ => none⟩, .main⟩

def stopRecipe : Recipe :=
  .sequence [
    .weighted (Scale.ofCounts [12, 1, 1])
      [.sequence [.literal ['a'], .literal "*3/".toList], .literal ['b'],
        .uniform [.literal ['p'], .literal ['t']]],
    .uniform [.literal ['c'], .literal []]]

-- A quoted star is text, a bare one is a weight, and the digits go with it.
theorem Recipe.compile_content_weighted :
    (compile stopContext "[a\"*3/\"*12b/C](c)".toList).result = .ok stopRecipe ∧
      Text.content (fun shortcut => (stopContext.known shortcut).content)
        "[a\"*3/\"*12b/C](c)".toList = "a*3/bptc".toList := by
  have hsize : Text.utf8Length "[a\"*3/\"*12b/C](c)".toList < sizeLimit := by decide
  have htree := result_compile_of_ok rfl hsize stopContext
  have hcompile : (compile stopContext "[a\"*3/\"*12b/C](c)".toList).result = .ok stopRecipe :=
    htree
  have hcontent : stopRecipe.content = "a*3/bptc".toList := rfl
  exact ⟨hcompile, (compile_content hcompile).2.symm.trans hcontent⟩

end Coinage
