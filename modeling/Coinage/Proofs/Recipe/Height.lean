import Coinage.Proofs.Pattern.Depth
import Coinage.Proofs.Pattern.Expansion
import Coinage.Proofs.Recipe.Expansion

namespace Coinage

namespace Recipe

mutual

-- The number of steps on the longest way from a recipe down to one that contains
-- no other.
def height : Recipe → Nat
  | literal _ => 0
  | sequence parts => heightAbove parts
  | uniform choices => heightAbove choices
  | weighted _ choices => heightAbove choices

-- The height of what stands one step above some recipes.
def heightAbove : List Recipe → Nat
  | [] => 0
  | recipe :: recipes => max (recipe.height + 1) (heightAbove recipes)

end

theorem heightAbove_le_iff {recipes : List Recipe} {bound : Nat} :
    heightAbove recipes ≤ bound ↔ ∀ recipe ∈ recipes, recipe.height + 1 ≤ bound := by
  induction recipes with
  | nil => simp [heightAbove]
  | cons recipe recipes ih => rw [heightAbove, Nat.max_le, ih, List.forall_mem_cons]

theorem heightAbove_le {recipes : List Recipe} {bound : Nat}
    (h : ∀ recipe ∈ recipes, recipe.height ≤ bound) : heightAbove recipes ≤ bound + 1 :=
  heightAbove_le_iff.mpr fun recipe hr => Nat.succ_le_succ (h recipe hr)

-- An alternative with more than one part is one step above them.
theorem height_ofParts {parts : List Recipe} {bound : Nat}
    (h : ∀ part ∈ parts, part.height ≤ bound) : (ofParts parts).height ≤ bound + 1 := by
  unfold ofParts
  split
  · exact Nat.zero_le _
  · exact Nat.le_succ_of_le (h _ List.mem_cons_self)
  · exact heightAbove_le h

-- A choice is one step above its alternatives, and so is the empty text that an
-- optional group adds.
theorem height_ofAlternatives {optional : Bool} {suffixes : List (Option Text)}
    {recipes : List Recipe} {recipe : Recipe}
    (h : ofAlternatives optional suffixes recipes = .ok recipe) {bound : Nat}
    (hrecipes : ∀ choice ∈ recipes, choice.height ≤ bound) : recipe.height ≤ bound + 1 := by
  have hchoices : heightAbove (recipes ++ if optional then [literal []] else []) ≤ bound + 1 := by
    apply heightAbove_le
    intro choice hc
    rcases List.mem_append.mp hc with hrecipe | hempty
    · exact hrecipes choice hrecipe
    · cases optional with
      | false => exact absurd hempty List.not_mem_nil
      | true =>
        rw [List.mem_singleton.mp hempty]
        exact Nat.zero_le _
  unfold ofAlternatives at h
  split at h
  · cases h
    exact Nat.zero_le _
  · cases h
    exact Nat.le_succ_of_le (hrecipes _ List.mem_cons_self)
  · by_cases hweighted : suffixes.any Option.isSome
    · simp only [if_pos hweighted] at h
      obtain ⟨scale, -, rfl⟩ := except_map_eq_ok.mp h
      exact hchoices
    · simp only [if_neg hweighted] at h
      cases h
      exact hchoices

end Recipe

section Compile

variable {context : Context} {bound : Nat}

-- What the letters stand for is no higher than a bound.
def Context.Bounds (context : Context) (letters : List Shortcut) (bound : Nat) : Prop :=
  ∀ letter ∈ letters, ∀ recipe, context.recipes.get? letter = some recipe → recipe.height ≤ bound

theorem Context.bounds_append {first second : List Shortcut} :
    context.Bounds (first ++ second) bound ↔
      context.Bounds first bound ∧ context.Bounds second bound :=
  List.forall_mem_append

theorem Pattern.height_outcome {optional : Bool} {pattern : Pattern} {recipe : Recipe}
    (hrecipes : ∀ recipes, (pattern.recipes context).result = .ok recipes →
      ∀ choice ∈ recipes, choice.height ≤ bound)
    (h : pattern.outcome context optional = .ok recipe) : recipe.height ≤ bound + 1 := by
  obtain ⟨recipes, hr, hchoice⟩ := except_bind_eq_ok.mp h
  exact Recipe.height_ofAlternatives hchoice (hrecipes recipes hr)

mutual

-- Each level of groups adds at most a choice and a sequence.
theorem Pattern.height_recipes : (pattern : Pattern) → context.Bounds pattern.letters bound →
    ∀ recipes, (pattern.recipes context).result = .ok recipes →
      ∀ choice ∈ recipes, choice.height ≤ 2 * pattern.depth + bound + 1
  | .nil, _, recipes, h => by
    cases h
    exact List.forall_mem_nil _
  | .cons body suffix rest, hletters, recipes, h => by
    rw [Pattern.letters_cons, Context.bounds_append] at hletters
    rw [Pattern.result_recipes_cons] at h
    obtain ⟨parts, hp, h⟩ := except_bind_eq_ok.mp h
    obtain ⟨more, hm, rfl⟩ := except_map_eq_ok.mp h
    have hbody := Body.height_parts body hletters.1 parts hp
    have hrest := Pattern.height_recipes rest hletters.2 more hm
    rw [Pattern.depth, List.forall_mem_cons]
    constructor
    · have hfirst := Recipe.height_ofParts hbody
      omega
    · intro choice hc
      have hchoice := hrest choice hc
      omega

theorem Body.height_parts : (body : Body) → context.Bounds body.letters bound →
    ∀ parts, (body.parts context).result = .ok parts →
      ∀ part ∈ parts, part.height ≤ 2 * body.depth + bound
  | .nil, _, parts, h => by
    cases h
    exact List.forall_mem_nil _
  | .plain run rest, hletters, parts, h => by
    obtain ⟨more, hm, rfl⟩ := except_map_eq_ok.mp h
    exact List.forall_mem_cons.mpr ⟨Nat.zero_le _, Body.height_parts rest hletters more hm⟩
  | .quoted text rest, hletters, parts, h => by
    obtain ⟨more, hm, rfl⟩ := except_map_eq_ok.mp h
    exact List.forall_mem_cons.mpr ⟨Nat.zero_le _, Body.height_parts rest hletters more hm⟩
  | .letter shortcut rest, hletters, parts, h => by
    rw [Body.result_parts_letter] at h
    obtain ⟨part, hf, h⟩ := except_bind_eq_ok.mp h
    obtain ⟨more, hm, rfl⟩ := except_map_eq_ok.mp h
    rw [Body.letters_letter] at hletters
    obtain ⟨hshortcut, hrest⟩ := List.forall_mem_cons.mp hletters
    have hpart := hshortcut part (Context.find_eq_ok.mp hf)
    exact List.forall_mem_cons.mpr
      ⟨Nat.le_add_left_of_le hpart, Body.height_parts rest hrest more hm⟩
  | .group bracket interior rest, hletters, parts, h => by
    rw [Body.letters_group, Context.bounds_append] at hletters
    rw [Body.result_parts_group] at h
    obtain ⟨part, ho, h⟩ := except_bind_eq_ok.mp h
    obtain ⟨more, hm, rfl⟩ := except_map_eq_ok.mp h
    have hgroup := Pattern.height_outcome (Pattern.height_recipes interior hletters.1) ho
    have hrest := Body.height_parts rest hletters.2 more hm
    rw [Body.depth, List.forall_mem_cons]
    constructor
    · omega
    · intro other ho
      have hother := hrest other ho
      omega

end

-- The height of what is compiled depends on how deep the groups of the text nest,
-- and not on its length.
theorem Recipe.height_compile {text : Text} (hletters : context.Bounds text.letters bound)
    {recipe : Recipe} (h : (Recipe.compile context text).result = .ok recipe) :
    recipe.height ≤ 2 * (text.nesting + 1) + bound := by
  obtain ⟨level, hread, houtcome⟩ := Recipe.compile_eq_ok h
  obtain ⟨hlegible, -, rfl⟩ := Bracketed.read_eq_ok_iff.mp hread
  rw [Bracketed.letters_render hlegible, ← Bracketed.letters_pattern] at hletters
  have hheight := Pattern.height_outcome (Pattern.height_recipes _ hletters) houtcome
  rw [Bracketed.depth_pattern] at hheight
  rw [Bracketed.nesting_render hlegible]
  omega

-- A text that is compiled nests its groups no deeper than the limit.
theorem Recipe.height_compile_le {text : Text} (hletters : context.Bounds text.letters bound)
    {recipe : Recipe} (h : (Recipe.compile context text).result = .ok recipe) :
    recipe.height ≤ 2 * (depthLimit + 1) + bound := by
  have hheight := Recipe.height_compile hletters h
  obtain ⟨level, hread, -⟩ := Recipe.compile_eq_ok h
  obtain ⟨hlegible, hdepth, rfl⟩ := Bracketed.read_eq_ok_iff.mp hread
  rw [Bracketed.nesting_render hlegible] at hheight
  omega

end Compile

end Coinage
