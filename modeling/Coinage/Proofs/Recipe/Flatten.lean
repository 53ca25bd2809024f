import Coinage.Proofs.Recipe.Proper
import Coinage.Proofs.Text.Row

namespace Coinage.Recipe

-- What a recipe has in a row: the parts of a sequence, or the recipe alone.
def parts : Recipe → List Recipe
  | sequence parts => parts
  | recipe => [recipe]

mutual

-- Sequences that stand directly in sequences give way to their parts.
def flatten : Recipe → Recipe
  | literal text => literal text
  | sequence parts => sequence (spliceAll parts)
  | uniform choices => uniform (flattenAll choices)
  | weighted scale choices => weighted scale (flattenAll choices)

def flattenAll : List Recipe → List Recipe
  | [] => []
  | recipe :: recipes => recipe.flatten :: flattenAll recipes

def spliceAll : List Recipe → List Recipe
  | [] => []
  | recipe :: recipes => recipe.flatten.parts ++ spliceAll recipes

end

theorem length_flattenAll (recipes : List Recipe) :
    (flattenAll recipes).length = recipes.length := by
  induction recipes with
  | nil => rfl
  | cons recipe recipes ih => exact congrArg Nat.succ ih

-- No part of a sequence is a sequence.
def Flat : Recipe → Prop
  | sequence parts => ∀ part ∈ parts, part.parts = [part]
  | _ => True

def Normal (limit : ℕ) (recipe : Recipe) : Prop :=
  recipe.Proper limit ∧ recipe.Flat

mutual

theorem parts_of_mem_parts_flatten : (recipe : Recipe) →
    ∀ part ∈ recipe.flatten.parts, part.parts = [part]
  | literal _ => List.forall_mem_singleton.mpr rfl
  | sequence parts => parts_of_mem_spliceAll parts
  | uniform _ => List.forall_mem_singleton.mpr rfl
  | weighted _ _ => List.forall_mem_singleton.mpr rfl

theorem parts_of_mem_spliceAll : (recipes : List Recipe) →
    ∀ part ∈ spliceAll recipes, part.parts = [part]
  | [] => List.forall_mem_nil _
  | recipe :: recipes =>
    List.forall_mem_append.mpr
      ⟨parts_of_mem_parts_flatten recipe, parts_of_mem_spliceAll recipes⟩

end

section Everywhere

variable {condition : Recipe → Prop}

theorem Everywhere.self {recipe : Recipe} (h : recipe.Everywhere condition) :
    condition recipe := by
  cases recipe with
  | literal text => exact h
  | sequence parts | uniform choices | weighted scale choices => exact h.1

theorem Everywhere.parts {recipe : Recipe} (h : recipe.Everywhere condition) :
    EverywhereIn condition recipe.parts := by
  cases recipe with
  | sequence parts => exact h.2
  | literal text | uniform choices | weighted scale choices => exact ⟨h, trivial⟩

end Everywhere

section Proper

variable {limit : ℕ}

theorem Proper.length_parts_pos {recipe : Recipe} (h : recipe.Proper limit) :
    0 < recipe.parts.length := by
  cases recipe with
  | sequence parts => exact Nat.zero_lt_of_lt h
  | literal text | uniform choices | weighted scale choices => exact Nat.one_pos

theorem Proper.parts_ne_singleton {parts : List Recipe} (h : (sequence parts).Proper limit)
    (recipe : Recipe) : (sequence parts).parts ≠ [recipe] := by
  intro hparts
  have hlength : parts.length = 1 := congrArg List.length hparts
  have htwo : 2 ≤ parts.length := h
  omega

theorem Proper.eq_of_parts_eq {first second : Recipe} (hfirst : first.Proper limit)
    (hsecond : second.Proper limit) (h : first.parts = second.parts) : first = second := by
  cases first with
  | sequence parts =>
    cases second with
    | sequence parts' => exact congrArg sequence h
    | literal text | uniform choices | weighted scale choices =>
      exact absurd h (hfirst.parts_ne_singleton _)
  | literal text | uniform choices | weighted scale choices =>
    cases second with
    | sequence parts => exact absurd h.symm (hsecond.parts_ne_singleton _)
    | literal text | uniform choices | weighted scale choices => exact (List.cons.inj h).1

theorem Normal.parts_of_mem_parts {recipe : Recipe} (h : recipe.Normal limit) :
    ∀ part ∈ recipe.parts, part.parts = [part] := by
  cases recipe with
  | sequence parts => exact h.2
  | literal text | uniform choices | weighted scale choices =>
    exact List.forall_mem_singleton.mpr rfl

mutual

theorem everywhere_flatten : (recipe : Recipe) → recipe.Everywhere (Proper limit) →
    recipe.flatten.Everywhere (Normal limit)
  | literal _, h => ⟨h, trivial⟩
  | sequence parts, ⟨htwo, hparts⟩ => by
    obtain ⟨hall, hlength⟩ := everywhere_spliceAll parts hparts
    exact ⟨⟨Nat.le_trans htwo hlength, parts_of_mem_spliceAll parts⟩, hall⟩
  | uniform choices, ⟨hchoices, hall⟩ => by
    rw [Proper, ← length_flattenAll choices] at hchoices
    exact ⟨⟨hchoices, trivial⟩, everywhere_flattenAll choices hall⟩
  | weighted _ choices, ⟨hchoices, hall⟩ => by
    rw [Proper, ← length_flattenAll choices] at hchoices
    exact ⟨⟨hchoices, trivial⟩, everywhere_flattenAll choices hall⟩

theorem everywhere_flattenAll : (recipes : List Recipe) → EverywhereIn (Proper limit) recipes →
    EverywhereIn (Normal limit) (flattenAll recipes)
  | [], _ => trivial
  | recipe :: recipes, ⟨hrecipe, hall⟩ =>
    ⟨everywhere_flatten recipe hrecipe, everywhere_flattenAll recipes hall⟩

-- No part is lost.
theorem everywhere_spliceAll : (recipes : List Recipe) → EverywhereIn (Proper limit) recipes →
    EverywhereIn (Normal limit) (spliceAll recipes) ∧
      recipes.length ≤ (spliceAll recipes).length
  | [], _ => ⟨trivial, Nat.le_refl 0⟩
  | recipe :: recipes, ⟨hrecipe, hall⟩ => by
    have hflat := everywhere_flatten recipe hrecipe
    have hpos := hflat.self.1.length_parts_pos
    obtain ⟨hrest, hlength⟩ := everywhere_spliceAll recipes hall
    refine ⟨everywhereIn_append hflat.parts hrest, ?_⟩
    rw [spliceAll, List.length_append, List.length_cons]
    omega

end

end Proper

section Display

variable {limit : ℕ}

theorem displays_eq_map (recipes : List Recipe) : displays recipes = recipes.map display := by
  induction recipes with
  | nil => rfl
  | cons recipe recipes ih => rw [displays, ih, List.map_cons]

def joint : Text := [' ', '+', ' ']

theorem intercalate_parts (recipe : Recipe) :
    joint.intercalate (recipe.parts.map display) = recipe.display := by
  cases recipe with
  | sequence parts => exact congrArg joint.intercalate (displays_eq_map parts).symm
  | literal text | uniform choices | weighted scale choices => exact List.intercalate_singleton

theorem append_display (recipe : Recipe) (closing : Text) (h : 0 < recipe.parts.length) :
    joint ++ recipe.display ++ closing = Text.row joint closing (recipe.parts.map display) := by
  have hparts : recipe.parts.map display ≠ [] := by simpa using List.ne_nil_of_length_pos h
  rw [← Text.append_intercalate _ _ hparts, intercalate_parts]

mutual

theorem display_flatten : (recipe : Recipe) → recipe.Everywhere (Proper limit) →
    recipe.flatten.display = recipe.display
  | literal _, _ => rfl
  | sequence parts, h => by
    have hflat := (everywhere_flatten _ h).self.1.length_parts_pos
    have hrow := row_spliceAll [] parts h.2
    have hfirst := append_display (sequence parts).flatten [] hflat
    have hsecond := append_display (sequence parts) [] h.self.length_parts_pos
    rw [List.append_nil] at hfirst hsecond
    exact List.append_cancel_left (hfirst.trans (hrow.trans hsecond.symm))
  | uniform choices, ⟨_, hchoices⟩ => by
    rw [flatten, display, display, displays_eq_map, displays_eq_map,
      map_display_flattenAll choices hchoices]
  | weighted scale choices, ⟨_, hchoices⟩ => by
    rw [flatten, display, display, displays_eq_map, displays_eq_map,
      map_display_flattenAll choices hchoices]

theorem map_display_flattenAll : (recipes : List Recipe) → EverywhereIn (Proper limit) recipes →
    (flattenAll recipes).map display = recipes.map display
  | [], _ => rfl
  | recipe :: recipes, ⟨hrecipe, hall⟩ => by
    rw [flattenAll, List.map_cons, List.map_cons, display_flatten recipe hrecipe,
      map_display_flattenAll recipes hall]

theorem row_spliceAll (closing : Text) :
    (recipes : List Recipe) → EverywhereIn (Proper limit) recipes →
      Text.row joint closing ((spliceAll recipes).map display) =
        Text.row joint closing (recipes.map display)
  | [], _ => rfl
  | recipe :: recipes, ⟨hrecipe, hall⟩ => by
    have hpos := (everywhere_flatten recipe hrecipe).self.1.length_parts_pos
    rw [spliceAll, List.map_append, Text.row_append, row_spliceAll closing recipes hall,
      ← append_display _ _ hpos, display_flatten recipe hrecipe, List.map_cons, Text.row]

end

end Display

section Sample

variable {σ : Type} [Source σ]

theorem appendAll_append (buffer : Array Char) (source : σ) (first second : List Recipe) :
    appendAll buffer source (first ++ second) =
      appendAll (appendAll buffer source first).1 (appendAll buffer source first).2 second := by
  induction first generalizing buffer source with
  | nil => rfl
  | cons recipe first ih =>
    simp only [List.cons_append, appendAll]
    exact ih _ _

theorem appendAll_parts (buffer : Array Char) (source : σ) (recipe : Recipe) :
    appendAll buffer source recipe.parts = recipe.appendTo buffer source := by
  cases recipe <;> rfl

mutual

-- A word is made in the same way without nested sequences.
theorem appendTo_flatten (buffer : Array Char) (source : σ) : (recipe : Recipe) →
    recipe.flatten.appendTo buffer source = recipe.appendTo buffer source
  | literal _ => rfl
  | sequence parts => appendAll_spliceAll buffer source parts
  | uniform choices => by
    have hempty : (flattenAll choices).isEmpty = choices.isEmpty := by
      cases choices <;> rfl
    simp only [flatten, appendTo, hempty, length_flattenAll]
    split
    · rfl
    · exact appendNth_flattenAll buffer _ _ choices
  | weighted scale choices => by
    simp only [flatten, appendTo]
    split
    · exact appendNth_flattenAll buffer _ _ choices
    · rfl

theorem appendAll_spliceAll (buffer : Array Char) (source : σ) : (recipes : List Recipe) →
    appendAll buffer source (spliceAll recipes) = appendAll buffer source recipes
  | [] => rfl
  | recipe :: recipes => by
    rw [spliceAll, appendAll_append, appendAll_parts, appendTo_flatten buffer source recipe,
      appendAll_spliceAll _ _ recipes, appendAll]

theorem appendNth_flattenAll (buffer : Array Char) (source : σ) (position : ℕ) :
    (recipes : List Recipe) →
      appendNth buffer source position (flattenAll recipes) =
        appendNth buffer source position recipes
  | [] => rfl
  | recipe :: recipes => by
    cases position with
    | zero => exact appendTo_flatten buffer source recipe
    | succ position => exact appendNth_flattenAll buffer source position recipes

end

theorem samples_flatten (recipe : Recipe) (count : ℕ) (source : σ) :
    recipe.flatten.samples count source = recipe.samples count source := by
  induction count generalizing source with
  | zero => rfl
  | succ count ih => simp only [samples, sample, appendTo_flatten, ih]

end Sample

end Coinage.Recipe
