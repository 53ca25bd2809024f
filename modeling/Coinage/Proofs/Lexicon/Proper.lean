import Coinage.Proofs.Lexicon.Rounds
import Coinage.Proofs.Recipe.Proper

namespace Coinage.Lexicon

open Recipe

variable {limit : ℕ}

theorem Round.everywhere_proper {texts : ShortcutMap Text} {known learned : ShortcutMap Recipe}
    (h : Round texts known learned) (hlimit : limit ≤ sizeLimit)
    (hsize : ∀ shortcut text, texts.get? shortcut = some text → text.utf8Length < limit)
    (hknown : ∀ shortcut recipe, known.get? shortcut = some recipe →
      recipe.Everywhere (Proper limit)) :
    ∀ shortcut recipe, learned.get? shortcut = some recipe →
      recipe.Everywhere (Proper limit) :=
  h.forall_learned hknown fun shortcut text _ ht hcompiled =>
    everywhere_compile hknown hlimit (hsize shortcut text ht) hcompiled

section Short

variable {lexicon : Lexicon} (hlimit : limit ≤ sizeLimit)
  (hsize : ∀ shortcut text, lexicon.texts.get? shortcut = some text → text.utf8Length < limit)
include hlimit hsize

theorem everywhere_proper_primitives {primitives : ShortcutMap Recipe}
    (h : Round lexicon.primitives .empty primitives) :
    ∀ shortcut recipe, primitives.get? shortcut = some recipe → recipe.Everywhere (Proper limit) :=
  h.everywhere_proper hlimit
    (fun shortcut text ht => hsize shortcut text (get?_primitives_eq_some_iff.mp ht).1) nofun

theorem everywhere_proper_recipes {primitives recipes : ShortcutMap Recipe}
    (hprimitives : Round lexicon.primitives .empty primitives)
    (hcomplexes : Round lexicon.complexes primitives recipes) :
    ∀ shortcut recipe, recipes.get? shortcut = some recipe → recipe.Everywhere (Proper limit) :=
  hcomplexes.everywhere_proper hlimit
    (fun shortcut text ht => hsize shortcut text (get?_complexes_eq_some_iff.mp ht).1)
    (everywhere_proper_primitives hlimit hsize hprimitives)

-- All recipes that are compiled from short texts are proper everywhere.
theorem everywhere_proper_compile {main : Text} (hmain : main.utf8Length < limit)
    {recipe : Recipe} (h : (lexicon.compile main).result = .ok recipe) :
    recipe.Everywhere (Proper limit) := by
  obtain ⟨primitives, recipes, hprimitives, hcomplexes, hrecipe⟩ := exists_rounds h
  have hknown := everywhere_proper_recipes hlimit hsize hprimitives hcomplexes
  exact everywhere_compile hknown hlimit hmain hrecipe

end Short

end Coinage.Lexicon
