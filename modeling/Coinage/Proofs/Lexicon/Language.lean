import Coinage.Proofs.Lexicon.Proper
import Coinage.Proofs.Recipe.Drawable

namespace Coinage.Lexicon

open Recipe

theorem everywhere_drawable_compile {lexicon : Lexicon} {main : Text}
    (hsize : ∀ shortcut text, lexicon.texts.get? shortcut = some text → text.utf8Length < 2 ^ 32)
    (hmain : main.utf8Length < 2 ^ 32) {recipe : Recipe}
    (h : (lexicon.compile main).result = .ok recipe) : recipe.Everywhere Drawable :=
  Everywhere.imp (fun _ => Proper.drawable) recipe
    (everywhere_proper_compile (by decide) hsize hmain h)

-- Samples of a compiled recipe are exactly the words of its language: each choice
-- is decided by every source, and each word is made from some source.
theorem compile_language (lexicon : Lexicon) (main : Text)
    (hsize : ∀ shortcut text, lexicon.texts.get? shortcut = some text → text.utf8Length < 2 ^ 32)
    (hmain : main.utf8Length < 2 ^ 32) (recipe : Recipe)
    (h : (lexicon.compile main).result = .ok recipe) :
    recipe.Everywhere Decides ∧
      (∀ (σ : Type) [Source σ] (source : σ), (recipe.sample source).1 ∈ recipe.language) ∧
      ∀ word ∈ recipe.language, ∃ source : Scripted, (recipe.sample source).1 = word :=
  sample_language (everywhere_drawable_compile hsize hmain h)

-- A weighted choice as a subpattern, and one in an optional group.
def syllableLexicon : Lexicon where
  texts.get? shortcut :=
    match shortcut.toChar with
    | 'A' => some "x*3/y".toList
    | _ => none

def onsetRecipe : Recipe :=
  .weighted (Scale.ofCounts [3, 1]) [.literal ['x'], .literal ['y']]

def syllableRecipe : Recipe :=
  .sequence [onsetRecipe,
    .weighted (Scale.ofCounts [2, 1, 1]) [.literal ['b'], .literal ['c'], .literal []]]

theorem compile_syllable :
    (syllableLexicon.compile "A(b*2/c)".toList).result = .ok syllableRecipe := by
  have honsetSize : Text.utf8Length "x*3/y".toList < sizeLimit := by decide
  have honset := result_compile_of_ok rfl honsetSize ⟨.empty, .subpattern ⟨0⟩⟩
  have hprimitives : (compileAll true .empty syllableLexicon.primitives.entries .empty).result =
      .ok (ShortcutMap.empty.insert ⟨0⟩ onsetRecipe) := by
    have hentries : syllableLexicon.primitives.entries = [(⟨0⟩, "x*3/y".toList)] := rfl
    rw [hentries, result_compileAll_cons, honset]
    rfl
  have hmainSize : Text.utf8Length "A(b*2/c)".toList < sizeLimit := by decide
  have hmain := result_compile_of_ok rfl hmainSize
    ⟨ShortcutMap.empty.insert ⟨0⟩ onsetRecipe, .main⟩
  rw [result_compile, hprimitives]
  exact hmain

theorem compile_language_syllable :
    (syllableLexicon.compile "A(b*2/c)".toList).result = .ok syllableRecipe ∧
      "yc".toList ∈ syllableRecipe.language ∧
      ∃ source : Scripted, (syllableRecipe.sample source).1 = "yc".toList := by
  have hsize : ∀ shortcut text, syllableLexicon.texts.get? shortcut = some text →
      text.utf8Length < 2 ^ 32 := by
    intro shortcut text ht
    simp only [syllableLexicon] at ht
    split at ht <;> cases ht
    decide
  have hword : "yc".toList ∈ syllableRecipe.language :=
    ⟨['y'], Or.inr (Or.inl rfl), ['c'], ⟨['c'], Or.inr (Or.inl rfl), [], rfl, rfl⟩, rfl⟩
  have hlanguage := compile_language syllableLexicon "A(b*2/c)".toList hsize (by decide)
    syllableRecipe compile_syllable
  exact ⟨compile_syllable, hword, hlanguage.2.2 _ hword⟩

end Coinage.Lexicon
