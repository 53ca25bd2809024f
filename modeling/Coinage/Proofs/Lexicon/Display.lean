import Coinage.Proofs.Lexicon.Outcome
import Coinage.Proofs.Lexicon.Proper
import Coinage.Proofs.Recipe.Display

namespace Coinage.Lexicon

open Recipe

-- What is displayed is what is drawn from: recipes with the same display are equal
-- apart from nested sequences, and so make the same words with the same calls on
-- every source.
theorem compile_display (first second : Lexicon) (firstMain secondMain : Text)
    (hfirst : first.Bounded) (hsecond : second.Bounded)
    (hfirstMain : firstMain.utf8Length < sizeLimit)
    (hsecondMain : secondMain.utf8Length < sizeLimit) (recipe other : Recipe)
    (hrecipe : (first.compile firstMain).result = .ok recipe)
    (hother : (second.compile secondMain).result = .ok other)
    (h : recipe.display = other.display) :
    recipe.flatten = other.flatten ∧
      ∀ (σ : Type) [Source σ] (source : σ) (count : ℕ),
        recipe.samples count (Counted.start source) =
          other.samples count (Counted.start source) := by
  have hproper := everywhere_proper_compile (Nat.le_refl sizeLimit) hfirst hfirstMain hrecipe
  have hproper' := everywhere_proper_compile (Nat.le_refl sizeLimit) hsecond hsecondMain hother
  refine ⟨flatten_eq_of_display_eq hproper hproper' h, fun σ _ source count => ?_⟩
  exact samples_eq_of_display_eq hproper hproper' h (Counted.start source) count

-- A subpattern with two parts, one of which looks like what joins parts.
def pairLexicon : Lexicon where
  texts.get? shortcut :=
    match shortcut.toChar with
    | 'A' => some "x\" + \"".toList
    | _ => none

def pairRecipe : Recipe :=
  .sequence [.sequence [.literal ['x'], .literal " + ".toList],
    .uniform [.literal ['y'], .literal ['z']]]

def tripleRecipe : Recipe :=
  .sequence [.literal ['x'], .literal " + ".toList, .uniform [.literal ['y'], .literal ['z']]]

theorem compile_display_pair :
    (pairLexicon.compile "A[y/z]".toList).result = .ok pairRecipe ∧
      (Lexicon.empty.compile "x\" + \"[y/z]".toList).result = .ok tripleRecipe ∧
      pairRecipe.flatten = tripleRecipe.flatten := by
  have hfirst : pairLexicon.Bounded := by
    intro shortcut text ht
    simp only [pairLexicon] at ht
    split at ht <;> cases ht
    decide
  have hsecond : Lexicon.empty.Bounded := nofun
  have hpair : (pairLexicon.compile "A[y/z]".toList).result = .ok pairRecipe := rfl
  have htriple : (Lexicon.empty.compile "x\" + \"[y/z]".toList).result = .ok tripleRecipe := rfl
  exact ⟨hpair, htriple, (compile_display pairLexicon .empty _ _ hfirst hsecond (by decide)
    (by decide) pairRecipe tripleRecipe hpair htriple rfl).1⟩

end Coinage.Lexicon
