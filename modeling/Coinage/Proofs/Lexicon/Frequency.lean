import Coinage.Proofs.Lexicon.Language
import Coinage.Proofs.Scale.Frequency

namespace Coinage

namespace Recipe

-- If a recipe is a weighted choice, every source selects an alternative with its next
-- word. Of all words as many select a given alternative as its share of the weights
-- says, up to an error below 2 ^ 13.
def HonoursWeights : Recipe → Prop
  | weighted scale choices =>
    ∃ counts : List ℕ, scale.weights = counts.map Float.ofNat ∧ counts.length = choices.length ∧
      (∀ (σ : Type) [Source σ] (source : σ), ∃ position, ∃ h : position < choices.length,
        scale.pick (Source.next64 source).1 = some position ∧
          (weighted scale choices).sample source =
            choices[position].sample (Source.next64 source).2) ∧
      (∀ position (h : position < counts.length),
        |(scale.frequency position : ℚ) - 2 ^ 64 * (counts[position] / counts.sum)| < 2 ^ 13) ∧
      ∑ position ∈ Finset.range counts.length, scale.frequency position = 2 ^ 64
  | _ => True

theorem appendNth_eq {σ : Type} [Source σ] (buffer : Array Char) (source : σ)
    {choices : List Recipe} {position : ℕ} (h : position < choices.length) :
    appendNth buffer source position choices = choices[position].appendTo buffer source := by
  induction choices generalizing position with
  | nil => exact absurd h (Nat.not_lt_zero position)
  | cons choice choices ih =>
    cases position with
    | zero => rfl
    | succ position => exact ih (Nat.lt_of_succ_lt_succ h)

theorem Proper.honoursWeights {limit : ℕ} {recipe : Recipe} (h : recipe.Proper limit) :
    recipe.HonoursWeights := by
  cases recipe with
  | literal text | sequence parts | uniform choices => trivial
  | weighted scale choices =>
    obtain ⟨counts, rfl, hlength, htwo, -, hcounts⟩ := h
    have hne : counts ≠ [] := List.ne_nil_of_length_pos (by omega)
    refine ⟨counts, Scale.weights_ofCounts hcounts, hlength, ?_,
      fun position hposition => Scale.abs_frequency_ofCounts_sub_lt hcounts hposition,
      Scale.sum_frequency_ofCounts hcounts hne⟩
    intro σ _ source
    obtain ⟨position, hposition, hpick⟩ := Scale.exists_pick hcounts hne (Source.next64 source).1
    rw [hlength] at hposition
    refine ⟨position, hposition, hpick, ?_⟩
    simp only [sample, appendTo, draw_ofCounts hne, hpick, appendNth_eq _ _ hposition]

end Recipe

namespace Lexicon

open Recipe

-- The draws of a compiled recipe honour the weights in its texts.
theorem compile_honours_weights (lexicon : Lexicon) (main : Text)
    (hsize : ∀ shortcut text, lexicon.texts.get? shortcut = some text →
      text.utf8Length < sizeLimit)
    (hmain : main.utf8Length < sizeLimit) (recipe : Recipe)
    (h : (lexicon.compile main).result = .ok recipe) : recipe.Everywhere HonoursWeights :=
  Everywhere.imp (fun _ => Proper.honoursWeights) recipe
    (everywhere_proper_compile le_rfl hsize hmain h)

theorem compile_honours_weights_syllable :
    (syllableLexicon.compile "A(b*2/c)".toList).result = .ok syllableRecipe ∧
      ∑ position ∈ Finset.range 2, (Scale.ofCounts [3, 1]).frequency position = 2 ^ 64 := by
  have hsize : ∀ shortcut text, syllableLexicon.texts.get? shortcut = some text →
      text.utf8Length < sizeLimit := by
    intro shortcut text ht
    simp only [syllableLexicon] at ht
    split at ht <;> cases ht
    decide
  obtain ⟨-, ⟨⟨counts, -, hlength, -, -, hsum⟩, -⟩, -⟩ :=
    compile_honours_weights syllableLexicon "A(b*2/c)".toList hsize (by decide) syllableRecipe
      compile_syllable
  have htwo : counts.length = 2 := hlength
  rw [htwo] at hsum
  exact ⟨compile_syllable, hsum⟩

end Lexicon

end Coinage
