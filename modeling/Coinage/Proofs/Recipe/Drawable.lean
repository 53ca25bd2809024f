import Coinage.Proofs.Recipe.Proper
import Coinage.Proofs.Scale.Whole
import Coinage.Proofs.Source.Index

namespace Coinage

namespace Recipe

-- The choices that are compiled from short texts. There are some alternatives,
-- but not too many for an index, and a scale has a whole weight for each.
def Drawable : Recipe → Prop
  | uniform choices => choices ≠ [] ∧ choices.length ≤ 2 ^ 32
  | weighted scale choices =>
    ∃ counts, scale = Scale.ofCounts counts ∧ counts.length = choices.length ∧ counts ≠ [] ∧
      counts.length ≤ 2 ^ 44 ∧ Scale.Countable 0 counts
  | _ => True

theorem draw_ofCounts {σ : Type} [Source σ] {counts : List ℕ} (hne : counts ≠ []) (source : σ) :
    (Scale.ofCounts counts).draw source =
      ((Scale.ofCounts counts).pick (Source.next64 source).1, (Source.next64 source).2) := by
  have hsize : (Scale.ofCounts counts).size ≠ 0 := by
    rw [Scale.size_ofCounts]
    exact (List.length_pos_of_ne_nil hne).ne'
  rw [Scale.draw, if_neg hsize]

theorem decides_uniform {choices : List Recipe} (h : choices ≠ []) : Decides (uniform choices) :=
  ⟨h, fun _ _ => Source.index_lt (List.length_pos_of_ne_nil h)⟩

theorem Drawable.decides {recipe : Recipe} (h : recipe.Drawable) : recipe.Decides := by
  cases recipe with
  | literal text | sequence parts => trivial
  | uniform choices => exact decides_uniform h.1
  | weighted scale choices =>
    obtain ⟨counts, rfl, hlength, hne, -, hcounts⟩ := h
    intro σ _ source
    rw [← hlength, draw_ofCounts hne]
    exact Scale.exists_pick hcounts hne _

theorem Drawable.reaches {recipe : Recipe} (h : recipe.Drawable) : recipe.Reaches := by
  cases recipe with
  | literal text | sequence parts => trivial
  | uniform choices =>
    intro position hposition
    exact Source.exists_words_index hposition (h.2.trans (by norm_num))
  | weighted scale choices =>
    obtain ⟨counts, rfl, hlength, hne, hfew, hcounts⟩ := h
    intro position hposition
    rw [← hlength] at hposition
    obtain ⟨word, hword⟩ := Scale.exists_word_pick hcounts hfew hposition
    refine ⟨[word], fun rest fallback => ?_⟩
    rw [draw_ofCounts hne]
    exact Prod.ext hword rfl

theorem Proper.drawable {recipe : Recipe} (h : recipe.Proper (2 ^ 32)) : recipe.Drawable := by
  cases recipe with
  | literal text | sequence parts => trivial
  | uniform choices =>
    obtain ⟨htwo, hfew⟩ := h
    exact ⟨List.ne_nil_of_length_pos (by omega), hfew⟩
  | weighted scale choices =>
    obtain ⟨counts, hscale, hlength, htwo, hfew, hcounts⟩ := h
    exact ⟨counts, hscale, hlength, List.ne_nil_of_length_pos (by omega), by omega, hcounts⟩

-- Every source makes a word of the language, and each word is made from some script.
theorem sample_language {recipe : Recipe} (h : recipe.Everywhere Drawable) :
    recipe.Everywhere Decides ∧
      (∀ (σ : Type) [Source σ] (source : σ), (recipe.sample source).1 ∈ recipe.language) ∧
      ∀ word ∈ recipe.language, ∃ source : Scripted, (recipe.sample source).1 = word := by
  have hdecides := Everywhere.imp (fun _ => Drawable.decides) recipe h
  have hreaches := Everywhere.imp (fun _ => Drawable.reaches) recipe h
  refine ⟨hdecides, ?_, fun word hword => exists_sample_eq hreaches hword⟩
  intro σ _ source
  exact mem_language_sample hdecides source

end Recipe

end Coinage
