import Coinage.Proofs.Lexicon.Height
import Coinage.Proofs.Lexicon.Proper
import Coinage.Proofs.Recipe.Fixed
import Coinage.Proofs.Scale.Whole

namespace Coinage

namespace Recipe

-- A recipe in normal form. A sequence has parts to join and a choice has alternatives to
-- choose from, no quote is in a literal, and the weights are whole numbers from 1 to 128
-- that add up to the total exactly.
def Reduced : Recipe → Prop
  | literal text => '"' ∉ text
  | sequence parts => 2 ≤ parts.length
  | uniform choices => 2 ≤ choices.length
  | weighted scale choices =>
    2 ≤ choices.length ∧ ∃ counts : List ℕ, counts.length = choices.length ∧
      scale.weights = counts.map Float.ofNat ∧
      (∀ count ∈ counts, 1 ≤ count ∧ count ≤ 128 ∧ Double.Denotes (Float.ofNat count) count) ∧
      Double.Denotes scale.total counts.sum

theorem Proper.reduced {limit : ℕ} {recipe : Recipe} (h : recipe.Proper limit) :
    recipe.Reduced := by
  cases recipe with
  | literal text | sequence parts => exact h
  | uniform choices => exact h.1
  | weighted scale choices =>
    obtain ⟨counts, rfl, hlength, htwo, -, hcounts⟩ := h
    refine ⟨hlength ▸ htwo, counts, hlength, Scale.weights_ofCounts hcounts, ?_,
      Scale.denotes_total_ofCounts hcounts⟩
    intro count hcount
    obtain ⟨hlow, hhigh⟩ := hcounts.1 count hcount
    exact ⟨hlow, hhigh, Double.denotes_ofNat (by omega)⟩

end Recipe

namespace Lexicon

open Recipe

section Tasks

variable {lexicon : Lexicon} {main : Text} {origin : Origin} {text : Text}

theorem Bounded.utf8Length_lt_of_mem_tasks (hsize : lexicon.Bounded)
    (hmain : main.utf8Length < sizeLimit) (htask : (origin, text) ∈ lexicon.tasks main) :
    text.utf8Length < sizeLimit := by
  rcases mem_tasks.mp htask with ⟨shortcut, -, ht⟩ | ⟨shortcut, -, ht⟩ | ⟨-, rfl⟩
  · exact hsize shortcut text (get?_primitives_eq_some_iff.mp ht).1
  · exact hsize shortcut text (get?_complexes_eq_some_iff.mp ht).1
  · exact hmain

-- What a text of an accepted lexicon may refer to is proper everywhere.
theorem Bounded.everywhere_proper_context (hsize : lexicon.Bounded) {recipe : Recipe}
    (h : (lexicon.compile main).result = .ok recipe) (htask : (origin, text) ∈ lexicon.tasks main) :
    ∀ shortcut known, (lexicon.context origin).recipes.get? shortcut = some known →
      known.Everywhere (Proper sizeLimit) := by
  obtain ⟨primitives, recipes, hprimitives, hcomplexes, -⟩ := exists_rounds h
  rcases mem_tasks.mp htask with ⟨shortcut, rfl, ht⟩ | ⟨shortcut, rfl, ht⟩ | ⟨rfl, -⟩
  · rw [context_of_primitive ht]
    exact nofun
  · rw [context_of_complex ht, ← hprimitives.eq_learn]
    exact everywhere_proper_primitives (Nat.le_refl sizeLimit) hsize hprimitives
  · rw [context_main hprimitives hcomplexes]
    exact everywhere_proper_recipes (Nat.le_refl sizeLimit) hsize hprimitives hcomplexes

-- Each text of an accepted lexicon is compiled to a recipe in normal form.
theorem Bounded.everywhere_reduced_of_mem_tasks (hsize : lexicon.Bounded)
    (hmain : main.utf8Length < sizeLimit) {recipe compiled : Recipe}
    (h : (lexicon.compile main).result = .ok recipe)
    (htask : (origin, text) ∈ lexicon.tasks main)
    (hcompiled : (Recipe.compile (lexicon.context origin) text).result = .ok compiled) :
    compiled.Everywhere Reduced := by
  have hknown := hsize.everywhere_proper_context h htask
  have hshort := hsize.utf8Length_lt_of_mem_tasks hmain htask
  exact Everywhere.imp (fun _ => Proper.reduced) compiled
    (everywhere_compile hknown (Nat.le_refl sizeLimit) hshort hcompiled)

-- If no character offers a choice, words are made without a call to a source.
theorem Bounded.fixed_of_mem_tasks (hsize : lexicon.Bounded)
    (hmain : main.utf8Length < sizeLimit) {compiled : Recipe}
    (htask : (origin, text) ∈ lexicon.tasks main)
    (hcompiled : (Recipe.compile (lexicon.context origin) text).result = .ok compiled)
    (hunquoted : ∀ c ∈ text.unquoted, ¬OffersChoice c) :
    compiled.Everywhere Fixed ∧
      ∀ (σ : Type) [Source σ] (source : σ), (compiled.sample source).2 = source := by
  have hshort := hsize.utf8Length_lt_of_mem_tasks hmain htask
  have hfixed := everywhere_fixed_compile hshort hunquoted hcompiled
  exact ⟨hfixed, fun σ _ source => appendTo_of_fixed #[] source compiled hfixed⟩

theorem Bounded.exists_reduced_of_mem_tasks (hsize : lexicon.Bounded)
    (hmain : main.utf8Length < sizeLimit) {recipe : Recipe}
    (h : (lexicon.compile main).result = .ok recipe)
    (htask : (origin, text) ∈ lexicon.tasks main) :
    ∃ compiled, (Recipe.compile (lexicon.context origin) text).result = .ok compiled ∧
      compiled.Everywhere Reduced ∧
      ((∀ c ∈ text.unquoted, ¬OffersChoice c) →
        compiled.Everywhere Fixed ∧
          ∀ (σ : Type) [Source σ] (source : σ), (compiled.sample source).2 = source) := by
  obtain ⟨compiled, hcompiled⟩ := exists_compile_of_mem_tasks h htask
  exact ⟨compiled, hcompiled, hsize.everywhere_reduced_of_mem_tasks hmain h htask hcompiled,
    hsize.fixed_of_mem_tasks hmain htask hcompiled⟩

end Tasks

-- Each text of an accepted lexicon is compiled to a recipe in normal form, with what it
-- refers to. Without a character that offers a choice there is no call to a source.
theorem compile_normal_form (lexicon : Lexicon) (main : Text) (hsize : lexicon.Bounded)
    (hmain : main.utf8Length < sizeLimit) (recipe : Recipe)
    (h : (lexicon.compile main).result = .ok recipe) :
    recipe.Everywhere Reduced ∧
      (Recipe.compile (lexicon.context .main) main).result = .ok recipe ∧
      ∀ origin text, (origin, text) ∈ lexicon.tasks main →
        ∃ compiled, (Recipe.compile (lexicon.context origin) text).result = .ok compiled ∧
          compiled.Everywhere Reduced ∧
          ((∀ c ∈ text.unquoted, ¬OffersChoice c) →
            compiled.Everywhere Fixed ∧
              ∀ (σ : Type) [Source σ] (source : σ), (compiled.sample source).2 = source) := by
  have hroot := compile_context_main h
  have htask : (.main, main) ∈ lexicon.tasks main := mem_tasks.mpr (.inr (.inr ⟨rfl, rfl⟩))
  exact ⟨hsize.everywhere_reduced_of_mem_tasks hmain h htask hroot, hroot,
    fun _ _ htask => hsize.exists_reduced_of_mem_tasks hmain h htask⟩

-- A subpattern with a slash in quotes only, and a main pattern with weights.
def linkLexicon : Lexicon where
  texts.get? shortcut :=
    match shortcut.toChar with
    | 'A' => some "k[a\"/\"]".toList
    | _ => none

def linkPart : Recipe :=
  .sequence [.literal ['k'], .sequence [.literal ['a'], .literal ['/']]]

def linkRecipe : Recipe :=
  .sequence [linkPart, .weighted (Scale.ofCounts [2, 1, 1]) [.literal ['b'], linkPart, .literal []]]

theorem compile_link :
    (linkLexicon.compile "A(b*2/A)".toList).result = .ok linkRecipe := by
  have hpartSize : Text.utf8Length "k[a\"/\"]".toList < sizeLimit := by decide
  have hpart := result_compile_of_ok rfl hpartSize ⟨.empty, .subpattern ⟨0⟩⟩
  have hprimitives : (compileAll true .empty linkLexicon.primitives.entries .empty).result =
      .ok (ShortcutMap.empty.insert ⟨0⟩ linkPart) := by
    have hentries : linkLexicon.primitives.entries = [(⟨0⟩, "k[a\"/\"]".toList)] := rfl
    rw [hentries, result_compileAll_cons, hpart]
    rfl
  have hmainSize : Text.utf8Length "A(b*2/A)".toList < sizeLimit := by decide
  have hmain := result_compile_of_ok rfl hmainSize ⟨ShortcutMap.empty.insert ⟨0⟩ linkPart, .main⟩
  rw [result_compile, hprimitives]
  exact hmain

theorem compile_normal_form_link :
    (linkLexicon.compile "A(b*2/A)".toList).result = .ok linkRecipe ∧
      linkRecipe.Everywhere Reduced ∧
      ∀ (σ : Type) [Source σ] (source : σ), (linkPart.sample source).2 = source := by
  have hsize : linkLexicon.Bounded := by
    intro shortcut text ht
    simp only [linkLexicon] at ht
    split at ht <;> cases ht
    decide
  obtain ⟨hreduced, -, htasks⟩ := compile_normal_form linkLexicon "A(b*2/A)".toList hsize
    (by decide) linkRecipe compile_link
  have htask : (Origin.subpattern ⟨0⟩, "k[a\"/\"]".toList) ∈
      linkLexicon.tasks "A(b*2/A)".toList :=
    mem_tasks.mpr (.inl ⟨⟨0⟩, rfl, rfl⟩)
  obtain ⟨compiled, hcompiled, -, hfixed⟩ := htasks _ _ htask
  obtain rfl : compiled = linkPart := Except.ok.inj (hcompiled.symm.trans rfl)
  have hunquoted : ∀ c ∈ Text.unquoted "k[a\"/\"]".toList, ¬OffersChoice c := by
    have htext : Text.unquoted "k[a\"/\"]".toList = ['k', '[', 'a', ']'] := rfl
    simp only [htext, List.forall_mem_cons]
    exact ⟨by decide, by decide, by decide, by decide, List.forall_mem_nil _⟩
  exact ⟨compile_link, hreduced, (hfixed hunquoted).2⟩

end Lexicon

end Coinage
