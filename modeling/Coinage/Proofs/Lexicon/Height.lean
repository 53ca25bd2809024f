import Coinage.Proofs.Lexicon.Transcript
import Coinage.Proofs.Recipe.Height

namespace Coinage.Lexicon

-- What may be referred to after a round is no higher than what was known before
-- and what the texts of the round are compiled to.
theorem Round.height_le {texts : ShortcutMap Text} {known learned : ShortcutMap Recipe}
    (h : Round texts known learned) {bound limit : Nat}
    (hletters : ∀ shortcut text, texts.get? shortcut = some text →
      Context.Bounds ⟨known, .subpattern shortcut⟩ text.letters bound)
    (hknown : ∀ shortcut recipe, known.get? shortcut = some recipe → recipe.height ≤ limit)
    (hlimit : 2 * (depthLimit + 1) + bound ≤ limit) :
    ∀ shortcut recipe, learned.get? shortcut = some recipe → recipe.height ≤ limit :=
  h.forall_learned hknown fun shortcut text _ ht hcompiled =>
    (Recipe.height_compile_le (hletters shortcut text ht) hcompiled).trans hlimit

variable {lexicon : Lexicon} {primitives recipes : ShortcutMap Recipe}

-- A primitive subpattern refers to nothing.
theorem bounds_of_primitive {shortcut : Shortcut} {text : Text} {context : Context}
    (h : lexicon.primitives.get? shortcut = some text) : context.Bounds text.letters 0 := by
  rw [letters_of_primitive h]
  exact List.forall_mem_nil _

theorem height_primitives (h : Round lexicon.primitives .empty primitives) :
    ∀ shortcut recipe, primitives.get? shortcut = some recipe → recipe.height ≤ 130 :=
  h.height_le (fun _ _ => bounds_of_primitive) nofun (by decide)

theorem height_recipes (hprimitives : Round lexicon.primitives .empty primitives)
    (hcomplexes : Round lexicon.complexes primitives recipes) :
    ∀ shortcut recipe, recipes.get? shortcut = some recipe → recipe.height ≤ 260 := by
  have hknown := height_primitives hprimitives
  have hletters : ∀ shortcut text, lexicon.complexes.get? shortcut = some text →
      Context.Bounds ⟨primitives, .subpattern shortcut⟩ text.letters 130 :=
    fun _ _ _ letter _ => hknown letter
  refine hcomplexes.height_le hletters (fun shortcut recipe hrecipe => ?_) (by decide)
  exact (hknown shortcut recipe hrecipe).trans (by decide)

section Accepted

variable {main : Text} {recipe : Recipe} (h : (lexicon.compile main).result = .ok recipe)
include h

theorem bounds_of_complex {shortcut : Shortcut} {text : Text}
    (ht : lexicon.complexes.get? shortcut = some text) :
    (lexicon.context (.subpattern shortcut)).Bounds text.letters 130 := by
  obtain ⟨primitives, -, hprimitives, -⟩ := exists_rounds h
  rw [context_of_complex ht, ← hprimitives.eq_learn]
  exact fun letter _ => height_primitives hprimitives letter

theorem bounds_main : (lexicon.context .main).Bounds main.letters 260 := by
  obtain ⟨primitives, recipes, hprimitives, hcomplexes, -⟩ := exists_rounds h
  rw [context_main hprimitives hcomplexes]
  exact fun letter _ => height_recipes hprimitives hcomplexes letter

theorem compile_context_main :
    (Recipe.compile (lexicon.context .main) main).result = .ok recipe := by
  obtain ⟨primitives, recipes, hprimitives, hcomplexes, hmain⟩ := exists_rounds h
  rw [context_main hprimitives hcomplexes]
  exact hmain

-- No text is left uncompiled, whether the main pattern refers to it or not.
theorem exists_compile_of_mem_tasks {origin : Origin} {text : Text}
    (htask : (origin, text) ∈ lexicon.tasks main) :
    ∃ compiled, (Recipe.compile (lexicon.context origin) text).result = .ok compiled := by
  obtain ⟨primitives, recipes, hprimitives, hcomplexes, -⟩ := exists_rounds h
  rcases mem_tasks.mp htask with ⟨shortcut, rfl, ht⟩ | ⟨shortcut, rfl, ht⟩ | ⟨rfl, rfl⟩
  · obtain ⟨compiled, hcompiled, -⟩ := hprimitives.compiled shortcut text ht
    rw [context_of_primitive ht]
    exact ⟨compiled, hcompiled⟩
  · obtain ⟨compiled, hcompiled, -⟩ := hcomplexes.compiled shortcut text ht
    rw [context_of_complex ht, ← hprimitives.eq_learn]
    exact ⟨compiled, hcompiled⟩
  · exact ⟨recipe, compile_context_main h⟩

theorem exists_height_le_of_mem_tasks {origin : Origin} {text : Text}
    (htask : (origin, text) ∈ lexicon.tasks main) :
    ∃ compiled, (Recipe.compile (lexicon.context origin) text).result = .ok compiled ∧
      ∀ bound, (lexicon.context origin).Bounds text.letters bound →
        compiled.height ≤ 2 * (text.nesting + 1) + bound := by
  obtain ⟨compiled, hcompiled⟩ := exists_compile_of_mem_tasks h htask
  exact ⟨compiled, hcompiled, fun bound hbound => Recipe.height_compile hbound hcompiled⟩

theorem exists_height_le_of_primitive {shortcut : Shortcut} {text : Text}
    (ht : lexicon.primitives.get? shortcut = some text) :
    ∃ compiled,
      (Recipe.compile (lexicon.context (.subpattern shortcut)) text).result = .ok compiled ∧
        compiled.height ≤ 130 := by
  obtain ⟨compiled, hcompiled⟩ :=
    exists_compile_of_mem_tasks h (mem_tasks.mpr (.inl ⟨shortcut, rfl, ht⟩))
  exact ⟨compiled, hcompiled, Recipe.height_compile_le (bounds_of_primitive ht) hcompiled⟩

theorem exists_height_le_of_complex {shortcut : Shortcut} {text : Text}
    (ht : lexicon.complexes.get? shortcut = some text) :
    ∃ compiled,
      (Recipe.compile (lexicon.context (.subpattern shortcut)) text).result = .ok compiled ∧
        compiled.height ≤ 260 := by
  obtain ⟨compiled, hcompiled⟩ :=
    exists_compile_of_mem_tasks h (mem_tasks.mpr (.inr (.inl ⟨shortcut, rfl, ht⟩)))
  exact ⟨compiled, hcompiled, Recipe.height_compile_le (bounds_of_complex h ht) hcompiled⟩

theorem height_main : recipe.height ≤ 390 :=
  Recipe.height_compile_le (bounds_main h) (compile_context_main h)

end Accepted

-- Recipes are as high as groups nest, in the text itself and in what it refers to.
-- References go at most two steps, from the main pattern to a complex subpattern
-- and from there to a primitive one.
theorem compile_height (lexicon : Lexicon) (main : Text) (recipe : Recipe)
    (h : (lexicon.compile main).result = .ok recipe) :
    (∀ origin text, (origin, text) ∈ lexicon.tasks main →
      ∃ compiled, (Recipe.compile (lexicon.context origin) text).result = .ok compiled ∧
        ∀ bound, (lexicon.context origin).Bounds text.letters bound →
          compiled.height ≤ 2 * (text.nesting + 1) + bound) ∧
      (∀ shortcut text, lexicon.primitives.get? shortcut = some text →
        ∃ compiled,
          (Recipe.compile (lexicon.context (.subpattern shortcut)) text).result = .ok compiled ∧
          compiled.height ≤ 130) ∧
      (∀ shortcut text, lexicon.complexes.get? shortcut = some text →
        ∃ compiled,
          (Recipe.compile (lexicon.context (.subpattern shortcut)) text).result = .ok compiled ∧
          compiled.height ≤ 260) ∧
      (Recipe.compile (lexicon.context .main) main).result = .ok recipe ∧
      recipe.height ≤ 390 := by
  exact ⟨fun _ _ => exists_height_le_of_mem_tasks h, fun _ _ => exists_height_le_of_primitive h,
    fun _ _ => exists_height_le_of_complex h, compile_context_main h, height_main h⟩

-- Groups in groups, in the main pattern and at each step of a reference.
def deepLexicon : Lexicon where
  texts.get? shortcut :=
    match shortcut.toChar with
    | 'A' => some "((a/b)/c)".toList
    | 'B' => some "[x/(A)]".toList
    | _ => none

def deepPrimitive : Recipe :=
  .uniform [.uniform [.literal ['a'], .literal ['b'], .literal []], .literal ['c'], .literal []]

def deepComplex : Recipe :=
  .uniform [.literal ['x'], .uniform [deepPrimitive, .literal []]]

def deepRecipe : Recipe :=
  .uniform [deepComplex, deepPrimitive, .literal []]

theorem compile_height_deep :
    (deepLexicon.compile "(B/A)".toList).result = .ok deepRecipe ∧
      deepRecipe.height ≤ 2 * (1 + 1) + 4 := by
  have hcompile : (deepLexicon.compile "(B/A)".toList).result = .ok deepRecipe := rfl
  have hheight := compile_height deepLexicon "(B/A)".toList deepRecipe hcompile
  obtain ⟨compiled, hcompiled, hbounds⟩ :=
    hheight.1 .main "(B/A)".toList (mem_tasks.mpr (.inr (.inr ⟨rfl, rfl⟩)))
  obtain rfl : compiled = deepRecipe := Except.ok.inj (hcompiled.symm.trans hheight.2.2.2.1)
  have hletters : Text.letters "(B/A)".toList = [⟨1⟩, ⟨0⟩] := rfl
  have hnesting : Text.nesting "(B/A)".toList = 1 := rfl
  have hcomplex : (deepLexicon.context .main).recipes.get? ⟨1⟩ = some deepComplex := rfl
  have hprimitive : (deepLexicon.context .main).recipes.get? ⟨0⟩ = some deepPrimitive := rfl
  refine ⟨hcompile, hnesting ▸ hbounds 4 ?_⟩
  rw [hletters, Context.Bounds, List.forall_mem_cons, List.forall_mem_singleton, hcomplex,
    hprimitive]
  constructor
  · rintro referenced ⟨⟩
    decide
  · rintro referenced ⟨⟩
    decide

end Coinage.Lexicon
