import Coinage.Proofs.Lexicon.Rounds
import Coinage.Proofs.Recipe.Expansion

namespace Coinage

open Bracketed

-- The levels of the texts that are matched.
def ShortcutMap.levels (texts : ShortcutMap Text) (shortcut : Shortcut) : Option Bracketed :=
  (texts.get? shortcut).bind fun text => (Bracketed.read text).toOption

theorem ShortcutMap.levels_eq_some_iff {texts : ShortcutMap Text} {shortcut : Shortcut}
    {level : Bracketed} :
    texts.levels shortcut = some level ↔
      ∃ text, texts.get? shortcut = some text ∧ Bracketed.read text = .ok level := by
  simp only [levels, Option.bind_eq_some_iff]
  refine exists_congr fun text => and_congr_right fun _ => ?_
  cases Bracketed.read text <;> simp [Except.toOption]

namespace Lexicon

section Round

variable {texts : ShortcutMap Text} {known learned : ShortcutMap Recipe}

theorem Round.levels_of_get? (h : Round texts known learned) {shortcut : Shortcut} {text : Text}
    (ht : texts.get? shortcut = some text) :
    ∃ level, texts.levels shortcut = some level ∧ level.render = text := by
  obtain ⟨recipe, hr, -⟩ := h.compiled shortcut text ht
  obtain ⟨level, hread, -⟩ := Recipe.compile_eq_ok hr
  obtain ⟨-, -, hrender⟩ := Bracketed.read_eq_ok_iff.mp hread
  exact ⟨level, ShortcutMap.levels_eq_some_iff.mpr ⟨text, ht, hread⟩, hrender⟩

theorem Round.map_render_levels (h : Round texts known learned) (shortcut : Shortcut) :
    (texts.levels shortcut).map render = texts.get? shortcut := by
  cases ht : texts.get? shortcut with
  | none => simp [ShortcutMap.levels, ht]
  | some text =>
    obtain ⟨level, hlevel, hrender⟩ := h.levels_of_get? ht
    rw [hlevel, ← hrender]
    rfl

theorem legible_levels (shortcut : Shortcut) (level : Bracketed)
    (h : texts.levels shortcut = some level) : level.Legible := by
  obtain ⟨text, -, hread⟩ := ShortcutMap.levels_eq_some_iff.mp h
  exact (Bracketed.read_eq_ok_iff.mp hread).1

-- What a round adds are the recipes of the texts that letters give way to.
theorem Round.simulates (h : Round texts known learned) :
    Simulates ⟨learned, .main⟩ ⟨known, .main⟩
      fun shortcut => (texts.levels shortcut).map pattern where
  replaced shortcut definition hdefinition recipe hrecipe := by
    obtain ⟨level, hlevel, rfl⟩ := Option.map_eq_some_iff.mp hdefinition
    obtain ⟨text, ht, hread⟩ := ShortcutMap.levels_eq_some_iff.mp hlevel
    obtain ⟨other, hcompiled, hlearned⟩ := h.compiled shortcut text ht
    obtain ⟨again, hagain, houtcome⟩ := Recipe.compile_eq_ok hcompiled
    rw [hread] at hagain
    cases hagain
    rw [show other = recipe from Option.some.inj (hlearned.symm.trans hrecipe)] at houtcome
    exact Pattern.outcome_of_origin houtcome
  kept shortcut hnone := by
    refine (h.kept shortcut ?_).symm
    rw [← h.map_render_levels, Option.map_eq_none_iff.mp hnone]
    rfl

end Round

theorem result_compile_empty (main : Text) :
    (Lexicon.empty.compile main).result = (Recipe.compile ⟨.empty, .main⟩ main).result :=
  result_compile .empty main

theorem result_compile_expanded {lexicon : Lexicon} {main : Text} {recipe : Recipe}
    (h : (lexicon.compile main).result = .ok recipe)
    (hdepth : ((main.expand lexicon.complexes).expand lexicon.primitives).nesting ≤ depthLimit) :
    (Lexicon.empty.compile ((main.expand lexicon.complexes).expand lexicon.primitives)).result =
      .ok recipe := by
  obtain ⟨primitives, recipes, hprimitives, hcomplexes, hmain⟩ := exists_rounds h
  obtain ⟨level, hread, houtcome⟩ := Recipe.compile_eq_ok hmain
  obtain ⟨hlegible, -, hrender⟩ := Bracketed.read_eq_ok_iff.mp hread
  have hl : (level.expand lexicon.complexes.levels).Legible := hlegible.expand legible_levels
  have hfull : ((level.expand lexicon.complexes.levels).expand lexicon.primitives.levels).Legible :=
    hl.expand legible_levels
  have htext : (main.expand lexicon.complexes).expand lexicon.primitives =
      ((level.expand lexicon.complexes.levels).expand lexicon.primitives.levels).render := by
    rw [← hrender, expand_render hcomplexes.map_render_levels hlegible,
      expand_render hprimitives.map_render_levels hl]
  rw [htext, nesting_render hfull] at hdepth
  rw [htext, result_compile_empty]
  apply Recipe.compile_of_outcome (Bracketed.read_eq_ok_iff.mpr ⟨hfull, hdepth, rfl⟩)
  rw [pattern_expand, pattern_expand]
  exact hprimitives.simulates.outcome (hcomplexes.simulates.outcome houtcome)

-- A letter means its definition in square brackets: when all letters give way,
-- the same recipe comes out of a single text.
theorem compile_expand (lexicon : Lexicon) {main : Text} {recipe : Recipe}
    (h : (lexicon.compile main).result = .ok recipe)
    (hdepth : ((main.expand lexicon.complexes).expand lexicon.primitives).nesting ≤ depthLimit) :
    (Lexicon.empty.compile ((main.expand lexicon.complexes).expand lexicon.primitives)).result =
      .ok recipe :=
  result_compile_expanded h hdepth

-- A primitive and a complex subpattern, both with more than one alternative.
def nestedLexicon : Lexicon where
  texts.get? shortcut :=
    match shortcut.toChar with
    | 'A' => some "a/b".toList
    | 'B' => some "(A\"A\")x".toList
    | _ => none

def nestedRecipe : Recipe :=
  .uniform [.sequence [.sequence [.uniform [.sequence
    [.uniform [.literal ['a'], .literal ['b']], .literal ['A']], .literal []], .literal ['x']],
    .uniform [.literal ['a'], .literal ['b']]], .literal ['B']]

theorem compile_expand_nested :
    (nestedLexicon.compile "BA/\"B\"".toList).result = .ok nestedRecipe ∧
      (Lexicon.empty.compile "[([a/b]\"A\")x][a/b]/\"B\"".toList).result = .ok nestedRecipe := by
  have hcompile : (nestedLexicon.compile "BA/\"B\"".toList).result = .ok nestedRecipe := rfl
  exact ⟨hcompile, compile_expand nestedLexicon hcompile (by decide)⟩

end Lexicon

end Coinage
