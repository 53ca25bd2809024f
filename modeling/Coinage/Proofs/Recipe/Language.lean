import Coinage.Recipe.Sample
import Coinage.Source.SplitMix
import Mathlib

namespace Coinage.Recipe

mutual

-- The words that a recipe can make: a fixed text, words of the parts one after
-- the other, or a word of any alternative, whatever its weight.
def language : Recipe → Language Char
  | literal text => {text}
  | sequence parts => inOrder parts
  | uniform choices => anyOf choices
  | weighted _ choices => anyOf choices

def inOrder : List Recipe → Language Char
  | [] => 1
  | part :: parts => part.language * inOrder parts

def anyOf : List Recipe → Language Char
  | [] => 0
  | choice :: choices => choice.language + anyOf choices

end

mutual

-- A condition on a recipe and on all recipes in it.
def Everywhere (condition : Recipe → Prop) : Recipe → Prop
  | literal text => condition (literal text)
  | sequence parts => condition (sequence parts) ∧ EverywhereIn condition parts
  | uniform choices => condition (uniform choices) ∧ EverywhereIn condition choices
  | weighted scale choices => condition (weighted scale choices) ∧ EverywhereIn condition choices

def EverywhereIn (condition : Recipe → Prop) : List Recipe → Prop
  | [] => True
  | recipe :: recipes => recipe.Everywhere condition ∧ EverywhereIn condition recipes

end

-- If a recipe is a choice, every source picks one of the alternatives.
def Decides : Recipe → Prop
  | uniform choices =>
    choices ≠ [] ∧ ∀ (σ : Type) [Source σ] (source : σ),
      (Source.index choices.length source).1 < choices.length
  | weighted scale choices =>
    ∀ (σ : Type) [Source σ] (source : σ),
      ∃ position, position < choices.length ∧ (scale.draw source).1 = some position
  | _ => True

-- If a recipe is a choice, every alternative is picked by a script that is used
-- up then.
def Reaches : Recipe → Prop
  | uniform choices =>
    ∀ position, position < choices.length → ∃ words, ∀ rest fallback,
      Source.index choices.length (⟨words ++ rest, fallback⟩ : Scripted) =
        (position, ⟨rest, fallback⟩)
  | weighted scale choices =>
    ∀ position, position < choices.length → ∃ words, ∀ rest fallback,
      scale.draw (⟨words ++ rest, fallback⟩ : Scripted) = (some position, ⟨rest, fallback⟩)
  | _ => True

section Conditions

variable {first second : Recipe → Prop}

mutual

theorem Everywhere.imp (himp : ∀ recipe, first recipe → second recipe) :
    (recipe : Recipe) → recipe.Everywhere first → recipe.Everywhere second
  | literal _, h => himp _ h
  | sequence parts, h => ⟨himp _ h.1, EverywhereIn.imp himp parts h.2⟩
  | uniform choices, h => ⟨himp _ h.1, EverywhereIn.imp himp choices h.2⟩
  | weighted _ choices, h => ⟨himp _ h.1, EverywhereIn.imp himp choices h.2⟩

theorem EverywhereIn.imp (himp : ∀ recipe, first recipe → second recipe) :
    (recipes : List Recipe) → EverywhereIn first recipes → EverywhereIn second recipes
  | [], _ => trivial
  | recipe :: recipes, h => ⟨Everywhere.imp himp recipe h.1, EverywhereIn.imp himp recipes h.2⟩

end

end Conditions

section Soundness

variable {σ : Type} [Source σ]

mutual

theorem exists_appendTo (buffer : Array Char) (source : σ) :
    (recipe : Recipe) → recipe.Everywhere Decides → ∃ word, word ∈ recipe.language ∧
      (recipe.appendTo buffer source).1.toList = buffer.toList ++ word
  | literal text, _ => ⟨text, Set.mem_singleton text, Array.toList_appendList⟩
  | sequence parts, h => exists_appendAll buffer source parts h.2
  | uniform choices, ⟨⟨hne, hindex⟩, hchoices⟩ => by
    have hempty : ¬choices.isEmpty := by rwa [List.isEmpty_iff]
    rw [appendTo, if_neg hempty]
    exact exists_appendNth buffer _ choices hchoices _ (hindex σ source)
  | weighted scale choices, ⟨hdraw, hchoices⟩ => by
    obtain ⟨position, hposition, hsome⟩ := hdraw σ source
    rw [appendTo, show scale.draw source = (some position, (scale.draw source).2) from
      Prod.ext hsome rfl]
    exact exists_appendNth buffer _ choices hchoices position hposition

theorem exists_appendAll (buffer : Array Char) (source : σ) :
    (parts : List Recipe) → EverywhereIn Decides parts → ∃ word, word ∈ inOrder parts ∧
      (appendAll buffer source parts).1.toList = buffer.toList ++ word
  | [], _ => ⟨[], Language.nil_mem_one, (List.append_nil _).symm⟩
  | part :: parts, h => by
    obtain ⟨word, hword, hpart⟩ := exists_appendTo buffer source part h.1
    obtain ⟨words, hwords, hparts⟩ := exists_appendAll (part.appendTo buffer source).1
      (part.appendTo buffer source).2 parts h.2
    refine ⟨word ++ words, Language.append_mem_mul hword hwords, ?_⟩
    rw [← List.append_assoc, ← hpart]
    exact hparts

theorem exists_appendNth (buffer : Array Char) (source : σ) :
    (choices : List Recipe) → EverywhereIn Decides choices → (position : ℕ) →
      position < choices.length → ∃ word, word ∈ anyOf choices ∧
        (appendNth buffer source position choices).1.toList = buffer.toList ++ word
  | [], _, position, hposition => absurd hposition (Nat.not_lt_zero position)
  | choice :: _, h, 0, _ => by
    obtain ⟨word, hword, hchoice⟩ := exists_appendTo buffer source choice h.1
    exact ⟨word, Or.inl hword, hchoice⟩
  | _ :: choices, h, position + 1, hposition => by
    obtain ⟨word, hword, hchoices⟩ := exists_appendNth buffer source choices h.2 position
      (Nat.lt_of_succ_lt_succ hposition)
    exact ⟨word, Or.inr hword, hchoices⟩

end

-- Whatever the source, a sample is a word of the language.
theorem mem_language_sample {recipe : Recipe} (h : recipe.Everywhere Decides) (source : σ) :
    (recipe.sample source).1 ∈ recipe.language := by
  obtain ⟨word, hword, hsample⟩ := exists_appendTo #[] source recipe h
  have hresult : (recipe.sample source).1 = word := hsample
  rwa [hresult]

end Soundness

theorem appendList_append (buffer : Array Char) (first second : List Char) :
    buffer ++ (first ++ second) = buffer ++ first ++ second := by
  apply Array.toList_inj.mp
  simp

-- A step that takes the given words from a script and appends a text.
def Spends (words : List UInt64) (text : Text)
    (step : Array Char → Scripted → Array Char × Scripted) : Prop :=
  ∀ buffer rest fallback,
    step buffer ⟨words ++ rest, fallback⟩ = (buffer ++ text, ⟨rest, fallback⟩)

section Completeness

mutual

theorem exists_spends_appendTo :
    (recipe : Recipe) → recipe.Everywhere Reaches → (text : Text) → text ∈ recipe.language →
      ∃ words, Spends words text fun buffer source => recipe.appendTo buffer source
  | literal _, _, _, rfl => ⟨[], fun _ _ _ => rfl⟩
  | sequence parts, h, text, htext => exists_spends_appendAll parts h.2 text htext
  | uniform choices, ⟨hreach, hchoices⟩, text, htext => by
    obtain ⟨position, hposition, words, hwords⟩ :=
      exists_spends_appendNth choices hchoices text htext
    obtain ⟨draws, hdraws⟩ := hreach position hposition
    refine ⟨draws ++ words, fun buffer rest fallback => ?_⟩
    have hempty : ¬choices.isEmpty := by
      rw [List.isEmpty_iff]
      exact List.ne_nil_of_length_pos (Nat.zero_lt_of_lt hposition)
    simp only [appendTo, if_neg hempty, List.append_assoc, hdraws]
    exact hwords buffer rest fallback
  | weighted scale choices, ⟨hreach, hchoices⟩, text, htext => by
    obtain ⟨position, hposition, words, hwords⟩ :=
      exists_spends_appendNth choices hchoices text htext
    obtain ⟨draws, hdraws⟩ := hreach position hposition
    refine ⟨draws ++ words, fun buffer rest fallback => ?_⟩
    simp only [appendTo, List.append_assoc, hdraws]
    exact hwords buffer rest fallback

theorem exists_spends_appendAll :
    (parts : List Recipe) → EverywhereIn Reaches parts → (text : Text) → text ∈ inOrder parts →
      ∃ words, Spends words text fun buffer source => appendAll buffer source parts
  | [], _, _, rfl => ⟨[], fun _ _ _ => rfl⟩
  | part :: parts, h, _, ⟨front, hfront, back, hback, rfl⟩ => by
    obtain ⟨first, hfirst⟩ := exists_spends_appendTo part h.1 front hfront
    obtain ⟨second, hsecond⟩ := exists_spends_appendAll parts h.2 back hback
    refine ⟨first ++ second, fun buffer rest fallback => ?_⟩
    have hpart := hfirst buffer (second ++ rest) fallback
    have hparts := hsecond (buffer ++ front) rest fallback
    simp only [appendAll, List.append_assoc, hpart, hparts]
    rw [appendList_append]

theorem exists_spends_appendNth :
    (choices : List Recipe) → EverywhereIn Reaches choices → (text : Text) →
      text ∈ anyOf choices → ∃ position, position < choices.length ∧
        ∃ words, Spends words text fun buffer source => appendNth buffer source position choices
  | [], _, _, htext => absurd htext (Language.notMem_zero _)
  | choice :: choices, h, text, Or.inl htext => by
    obtain ⟨words, hwords⟩ := exists_spends_appendTo choice h.1 text htext
    exact ⟨0, Nat.zero_lt_succ _, words, hwords⟩
  | choice :: choices, h, text, Or.inr htext => by
    obtain ⟨position, hposition, words, hwords⟩ := exists_spends_appendNth choices h.2 text htext
    exact ⟨position + 1, Nat.succ_lt_succ hposition, words, hwords⟩

end

-- Each word of the language is a sample for some source.
theorem exists_sample_eq {recipe : Recipe} (h : recipe.Everywhere Reaches) {word : Text}
    (hword : word ∈ recipe.language) : ∃ source : Scripted, (recipe.sample source).1 = word := by
  obtain ⟨words, hwords⟩ := exists_spends_appendTo recipe h word hword
  have happend := hwords #[] [] ⟨0⟩
  refine ⟨⟨words ++ [], ⟨0⟩⟩, ?_⟩
  simp only [sample, happend]
  simp

end Completeness

end Coinage.Recipe
