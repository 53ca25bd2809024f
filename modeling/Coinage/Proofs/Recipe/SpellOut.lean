import Coinage.Proofs.Pattern.SpellOut
import Coinage.Proofs.Recipe.Outcome

namespace Coinage

open Bracketed

section Offer

variable (context : Context)

-- The empty quotation at the end of a group is what an optional group offers.
theorem Pattern.result_recipes_append_emptyOffer (pattern : Pattern) :
    ((pattern.append .emptyOffer).recipes context).result =
      (pattern.recipes context).result.map (· ++ [.literal []]) := by
  cases pattern with
  | nil => rfl
  | cons body suffix rest =>
    rw [Pattern.append, Pattern.result_recipes_cons, Pattern.result_recipes_cons,
      Pattern.result_recipes_append_emptyOffer rest]
    cases (body.parts context).result with
    | error fault => rfl
    | ok parts => cases (rest.recipes context).result <;> rfl

-- The alternatives with the empty text at their end are what an optional group
-- makes of them, whether or not there are weights.
theorem Recipe.ofAlternatives_append_empty (suffixes : List (Option Text))
    (recipes : List Recipe) :
    ofAlternatives false (suffixes ++ [none]) (recipes ++ [.literal []]) =
      ofAlternatives true suffixes recipes := by
  have hweights : weights false (suffixes ++ [none]) = weights true suffixes := by
    simp [weights, Pattern.weight]
  cases recipes with
  | nil => rfl
  | cons recipe recipes =>
    have hmany : ∀ choices : List Recipe, choices ≠ [] →
        ofAlternatives false (suffixes ++ [none]) (recipe :: choices) =
          if suffixes.any Option.isSome then
            ((weights true suffixes).foldlM Scale.add Scale.empty).map fun scale =>
              .weighted scale (recipe :: choices)
          else
            .ok (.uniform (recipe :: choices)) := by
      rintro (_ | ⟨choice, choices⟩) hne
      · exact absurd rfl hne
      · simp [ofAlternatives, hweights]
    rw [List.cons_append, hmany _ (by simp)]
    simp [ofAlternatives]

theorem Pattern.outcome_append_emptyOffer (pattern : Pattern) :
    (pattern.append .emptyOffer).outcome context false = pattern.outcome context true := by
  rw [Pattern.outcome, Pattern.outcome, Pattern.result_recipes_append_emptyOffer,
    Pattern.suffixes_append]
  cases (pattern.recipes context).result with
  | error fault => rfl
  | ok recipes => exact Recipe.ofAlternatives_append_empty pattern.suffixes recipes

end Offer

section SpelledOut

variable {context : Context}

theorem Pattern.SpelledOut.outcome_eq (optional : Bool) {pattern other : Pattern}
    (h : pattern.SpelledOut other)
    (hrecipes : (other.recipes context).result = (pattern.recipes context).result) :
    other.outcome context optional = pattern.outcome context optional := by
  rw [Pattern.outcome, Pattern.outcome, hrecipes, h.suffixes_eq]

mutual

theorem Pattern.SpelledOut.result_recipes : {pattern other : Pattern} →
    pattern.SpelledOut other → (other.recipes context).result = (pattern.recipes context).result
  | _, _, .nil => rfl
  | _, _, .cons hbody hrest => by
    rw [Pattern.result_recipes_cons, Pattern.result_recipes_cons, hbody.result_parts,
      hrest.result_recipes]

theorem Body.SpelledOut.result_parts : {body other : Body} → body.SpelledOut other →
    (other.parts context).result = (body.parts context).result
  | _, _, .nil => rfl
  | _, _, .plain hrest => by
    rw [Body.result_parts_plain, Body.result_parts_plain, hrest.result_parts]
  | _, _, .quoted hrest => by
    rw [Body.result_parts_quoted, Body.result_parts_quoted, hrest.result_parts]
  | _, _, .letter hrest => by
    rw [Body.result_parts_letter, Body.result_parts_letter, hrest.result_parts]
  | _, _, .group hinterior hrest => by
    rw [Body.result_parts_group, Body.result_parts_group, hrest.result_parts,
      hinterior.outcome_eq _ hinterior.result_recipes]
  | _, _, .optional hinterior hrest => by
    rw [Body.result_parts_group, Body.result_parts_group, hrest.result_parts, Bracket.optional,
      Bracket.optional, Pattern.outcome_append_emptyOffer,
      hinterior.outcome_eq _ hinterior.result_recipes]

end

end SpelledOut

namespace Recipe

-- An optional group is a mandatory group that offers an empty quotation at its
-- end. Any of them can be written so, whatever they contain.
theorem compile_spellOut (context : Context) (chosen : Nat → Bool) {text : Text}
    (h : text.WellFormed) :
    (text.spellOut chosen).WellFormed ∧
      (compile context (text.spellOut chosen)).result = (compile context text).result := by
  obtain ⟨level, hread⟩ := h
  obtain ⟨hlegible, hdepth, rfl⟩ := Bracketed.read_eq_ok_iff.mp hread
  have hspelled : Bracketed.read (level.render.spellOut chosen) = .ok (level.spellOut chosen 0) := by
    rw [Bracketed.read_eq_ok_iff, depth_spellOut, Bracketed.spellOut_render chosen hlegible]
    exact ⟨hlegible.spellOut chosen 0, hdepth, rfl⟩
  refine ⟨⟨_, hspelled⟩, ?_⟩
  have hpattern := pattern_spellOut chosen level
  have houtcome : (level.spellOut chosen 0).pattern.outcome context false =
      level.pattern.outcome context false :=
    hpattern.outcome_eq false hpattern.result_recipes
  rw [compile, compile, Pattern.read, Pattern.read, hspelled, hread]
  exact ((Pattern.result_compile context _).trans houtcome).trans
    (Pattern.result_compile context _).symm

-- Nested optional groups, without an alternative, with one and with a weight.
theorem compile_spellOut_nested :
    Text.WellFormed "(*3(/))\"(\"(a)".toList ∧
      Text.spellOut (fun offset => offset != 10) "(*3(/))\"(\"(a)".toList =
        "[*3[//\"\"]/\"\"]\"(\"(a)".toList ∧
      (compile ⟨.empty, .main⟩ "[*3[//\"\"]/\"\"]\"(\"(a)".toList).result =
        (compile ⟨.empty, .main⟩ "(*3(/))\"(\"(a)".toList).result := by
  have h : Text.WellFormed "(*3(/))\"(\"(a)".toList := ⟨_, rfl⟩
  exact ⟨h, by decide, (compile_spellOut ⟨.empty, .main⟩ (fun offset => offset != 10) h).2⟩

end Recipe

end Coinage
