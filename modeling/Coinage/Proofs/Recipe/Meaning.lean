import Coinage.Proofs.Pattern.RoundTrip
import Coinage.Proofs.Recipe.Outcome

namespace Coinage.Recipe

open Bracketed

-- What a canonical pattern renders as is compiled to the recipe that the pattern
-- means, and the scales in it give back the weights as they are written.
theorem compile_render (context : Context) {pattern : Pattern} (hc : pattern.Canonical)
    (hdepth : pattern.depth ≤ depthLimit) (hsize : pattern.render.utf8Length < sizeLimit)
    (hletters : ∀ shortcut ∈ pattern.letters, (context.recipes.get? shortcut).isSome) :
    (compile context pattern.render).result = .ok (pattern.tree context.known) ∧
      ∀ split ∈ pattern.splits,
        (Scale.ofCounts (counts split.1 split.2.suffixes)).weights =
          (counts split.1 split.2.suffixes).map Float.ofNat := by
  have hread := Pattern.read_render hc hdepth
  refine ⟨?_, ?_⟩
  · have hfound : ∀ shortcut ∈ pattern.render.letters,
        (context.recipes.get? shortcut).isSome := by
      rw [← Pattern.letters_of_read hread]
      exact hletters
    rw [result_compile_of_ok hread hsize, Context.resolve_of_forall_found hfound]
  · intro split hs
    have hlength := Pattern.narrow_splits_of_read hread hsize split hs
    exact Scale.weights_ofCounts (countable_counts split.1 hlength)

def nestedPattern : Pattern :=
  .cons (.plain ['a'] (.letter ⟨1⟩ .nil)) (some ['2'])
    (.cons (.group .round (.cons (.quoted "x/]".toList (.group .square
      (.cons (.plain ['c'] .nil) (some "300".toList) .nil) .nil)) (some []) .nil) .nil) none .nil)

def namedContext : Context where
  recipes.get? shortcut :=
    match shortcut.toChar with
    | 'B' => some (.uniform [.literal ['x'], .literal ['y']])
    | _ => none
  origin := .main

-- Quotations hide slashes and brackets, and a weight may be too large or missing.
theorem compile_render_nested :
    (compile namedContext "aB*2/(\"x/]\"[c*300]*)".toList).result =
      .ok (.weighted (Scale.ofCounts [2, 1])
        [.sequence [.literal ['a'], .uniform [.literal ['x'], .literal ['y']]],
          .weighted (Scale.ofCounts [1, 1])
            [.sequence [.literal "x/]".toList, .literal ['c']], .literal []]]) := by
  have hc : nestedPattern.Canonical := by
    simp [nestedPattern, Pattern.Canonical, Body.Canonical, IsPlain, marks, Shortcut.ofChar?]
  have hdepth : nestedPattern.depth ≤ depthLimit := by decide
  have hsize : nestedPattern.render.utf8Length < sizeLimit := by decide
  have hletters : ∀ shortcut ∈ nestedPattern.letters,
      (namedContext.recipes.get? shortcut).isSome := by
    simp [nestedPattern, namedContext, Shortcut.toChar]
  exact (compile_render namedContext hc hdepth hsize hletters).1

end Coinage.Recipe
