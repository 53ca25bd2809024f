import Coinage.Proofs.Pattern.Breadth
import Coinage.Proofs.Scale.Counts
import Coinage.Recipe.Compile

namespace Coinage

-- The number that a suffix writes in decimal, kept between 1 and 128. Without
-- digits it is 1.
def suffixValue : Option Text → Nat
  | none => 1
  | some [] => 1
  | some digits =>
    max 1 (min 128 (Nat.ofDigits 10 (digits.map fun c => c.toNat - '0'.toNat).reverse))

theorem suffixValue_bounds (suffix : Option Text) :
    1 ≤ suffixValue suffix ∧ suffixValue suffix ≤ 128 := by
  unfold suffixValue
  split <;> omega

theorem Text.digitsValue_eq (digits : Text) :
    digits.digitsValue = Nat.ofDigits 10 (digits.map fun c => c.toNat - '0'.toNat).reverse := by
  induction digits using List.reverseRecOn with
  | nil => rfl
  | append_singleton digits c ih =>
    have hstep : Text.digitsValue (digits ++ [c]) =
        10 * Text.digitsValue digits + (c.toNat - '0'.toNat) := by
      simp [Text.digitsValue, List.foldl_append]
    rw [hstep, ih, List.map_append, List.reverse_append, List.map_singleton,
      List.reverse_singleton, List.singleton_append, Nat.ofDigits_cons, Nat.add_comm]

theorem Pattern.weight_eq_suffixValue : (suffix : Option Text) → weight suffix = suffixValue suffix
  | none => rfl
  | some [] => rfl
  | some (c :: digits) => by
    have hvalue := Text.digitsValue_eq (c :: digits)
    simp only [weight, suffixValue, greatestWeight, leastWeight]
    omega

namespace Recipe

-- The weights of the alternatives of a group. The empty alternative of an
-- optional group has the weight 1.
def counts (optional : Bool) (suffixes : List (Option Text)) : List Nat :=
  suffixes.map suffixValue ++ if optional then [1] else []

theorem weights_eq (optional : Bool) (suffixes : List (Option Text)) :
    weights optional suffixes = (counts optional suffixes).map Float.ofNat := by
  rw [weights, counts, funext Pattern.weight_eq_suffixValue, Pattern.unstatedWeight]

theorem length_counts_le (optional : Bool) (suffixes : List (Option Text)) :
    (counts optional suffixes).length ≤ suffixes.length + 1 := by
  cases optional <;> simp [counts]

-- So few alternatives have weights whose sums are exact.
theorem countable_counts (optional : Bool) {suffixes : List (Option Text)}
    (h : suffixes.length < sizeLimit) : Scale.Countable 0 (counts optional suffixes) := by
  constructor
  · intro count hcount
    rcases List.mem_append.mp hcount with hstated | hempty
    · obtain ⟨suffix, -, rfl⟩ := List.mem_map.mp hstated
      exact suffixValue_bounds suffix
    · by_cases ho : optional
      · rw [if_pos ho, List.mem_singleton] at hempty
        omega
      · rw [if_neg ho] at hempty
        exact absurd hempty List.not_mem_nil
  · have hlength := length_counts_le optional suffixes
    simp only [sizeLimit] at h
    omega

-- A choice between the alternatives of a group. An optional group adds the
-- empty text, and a mandatory group with one alternative leaves no choice.
def choice (optional : Bool) (suffixes : List (Option Text)) (recipes : List Recipe) : Recipe :=
  match recipes, optional with
  | [], _ => .literal []
  | [recipe], false => recipe
  | recipes, optional =>
    let choices := recipes ++ if optional then [.literal []] else []
    if suffixes.any Option.isSome then
      .weighted (Scale.ofCounts (counts optional suffixes)) choices
    else
      .uniform choices

theorem ofAlternatives_eq (optional : Bool) {suffixes : List (Option Text)}
    (h : suffixes.length < sizeLimit) (recipes : List Recipe) :
    ofAlternatives optional suffixes recipes = .ok (choice optional suffixes recipes) := by
  have hscale : (weights optional suffixes).foldlM Scale.add Scale.empty =
      .ok (Scale.ofCounts (counts optional suffixes)) := by
    rw [weights_eq]
    exact Scale.foldlM_add_empty (countable_counts optional h)
  unfold ofAlternatives choice
  split
  · rfl
  · rfl
  · rw [hscale]
    by_cases hweighted : suffixes.any Option.isSome
    · simp only [if_pos hweighted, Except.map]
    · simp only [if_neg hweighted]

end Recipe

mutual

-- The recipes of the alternatives when each letter stands for a recipe.
def Pattern.trees (find : Shortcut → Recipe) : Pattern → List Recipe
  | .nil => []
  | .cons body _ rest => Recipe.ofParts (body.trees find) :: rest.trees find

def Body.trees (find : Shortcut → Recipe) : Body → List Recipe
  | .nil => []
  | .plain run rest => .literal run :: rest.trees find
  | .quoted text rest => .literal text :: rest.trees find
  | .letter shortcut rest => find shortcut :: rest.trees find
  | .group bracket interior rest =>
    Recipe.choice bracket.optional interior.suffixes (interior.trees find) :: rest.trees find

end

-- The recipe that a pattern means.
def Pattern.tree (find : Shortcut → Recipe) (pattern : Pattern) : Recipe :=
  .choice false pattern.suffixes (pattern.trees find)

end Coinage
