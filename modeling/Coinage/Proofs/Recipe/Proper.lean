import Coinage.Proofs.Pattern.Normal
import Coinage.Proofs.Recipe.Expansion
import Coinage.Proofs.Recipe.Language

namespace Coinage

namespace Recipe

-- What compiled recipes have in common. No quote is in a literal, what stands in a
-- sequence does not stand alone, and a choice is one: it has at least two
-- alternatives, and no more than the limit. Weights are whole and small.
def Proper (limit : ℕ) : Recipe → Prop
  | literal text => '"' ∉ text
  | sequence parts => 2 ≤ parts.length
  | uniform choices => 2 ≤ choices.length ∧ choices.length ≤ limit
  | weighted scale choices =>
    ∃ counts, scale = Scale.ofCounts counts ∧ counts.length = choices.length ∧
      2 ≤ counts.length ∧ counts.length ≤ limit ∧ Scale.Countable 0 counts

theorem everywhereIn_append {condition : Recipe → Prop} {first second : List Recipe}
    (hfirst : EverywhereIn condition first) (hsecond : EverywhereIn condition second) :
    EverywhereIn condition (first ++ second) := by
  induction first with
  | nil => exact hsecond
  | cons recipe recipes ih => exact ⟨hfirst.1, ih hfirst.2⟩

theorem everywhere_of_mem {condition : Recipe → Prop} {recipes : List Recipe}
    (h : EverywhereIn condition recipes) : ∀ recipe ∈ recipes, recipe.Everywhere condition := by
  induction recipes with
  | nil => exact List.forall_mem_nil _
  | cons recipe recipes ih => exact List.forall_mem_cons.mpr ⟨h.1, ih h.2⟩

-- A condition holds of joined parts if it holds of each of them, of the empty text and,
-- with several parts, of their sequence.
theorem everywhere_ofParts_of {condition : Recipe → Prop} {parts : List Recipe}
    (h : EverywhereIn condition parts) (hempty : condition (literal []))
    (hsequence : 2 ≤ parts.length → condition (sequence parts)) :
    (ofParts parts).Everywhere condition := by
  unfold ofParts
  split
  · exact hempty
  · exact h.1
  · rename_i hnil hsingle
    refine ⟨hsequence ?_, h⟩
    match parts, hnil, hsingle with
    | [], hnil, _ => exact absurd rfl hnil
    | [part], _, hsingle => exact absurd rfl (hsingle part)
    | _ :: _ :: parts, _, _ => exact Nat.le_add_left 2 parts.length

section Steps

variable {limit : ℕ}

theorem proper_empty : (literal []).Everywhere (Proper limit) :=
  List.not_mem_nil

theorem everywhere_ofParts {parts : List Recipe} (h : EverywhereIn (Proper limit) parts) :
    (ofParts parts).Everywhere (Proper limit) :=
  everywhere_ofParts_of h List.not_mem_nil id

theorem length_choices (optional : Bool) {suffixes : List (Option Text)} {recipes : List Recipe}
    (hlength : recipes.length = suffixes.length) :
    (recipes ++ if optional then [literal []] else []).length =
      (counts optional suffixes).length := by
  cases optional <;> simp [counts, hlength]

-- The empty alternative of an optional group counts.
theorem two_le_length_choices (optional : Bool) {recipes : List Recipe} (hnil : recipes ≠ [])
    (hsingle : ∀ recipe, recipes = [recipe] → optional = false → False) :
    2 ≤ (recipes ++ if optional then [literal []] else []).length := by
  match recipes, optional, hnil, hsingle with
  | [], _, hnil, _ => exact absurd rfl hnil
  | [recipe], false, _, hsingle => exact (hsingle recipe rfl rfl).elim
  | [_], true, _, _ => exact Nat.le_refl 2
  | _ :: _ :: recipes, optional, _, _ =>
    simp only [List.cons_append, List.length_cons]
    omega

theorem everywhere_choice (optional : Bool) {suffixes : List (Option Text)}
    (hfew : suffixes.length < limit) (hlimit : limit ≤ sizeLimit) {recipes : List Recipe}
    (hlength : recipes.length = suffixes.length) (h : EverywhereIn (Proper limit) recipes) :
    (choice optional suffixes recipes).Everywhere (Proper limit) := by
  have hbound := length_counts_le optional suffixes
  have hchoices := length_choices optional hlength
  have hall : EverywhereIn (Proper limit) (recipes ++ if optional then [literal []] else []) := by
    apply everywhereIn_append h
    cases optional
    · trivial
    · exact ⟨proper_empty, trivial⟩
  unfold choice
  split
  · exact proper_empty
  · exact h.1
  · rename_i hnil hsingle
    have htwo := two_le_length_choices optional hnil hsingle
    by_cases hweighted : suffixes.any Option.isSome
    · simp only [if_pos hweighted]
      exact ⟨⟨counts optional suffixes, rfl, hchoices.symm, hchoices ▸ htwo, by omega,
        countable_counts optional (hfew.trans_le hlimit)⟩, hall⟩
    · simp only [if_neg hweighted]
      exact ⟨⟨htwo, by omega⟩, hall⟩

end Steps

end Recipe

theorem Pattern.length_trees (find : Shortcut → Recipe) (pattern : Pattern) :
    (pattern.trees find).length = pattern.suffixes.length := by
  cases pattern with
  | nil => rfl
  | cons body suffix rest => exact congrArg Nat.succ (Pattern.length_trees find rest)

section Trees

open Recipe

variable {find : Shortcut → Recipe} {limit : ℕ}

theorem quote_notMem_of_isPlain {run : Text} (h : ∀ c ∈ run, IsPlain c) : '"' ∉ run :=
  fun hq => (h _ hq).1 (by decide)

mutual

theorem Pattern.everywhere_trees (hfind : ∀ shortcut, (find shortcut).Everywhere (Proper limit))
    (hlimit : limit ≤ sizeLimit) :
    (pattern : Pattern) → pattern.Canonical →
      (∀ group ∈ pattern.groups, group.2.suffixes.length < limit) →
        EverywhereIn (Proper limit) (pattern.trees find)
  | .nil, _, _ => trivial
  | .cons body _ rest, ⟨_, _, hbody, hrest⟩, hgroups => by
    rw [Pattern.groups_cons, List.forall_mem_append] at hgroups
    exact ⟨everywhere_ofParts (Body.everywhere_trees hfind hlimit body hbody hgroups.1),
      Pattern.everywhere_trees hfind hlimit rest hrest hgroups.2⟩

theorem Body.everywhere_trees (hfind : ∀ shortcut, (find shortcut).Everywhere (Proper limit))
    (hlimit : limit ≤ sizeLimit) :
    (body : Body) → body.Canonical →
      (∀ group ∈ body.groups, group.2.suffixes.length < limit) →
        EverywhereIn (Proper limit) (body.trees find)
  | .nil, _, _ => trivial
  | .plain _ rest, ⟨_, hrun, _, hrest⟩, hgroups =>
    ⟨quote_notMem_of_isPlain hrun, Body.everywhere_trees hfind hlimit rest hrest hgroups⟩
  | .quoted _ rest, ⟨htext, hrest⟩, hgroups =>
    ⟨htext, Body.everywhere_trees hfind hlimit rest hrest hgroups⟩
  | .letter shortcut rest, hrest, hgroups =>
    ⟨hfind shortcut, Body.everywhere_trees hfind hlimit rest hrest hgroups⟩
  | .group bracket interior rest, ⟨hinterior, hrest⟩, hgroups => by
    rw [Body.groups_group, List.forall_mem_cons, List.forall_mem_append] at hgroups
    obtain ⟨hfew, hinside, hafter⟩ := hgroups
    exact ⟨everywhere_choice bracket.optional hfew hlimit (Pattern.length_trees find interior)
      (Pattern.everywhere_trees hfind hlimit interior hinterior hinside),
      Body.everywhere_trees hfind hlimit rest hrest hafter⟩

end

end Trees

theorem Context.eq_of_resolve_eq_ok {α : Type} {context : Context} {letters : List Shortcut}
    {value result : α} (h : context.resolve letters value = .ok result) : result = value := by
  unfold Context.resolve at h
  split at h
  · cases h
  · exact (Except.ok.inj h).symm

-- What is compiled from a short text is proper everywhere if what its letters stand
-- for is.
theorem Recipe.everywhere_compile {context : Context} {limit : ℕ}
    (hknown : ∀ shortcut recipe, context.recipes.get? shortcut = some recipe →
      recipe.Everywhere (Proper limit))
    (hlimit : limit ≤ sizeLimit) {text : Text} (hsize : text.utf8Length < limit) {recipe : Recipe}
    (h : (compile context text).result = .ok recipe) : recipe.Everywhere (Proper limit) := by
  obtain ⟨level, hlevel, -⟩ := compile_eq_ok h
  have hread : Pattern.read text = .ok level.pattern :=
    Pattern.read_eq_ok_iff.mpr ⟨level, hlevel, rfl⟩
  have hcanonical := Pattern.canonical_of_read hread
  rw [result_compile_of_ok hread (hsize.trans_le hlimit)] at h
  rw [Context.eq_of_resolve_eq_ok h]
  have hfind : ∀ shortcut, (context.known shortcut).Everywhere (Proper limit) := by
    intro shortcut
    unfold Context.known
    cases hs : context.recipes.get? shortcut with
    | none => exact proper_empty
    | some recipe => exact hknown shortcut recipe hs
  have hfew : ∀ split ∈ level.pattern.splits, split.2.suffixes.length < limit := by
    intro split hs
    exact (Pattern.length_suffixes_le_of_read hread split hs).trans_lt hsize
  obtain ⟨hfirst, hgroups⟩ := List.forall_mem_cons.mp hfew
  exact everywhere_choice false hfirst hlimit (Pattern.length_trees _ _)
    (Pattern.everywhere_trees hfind hlimit _ hcanonical hgroups)

end Coinage
