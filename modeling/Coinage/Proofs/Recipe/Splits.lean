import Coinage.Proofs.Pattern.Outline
import Coinage.Proofs.Recipe.Outcome

namespace Coinage

open Bracketed

-- The split of the level that a text begins with.
def Text.split (optional : Bool) (text : Text) : Event :=
  .split text.outline.fragments optional (text.outline.contains '*')

-- The splits of the groups in the rest of a text, in the order of their openers,
-- up to the first letter outside quotations that is not known.
def Text.groupSplitsFrom (known : Shortcut → Bool) (quoted : Bool) : Text → List Event
  | [] => []
  | c :: rest =>
    if c = '"' then
      groupSplitsFrom known (!quoted) rest
    else if quoted then
      groupSplitsFrom known quoted rest
    else
      match Bracket.ofOpener? c, Shortcut.ofChar? c with
      | some bracket, _ => Text.split bracket.optional rest :: groupSplitsFrom known quoted rest
      | none, some shortcut => if known shortcut then groupSplitsFrom known quoted rest else []
      | none, none => groupSplitsFrom known quoted rest

-- What is noted while a text is compiled where some letters are known. A text
-- that is not matched is not split at all.
def Text.splits (known : Shortcut → Bool) (text : Text) : List Event :=
  match Bracketed.read text with
  | .error _ => []
  | .ok _ => text.split false :: text.groupSplitsFrom known false

namespace Landmark

def split? : Landmark → Option Event
  | letter _ => none
  | group optional interior =>
    some (.split interior.suffixes.length optional interior.weighted)

def passes (known : Shortcut → Bool) : Landmark → Bool
  | letter shortcut => known shortcut
  | group .. => true

-- The splits of the groups before the first letter that is not known.
def splits (known : Shortcut → Bool) (landmarks : List Landmark) : List Event :=
  (landmarks.takeWhile (passes known)).filterMap split?

section Splits

variable (known : Shortcut → Bool)

@[simp] theorem splits_nil : splits known [] = [] := rfl

@[simp] theorem splits_group (optional : Bool) (interior : Pattern) (rest : List Landmark) :
    splits known (.group optional interior :: rest) =
      .split interior.suffixes.length optional interior.weighted :: splits known rest := rfl

theorem splits_letter (shortcut : Shortcut) (rest : List Landmark) :
    splits known (.letter shortcut :: rest) =
      if known shortcut then splits known rest else [] := by
  unfold splits
  rw [List.takeWhile_cons]
  by_cases h : known shortcut = true
  · rw [if_pos h, passes, if_pos h, List.filterMap_cons_none rfl]
  · rw [if_neg h, passes, if_neg h, List.filterMap_nil]

theorem splits_append (first second : List Landmark) :
    splits known (first ++ second) =
      splits known first ++ if first.all (passes known) then splits known second else [] := by
  induction first with
  | nil => rfl
  | cons landmark first ih =>
    cases landmark with
    | letter shortcut =>
      rw [List.cons_append, splits_letter, splits_letter, ih]
      by_cases h : known shortcut = true <;> simp [passes, h]
    | group optional interior =>
      rw [List.cons_append, splits_group, splits_group, ih]
      simp [passes]

end Splits

end Landmark

section Compile

variable {α β : Type} {context : Context}

def Context.isKnown (context : Context) (shortcut : Shortcut) : Bool :=
  (context.recipes.get? shortcut).isSome

theorem Context.find?_isMissing_eq_none_iff (context : Context) (landmarks : List Landmark) :
    (landmarks.filterMap Landmark.letter?).find? context.isMissing = none ↔
      landmarks.all (Landmark.passes context.isKnown) = true := by
  induction landmarks with
  | nil => exact ⟨fun _ => rfl, fun _ => rfl⟩
  | cons landmark landmarks ih =>
    cases landmark with
    | letter shortcut =>
      have hk : context.isMissing shortcut = !context.isKnown shortcut := by
        rw [Context.isMissing, Context.isKnown, Option.not_isSome]
      have hletter : (Landmark.letter shortcut).letter? = some shortcut := rfl
      rw [List.filterMap_cons_some hletter, List.find?_cons, List.all_cons, hk, Landmark.passes]
      cases context.isKnown shortcut with
      | false => simp
      | true => exact ih
    | group optional interior => exact ih

-- The notes of two steps. The second one is taken if the first one finds all of
-- its letters.
theorem Logged.events_bind_splits {first : Journaled α} {next : α → Journaled β}
    {before after : List Landmark} {value : α}
    (hresult : first.result = context.resolve (before.filterMap Landmark.letter?) value)
    (hfirst : first.events = Landmark.splits context.isKnown before)
    (hnext : (next value).events = Landmark.splits context.isKnown after) :
    (first >>= next).events = Landmark.splits context.isKnown (before ++ after) := by
  rw [Landmark.splits_append, ← hfirst, ← hnext]
  by_cases hall : before.all (Landmark.passes context.isKnown) = true
  · rw [Context.resolve, (context.find?_isMissing_eq_none_iff before).mpr hall] at hresult
    rw [Logged.events_bind_of_ok hresult, if_pos hall]
  · have hmissing := mt (context.find?_isMissing_eq_none_iff before).mp hall
    obtain ⟨shortcut, hs⟩ := Option.ne_none_iff_exists'.mp hmissing
    rw [Context.resolve, hs] at hresult
    rw [Logged.events_bind_of_error hresult, if_neg hall, List.append_nil]

theorem Pattern.events_noteSplit (optional : Bool) (pattern : Pattern) :
    (pattern.noteSplit optional).events =
      [.split pattern.suffixes.length optional pattern.weighted] := rfl

mutual

-- The groups are split in the order in which they stand.
theorem Pattern.events_recipes (context : Context) : (pattern : Pattern) →
    Narrow pattern.groups →
    (pattern.recipes context).events = Landmark.splits context.isKnown pattern.landmarks
  | .nil, _ => rfl
  | .cons body suffix rest, h => by
    rw [Pattern.groups_cons, narrow_append] at h
    apply Logged.events_bind_splits (Body.result_parts context body h.1)
    · exact Body.events_parts context body h.1
    · exact Pattern.events_recipes context rest h.2

theorem Body.events_parts (context : Context) : (body : Body) → Narrow body.groups →
    (body.parts context).events = Landmark.splits context.isKnown body.landmarks
  | .nil, _ => rfl
  | .plain _ rest, h => Body.events_parts context rest h
  | .quoted _ rest, h => Body.events_parts context rest h
  | .letter shortcut rest, h => by
    have hfind : (Logged.ofResult (context.find shortcut)).result =
        context.resolve ([Landmark.letter shortcut].filterMap Landmark.letter?)
          (context.known shortcut) :=
      Context.find_eq_resolve context shortcut
    apply Logged.events_bind_splits hfind
    · rw [Landmark.splits_letter]
      exact (ite_self _).symm
    · exact Body.events_parts context rest h
  | .group bracket interior rest, h => by
    rw [Body.groups_group, narrow_cons, narrow_append] at h
    obtain ⟨hlength, hinterior, hrest⟩ := h
    -- what follows the note: the interior, the choice it leaves, the rest
    have hmore : ∀ recipes : List Recipe,
        (do
          let part ← Logged.ofResult
            (Recipe.ofAlternatives bracket.optional interior.suffixes recipes)
          (part :: ·) <$> rest.parts context).events =
          Landmark.splits context.isKnown rest.landmarks := by
      intro recipes
      have hchoice := Recipe.ofAlternatives_eq bracket.optional hlength recipes
      rw [Logged.events_bind_of_ok hchoice]
      exact Body.events_parts context rest hrest
    rw [Body.parts, Logged.events_bind_of_ok rfl, Pattern.events_noteSplit, Body.landmarks,
      List.singleton_append]
    apply congrArg (Event.split interior.suffixes.length bracket.optional interior.weighted :: ·)
    apply Logged.events_bind_splits (Pattern.result_recipes context interior hinterior)
    · exact Pattern.events_recipes context interior hinterior
    · exact hmore _

end

theorem Pattern.events_compile {pattern : Pattern} (h : Narrow pattern.groups) :
    (pattern.compile context).events =
      .split pattern.suffixes.length false pattern.weighted ::
        Landmark.splits context.isKnown pattern.landmarks := by
  rw [Pattern.compile, Logged.events_bind_of_ok rfl, Pattern.events_noteSplit,
    List.singleton_append]
  apply congrArg
  rw [← List.append_nil pattern.landmarks]
  apply Logged.events_bind_splits (Pattern.result_recipes context pattern h)
  · exact Pattern.events_recipes context pattern h
  · rfl

end Compile

namespace Bracketed

theorem split_interior {interior : Bracketed} (hl : interior.Legible) (bracket : Bracket)
    (optional : Bool) (rest : Text) :
    Text.split optional (interior.render ++ bracket.closer :: rest) =
      .split interior.pattern.suffixes.length optional interior.pattern.weighted := by
  rw [Text.split, outline_interior hl, fragments_outline, contains_star_outline]

theorem split_render {level : Bracketed} (hl : level.Legible) (optional : Bool) :
    Text.split optional level.render =
      .split level.pattern.suffixes.length optional level.pattern.weighted := by
  rw [Text.split, outline_render hl, fragments_outline, contains_star_outline]

end Bracketed

namespace Text

variable (known : Shortcut → Bool)

theorem groupSplitsFrom_quoted {text : Text} (ht : '"' ∉ text) (rest : Text) :
    groupSplitsFrom known true (text ++ '"' :: rest) = groupSplitsFrom known false rest := by
  induction text with
  | nil => simp [groupSplitsFrom]
  | cons c text ih =>
    simp only [List.mem_cons, not_or] at ht
    simp [groupSplitsFrom, Ne.symm ht.1, ih ht.2]

theorem groupSplitsFrom_opener (bracket : Bracket) (rest : Text) :
    groupSplitsFrom known false (bracket.opener :: rest) =
      Text.split bracket.optional rest :: groupSplitsFrom known false rest := by
  simp [groupSplitsFrom]

theorem groupSplitsFrom_closer (bracket : Bracket) (rest : Text) :
    groupSplitsFrom known false (bracket.closer :: rest) = groupSplitsFrom known false rest := by
  simp [groupSplitsFrom]

end Text

namespace Bracketed

-- The openers of a text, from left to right, are the groups of its level, each
-- before the groups in it.
theorem groupSplitsFrom_render (known : Shortcut → Bool) {level : Bracketed} (hl : level.Legible)
    (rest : Text) :
    Text.groupSplitsFrom known false (level.render ++ rest) =
      Landmark.splits known level.landmarks ++
        if level.landmarks.all (Landmark.passes known) then
          Text.groupSplitsFrom known false rest
        else [] := by
  induction level generalizing rest with
  | nil => rfl
  | char c more ih =>
    have hc := ne_quote_of_notMem_marks hl.1
    have ho := ofOpener?_of_notMem_marks hl.1
    cases hs : Shortcut.ofChar? c with
    | none => simp [render, landmarks, Text.groupSplitsFrom, hc, ho, hs, ih hl.2]
    | some shortcut =>
      by_cases hk : known shortcut = true <;>
        simp [render, landmarks, Text.groupSplitsFrom, hc, ho, hs, hk, ih hl.2,
          Landmark.splits_letter, Landmark.passes]
  | quoted text more ih =>
    have hquote : ∀ tail, Text.groupSplitsFrom known false ('"' :: tail) =
        Text.groupSplitsFrom known true tail := fun _ => rfl
    simp only [render, List.cons_append, List.append_assoc]
    rw [hquote, Text.groupSplitsFrom_quoted known hl.1, ih hl.2]
    rfl
  | group bracket interior more ihi ihr =>
    simp only [render, List.cons_append, List.append_assoc]
    rw [Text.groupSplitsFrom_opener, split_interior hl.1, ihi hl.1, Text.groupSplitsFrom_closer,
      ihr hl.2, landmarks, List.cons_append, Landmark.splits_group, Landmark.splits_append]
    by_cases hall : interior.landmarks.all (Landmark.passes known) = true
    · simp [hall, Landmark.passes]
    · simp [eq_false_of_ne_true hall, Landmark.passes]

end Bracketed

-- While a short text is compiled, its groups are split once each, in the order of
-- their openers.
theorem Recipe.events_compile (context : Context) {text : Text}
    (hsize : text.utf8Length < sizeLimit) :
    (Recipe.compile context text).events = text.splits context.isKnown := by
  cases hread : Bracketed.read text with
  | error malformation =>
    rw [Recipe.compile_of_error hread, Text.splits, hread, Logged.events_ofResult]
  | ok level =>
    have hpattern : Pattern.read text = .ok level.pattern :=
      Pattern.read_eq_ok_iff.mpr ⟨level, hread, rfl⟩
    obtain ⟨-, hgroups⟩ := (narrow_cons _ _).mp (Pattern.narrow_splits_of_read hpattern hsize)
    obtain ⟨hlegible, -, rfl⟩ := Bracketed.read_eq_ok_iff.mp hread
    have hsplits := groupSplitsFrom_render context.isKnown hlegible []
    rw [Text.groupSplitsFrom, ite_self, List.append_nil, List.append_nil] at hsplits
    rw [Recipe.compile, hpattern, Text.splits, hread]
    change (level.pattern.compile context).events = _
    rw [Pattern.events_compile hgroups, landmarks_pattern, split_render hlegible, hsplits]

end Coinage
