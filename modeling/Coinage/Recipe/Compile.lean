import Coinage.Journal
import Coinage.Pattern.Read

namespace Coinage

-- What a pattern may refer to, and where the pattern stands.
structure Context where
  recipes : ShortcutMap Recipe
  origin : Origin

def Context.find (context : Context) (shortcut : Shortcut) : Except Fault Recipe :=
  match context.recipes.get? shortcut with
  | some recipe => .ok recipe
  | none => .error (.unresolvedShortcut shortcut context.origin)

namespace Recipe

def ofParts : List Recipe → Recipe
  | [] => .literal []
  | [part] => part
  | parts => .sequence parts

-- The weights of the alternatives, with that of the empty one that an optional
-- group adds.
def weights (optional : Bool) (suffixes : List (Option Text)) : List Float :=
  (suffixes.map Pattern.weight ++ if optional then [Pattern.unstatedWeight] else []).map
    Float.ofNat

-- A choice between the alternatives of a group. An optional group adds the
-- empty text. A mandatory group with one alternative leaves no choice.
def ofAlternatives (optional : Bool) (suffixes : List (Option Text)) (recipes : List Recipe) :
    Except Fault Recipe :=
  match recipes, optional with
  | [], _ => .ok (.literal [])
  | [recipe], false => .ok recipe
  | recipes, optional =>
    let choices := recipes ++ if optional then [.literal []] else []
    if suffixes.any Option.isSome then
      ((weights optional suffixes).foldlM Scale.add Scale.empty).map fun scale =>
        .weighted scale choices
    else
      .ok (.uniform choices)

end Recipe

def Pattern.noteSplit (optional : Bool) (pattern : Pattern) : Journaled Unit :=
  .note (.split pattern.suffixes.length optional pattern.weighted)

mutual

def Pattern.recipes (context : Context) : Pattern → Journaled (List Recipe)
  | .nil => pure []
  | .cons body _ rest => do
    let parts ← body.parts context
    (Recipe.ofParts parts :: ·) <$> rest.recipes context

-- The recipes of the parts of an alternative. A group is split before
-- anything in it is compiled.
def Body.parts (context : Context) : Body → Journaled (List Recipe)
  | .nil => pure []
  | .plain run rest => (Recipe.literal run :: ·) <$> rest.parts context
  | .quoted text rest => (Recipe.literal text :: ·) <$> rest.parts context
  | .letter shortcut rest => do
    let part ← .ofResult (context.find shortcut)
    (part :: ·) <$> rest.parts context
  | .group bracket interior rest => do
    interior.noteSplit bracket.optional
    let recipes ← interior.recipes context
    let part ← .ofResult (Recipe.ofAlternatives bracket.optional interior.suffixes recipes)
    (part :: ·) <$> rest.parts context

end

def Pattern.compile (context : Context) (pattern : Pattern) : Journaled Recipe := do
  pattern.noteSplit false
  let recipes ← pattern.recipes context
  .ofResult (Recipe.ofAlternatives false pattern.suffixes recipes)

-- The recipe of the pattern that a text writes. Nothing is compiled before the
-- whole text is known to be matched.
def Recipe.compile (context : Context) (text : Text) : Journaled Recipe :=
  match Pattern.read text with
  | .error malformation => .ofResult (.error (.malformed text malformation))
  | .ok pattern => pattern.compile context

end Coinage
