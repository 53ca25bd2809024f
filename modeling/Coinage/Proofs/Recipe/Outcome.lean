import Coinage.Proofs.Journal
import Coinage.Proofs.Recipe.Tree

namespace Coinage

namespace Context

variable {α β : Type}

def isMissing (context : Context) (shortcut : Shortcut) : Bool :=
  (context.recipes.get? shortcut).isNone

-- What a shortcut that is not missing stands for.
def known (context : Context) (shortcut : Shortcut) : Recipe :=
  (context.recipes.get? shortcut).getD (.literal [])

-- A value that needs some letters. The first of them that is missing is reported.
def resolve (context : Context) (letters : List Shortcut) (value : α) : Except Fault α :=
  match letters.find? context.isMissing with
  | some shortcut => .error (.unresolvedShortcut shortcut context.origin)
  | none => .ok value

@[simp] theorem resolve_nil (context : Context) (value : α) :
    context.resolve [] value = .ok value := rfl

theorem find_eq_resolve (context : Context) (shortcut : Shortcut) :
    context.find shortcut = context.resolve [shortcut] (context.known shortcut) := by
  unfold Context.find resolve known
  cases h : context.recipes.get? shortcut <;> simp [isMissing, h]

theorem map_resolve (context : Context) (letters : List Shortcut) (value : α) (change : α → β) :
    (context.resolve letters value).map change = context.resolve letters (change value) := by
  unfold resolve
  cases letters.find? context.isMissing <;> rfl

theorem bind_resolve (context : Context) (first second : List Shortcut) (value : α)
    (next : α → Except Fault β) {result : β} (h : next value = context.resolve second result) :
    (context.resolve first value).bind next = context.resolve (first ++ second) result := by
  unfold resolve at h ⊢
  rw [List.find?_append]
  cases first.find? context.isMissing with
  | some shortcut => rfl
  | none => exact h

theorem resolve_of_forall_found {context : Context} {letters : List Shortcut}
    (h : ∀ shortcut ∈ letters, (context.recipes.get? shortcut).isSome) (value : α) :
    context.resolve letters value = .ok value := by
  have hfind : letters.find? context.isMissing = none := by
    rw [List.find?_eq_none]
    intro shortcut hs
    simp [isMissing, Option.isSome_iff_ne_none.mp (h shortcut hs)]
  rw [resolve, hfind]

end Context

section Steps

variable (context : Context)

-- What comes out of a group or a whole pattern.
def Pattern.outcome (optional : Bool) (pattern : Pattern) : Except Fault Recipe :=
  (pattern.recipes context).result.bind (Recipe.ofAlternatives optional pattern.suffixes)

-- A group or a whole pattern, with the note that it is split.
def Pattern.alternation (optional : Bool) (pattern : Pattern) : Journaled Recipe := do
  pattern.noteSplit optional
  let recipes ← pattern.recipes context
  .ofResult (Recipe.ofAlternatives optional pattern.suffixes recipes)

theorem Pattern.compile_eq_alternation (pattern : Pattern) :
    pattern.compile context = pattern.alternation context false := rfl

theorem Pattern.result_alternation (optional : Bool) (pattern : Pattern) :
    (pattern.alternation context optional).result = pattern.outcome context optional := by
  rw [Pattern.alternation, Logged.result_bind, Pattern.noteSplit, Logged.result_note]
  change Logged.result _ = _
  rw [Logged.result_bind]
  rfl

theorem Body.parts_group (bracket : Bracket) (interior : Pattern) (rest : Body) :
    (Body.group bracket interior rest).parts context =
      interior.alternation context bracket.optional >>= fun part =>
        (part :: ·) <$> rest.parts context := by
  rw [Body.parts, Pattern.alternation, bind_assoc]
  simp only [bind_assoc]

@[simp] theorem Pattern.result_recipes_nil : (Pattern.nil.recipes context).result = .ok [] := rfl

@[simp] theorem Pattern.result_recipes_cons (body : Body) (suffix : Option Text) (rest : Pattern) :
    ((Pattern.cons body suffix rest).recipes context).result =
      (body.parts context).result.bind fun parts =>
        (rest.recipes context).result.map (Recipe.ofParts parts :: ·) := by
  rw [Pattern.recipes, Logged.result_bind]
  rfl

@[simp] theorem Body.result_parts_nil : (Body.nil.parts context).result = .ok [] := rfl

@[simp] theorem Body.result_parts_plain (run : Text) (rest : Body) :
    ((Body.plain run rest).parts context).result =
      (rest.parts context).result.map (.literal run :: ·) := rfl

@[simp] theorem Body.result_parts_quoted (text : Text) (rest : Body) :
    ((Body.quoted text rest).parts context).result =
      (rest.parts context).result.map (.literal text :: ·) := rfl

@[simp] theorem Body.result_parts_letter (shortcut : Shortcut) (rest : Body) :
    ((Body.letter shortcut rest).parts context).result =
      (context.find shortcut).bind fun part =>
        (rest.parts context).result.map (part :: ·) := by
  rw [Body.parts, Logged.result_bind]
  rfl

@[simp] theorem Body.result_parts_group (bracket : Bracket) (interior : Pattern) (rest : Body) :
    ((Body.group bracket interior rest).parts context).result =
      (interior.outcome context bracket.optional).bind fun part =>
        (rest.parts context).result.map (part :: ·) := by
  rw [Body.parts_group, Logged.result_bind, Pattern.result_alternation]
  rfl

theorem Pattern.result_compile (pattern : Pattern) :
    (pattern.compile context).result = pattern.outcome context false :=
  Pattern.result_alternation context false pattern

end Steps

theorem Pattern.alternation_eq {context : Context} (optional : Bool) {pattern : Pattern}
    (h : pattern.suffixes.length < sizeLimit) :
    pattern.alternation context optional = pattern.noteSplit optional >>= fun _ =>
      Recipe.choice optional pattern.suffixes <$> pattern.recipes context := by
  simp only [Pattern.alternation, Recipe.ofAlternatives_eq optional h, Logged.ofResult_ok,
    bind_pure_comp]

theorem Pattern.outcome_eq_resolve {context : Context} (optional : Bool) {pattern : Pattern}
    (hlength : pattern.suffixes.length < sizeLimit)
    (h : (pattern.recipes context).result =
      context.resolve pattern.letters (pattern.trees context.known)) :
    pattern.outcome context optional = context.resolve pattern.letters
      (.choice optional pattern.suffixes (pattern.trees context.known)) := by
  have hnext := Context.bind_resolve context pattern.letters [] (pattern.trees context.known)
    (Recipe.ofAlternatives optional pattern.suffixes) (Recipe.ofAlternatives_eq optional hlength _)
  rw [Pattern.outcome, h, hnext, List.append_nil]

mutual

-- Nothing can fail in a narrow pattern but a letter.
theorem Pattern.result_recipes (context : Context) : (pattern : Pattern) → Narrow pattern.groups →
    (pattern.recipes context).result =
      context.resolve pattern.letters (pattern.trees context.known)
  | .nil, _ => rfl
  | .cons body suffix rest, h => by
    rw [Pattern.groups_cons, narrow_append] at h
    rw [Pattern.result_recipes_cons, Body.result_parts context body h.1, Pattern.letters_cons]
    apply Context.bind_resolve
    rw [Pattern.result_recipes context rest h.2, Context.map_resolve]
    rfl

theorem Body.result_parts (context : Context) : (body : Body) → Narrow body.groups →
    (body.parts context).result = context.resolve body.letters (body.trees context.known)
  | .nil, _ => rfl
  | .plain run rest, h => by
    rw [Body.result_parts_plain, Body.result_parts context rest h, Context.map_resolve]
    rfl
  | .quoted text rest, h => by
    rw [Body.result_parts_quoted, Body.result_parts context rest h, Context.map_resolve]
    rfl
  | .letter shortcut rest, h => by
    rw [Body.result_parts_letter, Context.find_eq_resolve]
    apply Context.bind_resolve context [shortcut]
    rw [Body.result_parts context rest h, Context.map_resolve]
    rfl
  | .group bracket interior rest, h => by
    rw [Body.groups_group, narrow_cons, narrow_append] at h
    obtain ⟨hlength, hinterior, hrest⟩ := h
    have hrecipes := Pattern.result_recipes context interior hinterior
    rw [Body.result_parts_group, Pattern.outcome_eq_resolve _ hlength hrecipes, Body.letters_group]
    apply Context.bind_resolve
    rw [Body.result_parts context rest hrest, Context.map_resolve]
    rfl

end

namespace Recipe

theorem compile_of_error {text : Text} {malformation : Malformation}
    (h : Bracketed.read text = .error malformation) (context : Context) :
    compile context text = .ofResult (.error (.malformed text malformation)) := by
  have hread : Pattern.read text = .error malformation := by
    rw [Pattern.read, h]
    rfl
  rw [compile, hread]

theorem result_compile_of_error {text : Text} {malformation : Malformation}
    (h : Bracketed.read text = .error malformation) (context : Context) :
    (compile context text).result = .error (.malformed text malformation) := by
  rw [compile_of_error h, Logged.result_ofResult]

theorem result_compile_of_ok {text : Text} {pattern : Pattern}
    (h : Pattern.read text = .ok pattern) (hsize : text.utf8Length < sizeLimit)
    (context : Context) :
    (compile context text).result = context.resolve text.letters (pattern.tree context.known) := by
  obtain ⟨hlength, hgroups⟩ := (narrow_cons _ _).mp (Pattern.narrow_splits_of_read h hsize)
  have hrecipes := Pattern.result_recipes context pattern hgroups
  rw [compile, h, ← Pattern.letters_of_read h]
  change (pattern.compile context).result = _
  rw [Pattern.result_compile, Pattern.outcome_eq_resolve false hlength hrecipes, Pattern.tree]

end Recipe

theorem Recipe.compile_eq_ok {context : Context} {text : Text} {recipe : Recipe}
    (h : (Recipe.compile context text).result = .ok recipe) :
    ∃ level, Bracketed.read text = .ok level ∧
      level.pattern.outcome context false = .ok recipe := by
  unfold Recipe.compile at h
  cases hr : Pattern.read text with
  | error malformation =>
    rw [hr] at h
    cases h
  | ok pattern =>
    rw [hr] at h
    obtain ⟨level, hlevel, rfl⟩ := Pattern.read_eq_ok_iff.mp hr
    exact ⟨level, hlevel, (Pattern.result_compile context level.pattern).symm.trans h⟩

theorem Recipe.compile_of_outcome {context : Context} {text : Text} {level : Bracketed}
    {recipe : Recipe} (hread : Bracketed.read text = .ok level)
    (h : level.pattern.outcome context false = .ok recipe) :
    (Recipe.compile context text).result = .ok recipe := by
  have hpattern : Pattern.read text = .ok level.pattern :=
    Pattern.read_eq_ok_iff.mpr ⟨level, hread, rfl⟩
  rw [Recipe.compile, hpattern]
  exact (Pattern.result_compile context level.pattern).trans h

-- Why a text is refused where some shortcuts may be referred to and others not.
-- Its form is looked at before its letters.
def offence (scope : Shortcut → Bool) (origin : Origin) (text : Text) : Option Fault :=
  match Bracketed.read text with
  | .error malformation => some (.malformed text malformation)
  | .ok _ => (text.letters.find? (!scope ·)).map (.unresolvedShortcut · origin)

def Text.WellFormed (text : Text) : Prop :=
  ∃ level, Bracketed.read text = .ok level

theorem offence_eq_none_iff {scope : Shortcut → Bool} {origin : Origin} {text : Text} :
    offence scope origin text = none ↔
      text.WellFormed ∧ ∀ shortcut ∈ text.letters, scope shortcut = true := by
  unfold offence Text.WellFormed
  cases Bracketed.read text <;> simp

theorem eq_of_offence_eq_some {scope : Shortcut → Bool} {origin : Origin} {text : Text}
    {fault : Fault} (h : offence scope origin text = some fault) :
    (∃ malformation, fault = .malformed text malformation) ∨
      ∃ letter, fault = .unresolvedShortcut letter origin := by
  unfold offence at h
  split at h
  · exact .inl ⟨_, (Option.some.inj h).symm⟩
  · obtain ⟨letter, -, rfl⟩ := Option.map_eq_some_iff.mp h
    exact .inr ⟨letter, rfl⟩

-- Short texts are refused for nothing else.
theorem Recipe.fault?_compile (context : Context) {scope : Shortcut → Bool}
    (hscope : ∀ shortcut, scope shortcut = (context.recipes.get? shortcut).isSome) {text : Text}
    (hsize : text.utf8Length < sizeLimit) :
    (Recipe.compile context text).fault? = offence scope context.origin text := by
  cases hread : Bracketed.read text with
  | error malformation =>
    rw [Logged.fault?, result_compile_of_error hread, offence, hread]
  | ok level =>
    have hpattern : Pattern.read text = .ok level.pattern :=
      Pattern.read_eq_ok_iff.mpr ⟨level, hread, rfl⟩
    have hmissing : context.isMissing = (!scope ·) := by
      funext shortcut
      rw [hscope, Context.isMissing, Option.not_isSome]
    rw [Logged.fault?, result_compile_of_ok hpattern hsize, offence, hread, Context.resolve,
      hmissing]
    cases text.letters.find? (!scope ·) <;> rfl

end Coinage
