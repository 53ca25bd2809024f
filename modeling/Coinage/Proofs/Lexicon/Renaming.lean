import Coinage.Proofs.Lexicon.Transcript
import Coinage.Proofs.Recipe.Renaming

namespace Coinage

namespace ShortcutMap

variable {α β : Type} (permutation : Equiv.Perm Shortcut)

-- Other shortcuts for the values of a map, which are changed themselves.
def rename (change : α → β) (map : ShortcutMap α) : ShortcutMap β :=
  ⟨fun shortcut => (map.get? (permutation.symm shortcut)).map change⟩

theorem get?_rename (change : α → β) (map : ShortcutMap α) (shortcut : Shortcut) :
    (map.rename permutation change).get? shortcut =
      (map.get? (permutation.symm shortcut)).map change := rfl

theorem get?_rename_apply (change : α → β) (map : ShortcutMap α) (shortcut : Shortcut) :
    (map.rename permutation change).get? (permutation shortcut) =
      (map.get? shortcut).map change := by
  rw [get?_rename, Equiv.symm_apply_apply]

theorem rename_empty (change : α → β) : empty.rename permutation change = empty := rfl

-- A kind that the change respects can be picked out before or after it.
theorem filter_rename {change : α → β} {keep : α → Bool} {keepChanged : β → Bool}
    (h : ∀ value, keepChanged (change value) = keep value) (map : ShortcutMap α) :
    (map.rename permutation change).filter keepChanged =
      (map.filter keep).rename permutation change := by
  ext1
  funext shortcut
  rw [get?_filter, get?_rename, get?_rename, get?_filter]
  cases map.get? (permutation.symm shortcut) with
  | none => rfl
  | some value => cases hk : keep value <;> simp [Option.filter, h, hk]

end ShortcutMap

namespace Lexicon

variable (permutation : Equiv.Perm Shortcut)

-- The subpatterns of a lexicon under other letters, which stand in their texts too.
def rename (lexicon : Lexicon) : Lexicon :=
  ⟨lexicon.texts.rename permutation (Text.rename permutation)⟩

theorem isPrimitive_rename (text : Text) :
    isPrimitive (text.rename permutation) = isPrimitive text := by
  rw [isPrimitive, isPrimitive, Text.mentionsShortcut_rename]

theorem primitives_rename (lexicon : Lexicon) :
    (lexicon.rename permutation).primitives =
      lexicon.primitives.rename permutation (Text.rename permutation) :=
  ShortcutMap.filter_rename permutation (isPrimitive_rename permutation) lexicon.texts

theorem complexes_rename (lexicon : Lexicon) :
    (lexicon.rename permutation).complexes =
      lexicon.complexes.rename permutation (Text.rename permutation) := by
  apply ShortcutMap.filter_rename
  intro text
  rw [isPrimitive_rename]

theorem rename_rename_symm (lexicon : Lexicon) :
    (lexicon.rename permutation).rename permutation.symm = lexicon := by
  ext1
  ext1
  funext shortcut
  simp only [rename, ShortcutMap.rename, Equiv.symm_symm, Equiv.symm_apply_apply, Option.map_map]
  have hback : Text.rename permutation.symm ∘ Text.rename permutation = id :=
    funext (Text.rename_rename_symm permutation)
  rw [hback, Option.map_id_fun, id]

section Rounds

variable {texts : ShortcutMap Text} {known learned : ShortcutMap Recipe}

-- A round that leaves nothing out can be run.
theorem Round.result_compileAll (h : Round texts known learned) (primitive : Bool) :
    (compileAll primitive known texts.entries known).result = .ok learned := by
  cases hr : (compileAll primitive known texts.entries known).result with
  | ok other => rw [(round_of_compileAll hr).eq_learn, h.eq_learn]
  | error fault =>
    obtain ⟨⟨shortcut, text⟩, he, hfault⟩ := exists_error_of_compileAll hr
    obtain ⟨recipe, hrecipe, -⟩ := h.compiled shortcut text (ShortcutMap.mem_entries.mp he)
    rw [hrecipe] at hfault
    cases hfault

theorem renamed_contexts (origin other : Origin) (recipes : ShortcutMap Recipe) :
    Context.Renamed permutation ⟨recipes, origin⟩ ⟨recipes.rename permutation id, other⟩ := by
  intro shortcut
  rw [ShortcutMap.get?_rename_apply, Option.map_id_fun, id]

-- A round does not depend on the order of its texts.
theorem Round.rename (h : Round texts known learned) :
    Round (texts.rename permutation (Text.rename permutation)) (known.rename permutation id)
      (learned.rename permutation id) where
  compiled shortcut text ht := by
    obtain ⟨old, hold, rfl⟩ := Option.map_eq_some_iff.mp ht
    obtain ⟨recipe, hrecipe, hlearned⟩ := h.compiled _ old hold
    have hcompile := (renamed_contexts permutation _ (.subpattern shortcut) known).compile hrecipe
    refine ⟨recipe, hcompile, ?_⟩
    rw [ShortcutMap.get?_rename, hlearned, Option.map_some, id]
  kept shortcut hnone := by
    have hold := Option.map_eq_none_iff.mp hnone
    rw [ShortcutMap.get?_rename, ShortcutMap.get?_rename, h.kept _ hold]

end Rounds

variable {lexicon : Lexicon} {main : Text} {recipe : Recipe}

theorem compile_of_rounds {primitives recipes : ShortcutMap Recipe}
    (hprimitives : Round lexicon.primitives .empty primitives)
    (hcomplexes : Round lexicon.complexes primitives recipes)
    (hmain : (Recipe.compile ⟨recipes, .main⟩ main).result = .ok recipe) :
    (lexicon.compile main).result = .ok recipe := by
  rw [result_compile, hprimitives.result_compileAll, Except.bind, hcomplexes.result_compileAll,
    Except.bind, hmain]

theorem compile_rename (h : (lexicon.compile main).result = .ok recipe) :
    ((lexicon.rename permutation).compile (main.rename permutation)).result = .ok recipe := by
  obtain ⟨primitives, recipes, hprimitives, hcomplexes, hmain⟩ := exists_rounds h
  have hfirst := hprimitives.rename permutation
  have hsecond := hcomplexes.rename permutation
  rw [← primitives_rename, ShortcutMap.rename_empty] at hfirst
  rw [← complexes_rename] at hsecond
  exact compile_of_rounds hfirst hsecond
    ((renamed_contexts permutation _ .main recipes).compile hmain)

-- What is compiled under new letters is what is compiled under old ones.
theorem compile_rename_iff :
    ((lexicon.rename permutation).compile (main.rename permutation)).result = .ok recipe ↔
      (lexicon.compile main).result = .ok recipe := by
  refine ⟨fun h => ?_, compile_rename permutation⟩
  have hback := compile_rename permutation.symm h
  rwa [rename_rename_symm, Text.rename_rename_symm] at hback

end Lexicon

end Coinage
