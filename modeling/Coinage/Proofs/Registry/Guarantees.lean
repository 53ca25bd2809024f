import Coinage.Proofs.Lexicon.Display
import Coinage.Proofs.Lexicon.Expansion
import Coinage.Proofs.Lexicon.Frequency
import Coinage.Proofs.Lexicon.Log
import Coinage.Proofs.Lexicon.Normal
import Coinage.Proofs.Lexicon.Unused
import Coinage.Proofs.Registry.History

namespace Coinage

theorem Registry.compile_empty (main : Text) :
    Registry.empty.compile main = Lexicon.empty.compile main :=
  Draft.faithful_start.compile_eq main

namespace Draft

-- A letter that is given a text gets a new last text, the other ones keep theirs.
theorem texts_define (draft : Draft) {shortcut : Shortcut}
    (hletter : (Shortcut.ofChar? shortcut.toChar).isSome) (text : Text) :
    (draft.define shortcut.toChar text).lexicon.texts =
      draft.lexicon.texts.insert shortcut text := by
  ext1
  funext other
  rw [define_of_letter hletter]
  refine (lastText_cons_of_accepted _ _ _ _).trans ?_
  exact if_congr Shortcut.toChar_injective.eq_iff rfl rfl

theorem Faithful.isPrimitiveShortcut_iff {draft : Draft} (h : draft.Faithful)
    {shortcut : Shortcut} :
    draft.lexicon.isPrimitiveShortcut shortcut = true ↔
      shortcut.toChar ∈ draft.registry.primitive.keys := by
  rw [Table.mem_keys, h.primitive, Lexicon.isPrimitiveShortcut, Option.isSome_iff_exists]
  rfl

end Draft

-- What is known of lexicons holds of every registry that calls lead to, with the last
-- texts as its lexicon.
namespace Workshop

open Recipe

variable {calls : List Call} {draft : Draft} (hdraft : draft ∈ (run calls).drafts)
  {main : Text}
include hdraft

theorem compile_eq (main : Text) : draft.registry.compile main = draft.lexicon.compile main :=
  (faithful_run calls draft hdraft).compile_eq main

theorem result_compile_expanded {recipe : Recipe}
    (h : (draft.registry.compile main).result = .ok recipe)
    (hdepth : ((main.expand draft.lexicon.complexes).expand draft.lexicon.primitives).nesting ≤
      depthLimit) :
    (Registry.empty.compile
      ((main.expand draft.lexicon.complexes).expand draft.lexicon.primitives)).result =
        .ok recipe := by
  rw [compile_eq hdraft] at h
  rw [Registry.compile_empty]
  exact Lexicon.result_compile_expanded h hdepth

section Bounded

variable (hsize : draft.lexicon.Bounded) (hmain : main.utf8Length < sizeLimit)
include hsize hmain

theorem result_compile_eq_ok_iff :
    (∃ recipe, (draft.registry.compile main).result = .ok recipe) ↔
      draft.lexicon.Resolvable main := by
  rw [compile_eq hdraft, ← Logged.fault?_eq_none_iff, Lexicon.fault?_compile hsize hmain,
    Lexicon.firstOffence_eq_none_iff]

theorem result_compile_eq_error_iff {fault : Fault} :
    (draft.registry.compile main).result = .error fault ↔
      draft.lexicon.firstOffence main = some fault := by
  rw [compile_eq hdraft, ← Logged.fault?_eq_some_iff, Lexicon.fault?_compile hsize hmain]

-- No text of a registry that compiles refers to itself or to a complex subpattern.
theorem notMem_keys_complex_of_mem_letters {recipe : Recipe}
    (h : (draft.registry.compile main).result = .ok recipe) {shortcut letter : Shortcut}
    {text : Text} (htext : lastText draft.attempts shortcut.toChar = some text)
    (hletter : letter ∈ text.letters) :
    letter ≠ shortcut ∧ letter.toChar ∉ draft.registry.complex.keys := by
  have hresolvable := (result_compile_eq_ok_iff hdraft hsize hmain).mp ⟨recipe, h⟩
  refine ⟨hresolvable.ne_of_mem_letters htext hletter, fun hkey => ?_⟩
  obtain ⟨other, hother⟩ := Table.mem_keys.mp hkey
  rw [(faithful_run calls draft hdraft).complex] at hother
  have hnone := hresolvable.get?_complexes_eq_none htext hletter
  rw [show draft.lexicon.complexes.get? letter = some other from hother] at hnone
  cases hnone

theorem events_compile :
    (draft.registry.compile main).events =
      draft.lexicon.transcript (draft.lexicon.tasks main) := by
  rw [compile_eq hdraft, Lexicon.events_compile hsize hmain]

theorem log_compile :
    (draft.registry.compile main).events.map Event.line =
      draft.lexicon.log (draft.lexicon.tasks main) := by
  rw [compile_eq hdraft, Lexicon.log_compile hsize hmain]

variable {recipe : Recipe} (h : (draft.registry.compile main).result = .ok recipe)
include h

theorem everywhere_proper : recipe.Everywhere (Proper sizeLimit) := by
  rw [compile_eq hdraft] at h
  exact Lexicon.everywhere_proper_compile le_rfl hsize hmain h

theorem everywhere_reduced : recipe.Everywhere Reduced :=
  Everywhere.imp (fun _ => Proper.reduced) recipe (everywhere_proper hdraft hsize hmain h)

-- The other texts too are compiled to recipes in normal form, and without a character that
-- offers a choice there is no call to a source.
theorem exists_reduced_of_mem_tasks {origin : Origin} {text : Text}
    (htask : (origin, text) ∈ draft.lexicon.tasks main) :
    ∃ compiled, (Recipe.compile (draft.lexicon.context origin) text).result = .ok compiled ∧
      compiled.Everywhere Reduced ∧
      ((∀ c ∈ text.unquoted, ¬OffersChoice c) →
        compiled.Everywhere Fixed ∧
          ∀ (σ : Type) [Source σ] (source : σ), (compiled.sample source).2 = source) := by
  rw [compile_eq hdraft] at h
  exact hsize.exists_reduced_of_mem_tasks hmain h htask

theorem everywhere_honoursWeights : recipe.Everywhere HonoursWeights :=
  Everywhere.imp (fun _ => Proper.honoursWeights) recipe (everywhere_proper hdraft hsize hmain h)

-- Registries may come about differently. What they compile makes the same words if it
-- is displayed alike.
theorem samples_eq_of_display_eq {others : List Call} {otherDraft : Draft}
    (hotherDraft : otherDraft ∈ (run others).drafts) (hotherSize : otherDraft.lexicon.Bounded)
    {otherMain : Text} (hotherMain : otherMain.utf8Length < sizeLimit) {other : Recipe}
    (hother : (otherDraft.registry.compile otherMain).result = .ok other)
    (hdisplay : recipe.display = other.display) :
    recipe.flatten = other.flatten ∧
      ∀ (σ : Type) [Source σ] (source : σ) (count : ℕ),
        recipe.samples count (Counted.start source) =
          other.samples count (Counted.start source) := by
  have hproper := everywhere_proper hdraft hsize hmain h
  have hproper' := everywhere_proper hotherDraft hotherSize hotherMain hother
  refine ⟨flatten_eq_of_display_eq hproper hproper' hdisplay, fun σ _ source count => ?_⟩
  exact Recipe.samples_eq_of_display_eq hproper hproper' hdisplay (Counted.start source) count

end Bounded

variable {recipe : Recipe} (h : (draft.registry.compile main).result = .ok recipe)
include h

theorem sample_language (hmain : main.utf8Length < 2 ^ 32)
    (hsize : ∀ shortcut text, draft.lexicon.texts.get? shortcut = some text →
      text.utf8Length < 2 ^ 32) :
    recipe.Everywhere Decides ∧
      (∀ (σ : Type) [Source σ] (source : σ), (recipe.sample source).1 ∈ recipe.language) ∧
      ∀ word ∈ recipe.language, ∃ source : Scripted, (recipe.sample source).1 = word := by
  rw [compile_eq hdraft] at h
  exact Recipe.sample_language (Lexicon.everywhere_drawable_compile hsize hmain h)

-- A text is bounded by its own groups and by what it refers to, and so is the whole.
theorem height_compile :
    (∀ origin text, (origin, text) ∈ draft.lexicon.tasks main →
      ∃ compiled, (Recipe.compile (draft.lexicon.context origin) text).result = .ok compiled ∧
        ∀ bound, (draft.lexicon.context origin).Bounds text.letters bound →
          compiled.height ≤ 2 * (text.nesting + 1) + bound) ∧
      (∀ shortcut text, draft.lexicon.primitives.get? shortcut = some text →
        ∃ compiled,
          (Recipe.compile (draft.lexicon.context (.subpattern shortcut)) text).result =
            .ok compiled ∧
          compiled.height ≤ 130) ∧
      (∀ shortcut text, draft.lexicon.complexes.get? shortcut = some text →
        ∃ compiled,
          (Recipe.compile (draft.lexicon.context (.subpattern shortcut)) text).result =
            .ok compiled ∧
          compiled.height ≤ 260) ∧
      recipe.height ≤ 390 := by
  rw [compile_eq hdraft] at h
  exact ⟨fun _ _ => Lexicon.exists_height_le_of_mem_tasks h,
    fun _ _ => Lexicon.exists_height_le_of_primitive h,
    fun _ _ => Lexicon.exists_height_le_of_complex h, Lexicon.height_main h⟩

-- A letter that neither the main pattern nor a complex subpattern needs is given a text.
-- What was compiled is compiled again, or else the new text is at fault.
theorem result_compile_define {shortcut : Shortcut} (hmain : shortcut ∉ main.letters)
    (hcomplex : ∀ other text, other ≠ shortcut →
      draft.registry.complex.get? other.toChar = some text → shortcut ∉ text.letters)
    {text : Text} (hsize : text.utf8Length < sizeLimit) :
    ∃ next, (Registry.define shortcut.toChar text).run draft.registry = (.ok (), next) ∧
      ((next.compile main).result = .ok recipe ∨
        (∃ malformation, (next.compile main).result = .error (.malformed text malformation)) ∨
        ∃ letter, (next.compile main).result =
          .error (.unresolvedShortcut letter (.subpattern shortcut))) ∧
      ((next.compile main).result = .ok recipe ↔
        text.WellFormed ∧ ∀ letter ∈ text.letters, letter.toChar ∈ next.primitive.keys) := by
  have hfaithful := faithful_run calls draft hdraft
  have hletter : (Shortcut.ofChar? shortcut.toChar).isSome :=
    Option.isSome_iff_exists.mpr ⟨shortcut, Shortcut.ofChar?_toChar shortcut⟩
  have hdefined := hfaithful.define shortcut.toChar text
  have hunused : ∀ other text, other ≠ shortcut →
      draft.lexicon.complexes.get? other = some text → shortcut ∉ text.letters :=
    fun other text hne ht => hcomplex other text hne ((hfaithful.complex _).trans ht)
  rw [hfaithful.compile_eq] at h
  obtain ⟨hkind, hiff⟩ := Lexicon.result_compile_insert h hmain hunused hsize
    (draft.texts_define hletter text)
  simp only [← hdefined.compile_eq, hdefined.isPrimitiveShortcut_iff] at hkind hiff
  rw [Draft.define_of_letter hletter] at hkind hiff
  exact ⟨_, Registry.run_define_of_letter hletter text _, hkind, hiff⟩

end Workshop

end Coinage
