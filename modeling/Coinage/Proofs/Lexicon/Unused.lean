import Coinage.Proofs.Lexicon.Transcript
import Coinage.Proofs.Pattern.Canonical
import Coinage.Proofs.Recipe.Agreement

namespace Coinage

-- Two maps that differ at one shortcut at most.
def ShortcutMap.SameApartFrom {α : Type} (shortcut : Shortcut) (first second : ShortcutMap α) :
    Prop :=
  ∀ other, other ≠ shortcut → first.get? other = second.get? other

namespace ShortcutMap.SameApartFrom

variable {α : Type} {shortcut : Shortcut}

theorem insert (map : ShortcutMap α) (shortcut : Shortcut) (value : α) :
    (map.insert shortcut value).SameApartFrom shortcut map :=
  fun _ hne => get?_insert_of_ne map value hne

theorem filter {first second : ShortcutMap α} (h : first.SameApartFrom shortcut second)
    (keep : α → Bool) : (first.filter keep).SameApartFrom shortcut (second.filter keep) := by
  intro other hne
  rw [get?_filter, get?_filter, h other hne]

variable {first second : ShortcutMap Recipe}

-- A text that does not mention the shortcut is compiled alike.
theorem result_compile (h : first.SameApartFrom shortcut second) {text : Text}
    (hunused : shortcut ∉ text.letters) (origin : Origin) :
    (Recipe.compile ⟨first, origin⟩ text).result =
      (Recipe.compile ⟨second, origin⟩ text).result := by
  apply Recipe.result_compile_congr
  intro letter hl
  have hne : letter ≠ shortcut := fun heq => hunused (heq ▸ hl)
  rw [Context.find, Context.find, h letter hne]

theorem learn {texts others : ShortcutMap Text} (htexts : texts.SameApartFrom shortcut others)
    (h : first.SameApartFrom shortcut second)
    (hunused : ∀ other text, other ≠ shortcut → others.get? other = some text →
      shortcut ∉ text.letters) :
    (Lexicon.learn texts first).SameApartFrom shortcut (Lexicon.learn others second) := by
  intro other hne
  simp only [Lexicon.learn, htexts other hne]
  cases ht : others.get? other with
  | none => exact h other hne
  | some text => exact congrArg Except.toOption (h.result_compile (hunused other text hne ht) _)

end ShortcutMap.SameApartFrom

namespace Lexicon

section Round

variable {primitive : Bool} {texts : ShortcutMap Text} {known : ShortcutMap Recipe}

-- A round where all texts but one are known to be compiled. That one decides, if
-- there is one.
theorem result_compileAll_of_others {shortcut : Shortcut}
    (hothers : ∀ other text, other ≠ shortcut → texts.get? other = some text →
      ∃ recipe, (Recipe.compile ⟨known, .subpattern other⟩ text).result = .ok recipe) :
    (compileAll primitive known texts.entries known).result =
      (texts.get? shortcut).elim (.ok (learn texts known)) fun text =>
        (Recipe.compile ⟨known, .subpattern shortcut⟩ text).result.map fun _ =>
          learn texts known := by
  cases hr : (compileAll primitive known texts.entries known).result with
  | ok learned =>
    have hround := round_of_compileAll hr
    rw [hround.eq_learn]
    cases ht : texts.get? shortcut with
    | none => rfl
    | some text =>
      obtain ⟨recipe, hrecipe, -⟩ := hround.compiled shortcut text ht
      rw [Option.elim, hrecipe]
      rfl
  | error fault =>
    obtain ⟨⟨other, text⟩, he, hfault⟩ := exists_error_of_compileAll hr
    have ht := ShortcutMap.mem_entries.mp he
    by_cases hs : other = shortcut
    · rw [← hs, ht, Option.elim, hfault]
      rfl
    · obtain ⟨recipe, hrecipe⟩ := hothers other text hs ht
      rw [hrecipe] at hfault
      cases hfault

end Round

-- A lexicon that differs from another one in one subpattern at most, and no complex
-- subpattern apart from that one needs it.
structure Redefines (next lexicon : Lexicon) (shortcut : Shortcut) : Prop where
  same : next.texts.SameApartFrom shortcut lexicon.texts
  unused : ∀ other text, other ≠ shortcut → lexicon.complexes.get? other = some text →
    shortcut ∉ text.letters

namespace Redefines

variable {next lexicon : Lexicon} {shortcut : Shortcut}

theorem primitives (h : next.Redefines lexicon shortcut) :
    next.primitives.SameApartFrom shortcut lexicon.primitives :=
  h.same.filter _

theorem complexes (h : next.Redefines lexicon shortcut) :
    next.complexes.SameApartFrom shortcut lexicon.complexes :=
  h.same.filter _

variable {known recipes : ShortcutMap Recipe}

theorem learn_primitives (h : next.Redefines lexicon shortcut)
    (hknown : Round lexicon.primitives .empty known) :
    (learn next.primitives .empty).SameApartFrom shortcut known := by
  rw [hknown.eq_learn]
  refine h.primitives.learn (fun _ _ => rfl) fun other text _ ht => ?_
  rw [letters_of_primitive ht]
  exact List.not_mem_nil

theorem learn_complexes (h : next.Redefines lexicon shortcut)
    (hknown : Round lexicon.primitives .empty known)
    (hrecipes : Round lexicon.complexes known recipes) :
    (learn next.complexes (learn next.primitives .empty)).SameApartFrom shortcut recipes := by
  rw [hrecipes.eq_learn]
  exact h.complexes.learn (h.learn_primitives hknown) h.unused

-- The other subpatterns are compiled as before.
theorem compiles_primitives (h : next.Redefines lexicon shortcut)
    (hknown : Round lexicon.primitives .empty known) (other : Shortcut) (text : Text)
    (hne : other ≠ shortcut) (ht : next.primitives.get? other = some text) :
    ∃ recipe, (Recipe.compile ⟨.empty, .subpattern other⟩ text).result = .ok recipe := by
  rw [h.primitives other hne] at ht
  exact (hknown.compiled other text ht).imp fun _ hcompiled => hcompiled.1

theorem compiles_complexes (h : next.Redefines lexicon shortcut)
    (hknown : Round lexicon.primitives .empty known)
    (hrecipes : Round lexicon.complexes known recipes) (other : Shortcut) (text : Text)
    (hne : other ≠ shortcut) (ht : next.complexes.get? other = some text) :
    ∃ recipe, (Recipe.compile ⟨learn next.primitives .empty, .subpattern other⟩ text).result =
      .ok recipe := by
  rw [h.complexes other hne] at ht
  rw [(h.learn_primitives hknown).result_compile (h.unused other text hne ht)]
  exact (hrecipes.compiled other text ht).imp fun _ hcompiled => hcompiled.1

-- If the main pattern does not need the subpattern either, only the new text can
-- stop the compilation.
theorem result_compile (h : next.Redefines lexicon shortcut) {main text : Text} {recipe : Recipe}
    (hcompile : (lexicon.compile main).result = .ok recipe) (hmain : shortcut ∉ main.letters)
    (htext : next.texts.get? shortcut = some text) :
    (next.compile main).result =
      (Recipe.compile (next.context (.subpattern shortcut)) text).result.map fun _ => recipe := by
  obtain ⟨known, recipes, hknown, hrecipes, hresult⟩ := exists_rounds hcompile
  have hlast : (Recipe.compile ⟨learn next.complexes (learn next.primitives .empty), .main⟩
      main).result = .ok recipe :=
    ((h.learn_complexes hknown hrecipes).result_compile hmain .main).trans hresult
  have hsecond := h.compiles_complexes hknown hrecipes
  rw [Lexicon.result_compile, result_compileAll_of_others (h.compiles_primitives hknown)]
  by_cases hmentions : text.mentionsShortcut = true
  · have ht := get?_complexes_eq_some_iff.mpr ⟨htext, hmentions⟩
    rw [get?_primitives_of_complex ht, context_of_complex ht, Option.elim, Except.bind,
      result_compileAll_of_others hsecond, ht, Option.elim]
    cases (Recipe.compile ⟨learn next.primitives .empty, .subpattern shortcut⟩ text).result with
    | error fault => rfl
    | ok compiled => exact hlast
  · have ht := get?_primitives_eq_some_iff.mpr ⟨htext, Bool.eq_false_of_not_eq_true hmentions⟩
    rw [ht, Option.elim, context_of_primitive ht]
    cases (Recipe.compile ⟨.empty, .subpattern shortcut⟩ text).result with
    | error fault => rfl
    | ok compiled =>
      rw [Except.map, Except.bind, result_compileAll_of_others hsecond,
        get?_complexes_of_primitive ht]
      exact hlast

theorem isPrimitiveShortcut_eq (h : next.Redefines lexicon shortcut)
    (hknown : Round lexicon.primitives .empty known)
    (hnone : next.primitives.get? shortcut = none) (letter : Shortcut) :
    next.isPrimitiveShortcut letter = ((learn next.primitives .empty).get? letter).isSome := by
  by_cases hl : letter = shortcut
  · rw [hl, isPrimitiveShortcut, hnone]
    simp [learn, hnone, ShortcutMap.empty]
  · rw [h.learn_primitives hknown letter hl, hknown.isSome_get?, isPrimitiveShortcut,
      h.primitives letter hl]
    exact (Bool.or_false _).symm

-- The new text is refused for its form, or for a letter that is not primitive.
theorem fault?_compile (h : next.Redefines lexicon shortcut)
    (hknown : Round lexicon.primitives .empty known) {text : Text}
    (htext : next.texts.get? shortcut = some text) (hsize : text.utf8Length < sizeLimit) :
    (Recipe.compile (next.context (.subpattern shortcut)) text).fault? =
      offence next.isPrimitiveShortcut (.subpattern shortcut) text := by
  by_cases hmentions : text.mentionsShortcut = true
  · have ht := get?_complexes_eq_some_iff.mpr ⟨htext, hmentions⟩
    have hscope := h.isPrimitiveShortcut_eq hknown (get?_primitives_of_complex ht)
    rw [context_of_complex ht, Recipe.fault?_compile _ hscope hsize]
  · have ht := get?_primitives_eq_some_iff.mpr ⟨htext, Bool.eq_false_of_not_eq_true hmentions⟩
    rw [context_of_primitive ht, Recipe.fault?_compile _ (fun _ => rfl) hsize, offence, offence,
      letters_of_primitive ht]
    rfl

end Redefines

-- What becomes of a compilation when a text is named that nothing needs.
theorem result_compile_insert {lexicon next : Lexicon} {main : Text} {recipe : Recipe}
    (h : (lexicon.compile main).result = .ok recipe) {shortcut : Shortcut}
    (hmain : shortcut ∉ main.letters)
    (hcomplex : ∀ other text, other ≠ shortcut → lexicon.complexes.get? other = some text →
      shortcut ∉ text.letters)
    {text : Text} (hsize : text.utf8Length < sizeLimit)
    (hnext : next.texts = lexicon.texts.insert shortcut text) :
    ((next.compile main).result = .ok recipe ∨
        (∃ malformation, (next.compile main).result = .error (.malformed text malformation)) ∨
        ∃ letter, (next.compile main).result =
          .error (.unresolvedShortcut letter (.subpattern shortcut))) ∧
      ((next.compile main).result = .ok recipe ↔
        text.WellFormed ∧ ∀ letter ∈ text.letters, next.isPrimitiveShortcut letter = true) := by
  have hsame : next.texts.SameApartFrom shortcut lexicon.texts := by
    rw [hnext]
    exact .insert _ _ _
  have hredefines : next.Redefines lexicon shortcut := ⟨hsame, hcomplex⟩
  have htext : next.texts.get? shortcut = some text := by
    rw [hnext, ShortcutMap.get?_insert_self]
  obtain ⟨known, -, hknown, -⟩ := exists_rounds h
  have hresult := hredefines.result_compile h hmain htext
  have hfault := hredefines.fault?_compile hknown htext hsize
  rw [hresult, ← offence_eq_none_iff, ← hfault]
  cases hc : (Recipe.compile (next.context (.subpattern shortcut)) text).result with
  | ok compiled =>
    have hnone : (Recipe.compile (next.context (.subpattern shortcut)) text).fault? = none :=
      Logged.fault?_eq_none_iff.mpr ⟨compiled, hc⟩
    exact ⟨.inl rfl, fun _ => hnone, fun _ => rfl⟩
  | error fault =>
    have hsome := Logged.fault?_eq_some_iff.mpr hc
    refine ⟨.inr ?_, nofun, fun hnone => ?_⟩
    · rw [hfault] at hsome
      rcases eq_of_offence_eq_some hsome with ⟨malformation, rfl⟩ | ⟨letter, rfl⟩
      · exact .inl ⟨malformation, rfl⟩
      · exact .inr ⟨letter, rfl⟩
    · rw [hnone] at hsome
      cases hsome

-- A subpattern that nothing needs can stop a compilation, by a fault of its own, but
-- cannot change what is compiled.
theorem compile_define_unused (lexicon : Lexicon) (main : Text) (recipe : Recipe)
    (h : (lexicon.compile main).result = .ok recipe) (shortcut : Shortcut)
    (hmain : shortcut ∉ main.letters)
    (hcomplex : ∀ other text, other ≠ shortcut → lexicon.complexes.get? other = some text →
      shortcut ∉ text.letters)
    (text : Text) (hsize : text.utf8Length < sizeLimit) :
    ∃ next, lexicon.define shortcut.toChar text = .ok next ∧
      ((next.compile main).result = .ok recipe ∨
        (∃ malformation, (next.compile main).result = .error (.malformed text malformation)) ∨
        ∃ letter, (next.compile main).result =
          .error (.unresolvedShortcut letter (.subpattern shortcut))) ∧
      ((next.compile main).result = .ok recipe ↔
        text.WellFormed ∧ ∀ letter ∈ text.letters, next.isPrimitiveShortcut letter = true) := by
  have hdefine : lexicon.define shortcut.toChar text =
      .ok ⟨lexicon.texts.insert shortcut text⟩ := by
    rw [define, Shortcut.ofChar?_toChar]
  exact ⟨_, hdefine, result_compile_insert h hmain hcomplex hsize rfl⟩

-- A primitive subpattern that is mentioned in a quotation only.
def spareLexicon : Lexicon where
  texts.get? shortcut :=
    match shortcut.toChar with
    | 'A' => some "a/b".toList
    | 'B' => some "A\"C\"".toList
    | 'C' => some "c".toList
    | _ => none

def spareRecipe : Recipe :=
  .sequence [.uniform [.literal ['a'], .literal ['b']], .literal ['C']]

-- It becomes complex, and may refer to what is primitive.
theorem compile_define_unused_spare :
    ∃ next, spareLexicon.define 'C' "(A)x".toList = .ok next ∧
      next.isPrimitiveShortcut ⟨2⟩ = false ∧
      (spareLexicon.compile "B".toList).result = .ok spareRecipe ∧
      (next.compile "B".toList).result = .ok spareRecipe := by
  have hcompile : (spareLexicon.compile "B".toList).result = .ok spareRecipe := rfl
  have hcomplex : ∀ other text, other ≠ ⟨2⟩ → spareLexicon.complexes.get? other = some text →
      (⟨2⟩ : Shortcut) ∉ text.letters := by
    intro other text _ ht
    obtain ⟨htext, -⟩ := get?_complexes_eq_some_iff.mp ht
    simp only [spareLexicon] at htext
    split at htext <;> cases htext <;> decide
  obtain ⟨next, hdefine, -, hiff⟩ := compile_define_unused spareLexicon "B".toList spareRecipe
    hcompile ⟨2⟩ (by decide) hcomplex "(A)x".toList (by decide)
  refine ⟨next, hdefine, ?_, hcompile, hiff.mpr ⟨⟨_, rfl⟩, ?_⟩⟩
  · cases hdefine
    rfl
  · cases hdefine
    decide

end Lexicon

end Coinage
