import Coinage.Lexicon
import Coinage.Proofs.Journal

namespace Coinage

namespace Shortcut

theorem mem_all (shortcut : Shortcut) : shortcut ∈ all :=
  List.mem_map.mpr ⟨shortcut.index, List.mem_finRange _, rfl⟩

theorem pairwise_all : all.Pairwise fun first second => first.toChar < second.toChar := by
  decide

end Shortcut

namespace ShortcutMap

variable {α : Type}

theorem mem_entries {map : ShortcutMap α} {shortcut : Shortcut} {value : α} :
    (shortcut, value) ∈ map.entries ↔ map.get? shortcut = some value := by
  simp [entries, Shortcut.mem_all]

theorem ascending_entries (map : ShortcutMap α) :
    map.entries.Pairwise fun first second => first.1.toChar < second.1.toChar := by
  refine List.Pairwise.filterMap _ ?_ Shortcut.pairwise_all
  intro first second hlt entry he other ho
  obtain ⟨value, -, rfl⟩ := Option.map_eq_some_iff.mp he
  obtain ⟨value, -, rfl⟩ := Option.map_eq_some_iff.mp ho
  exact hlt

theorem pairwise_entries (map : ShortcutMap α) :
    map.entries.Pairwise fun first second => first.1 ≠ second.1 := by
  refine map.ascending_entries.imp ?_
  intro first second hlt heq
  rw [heq] at hlt
  exact Char.lt_irrefl _ hlt

theorem get?_insert_self (map : ShortcutMap α) (shortcut : Shortcut) (value : α) :
    (map.insert shortcut value).get? shortcut = some value := if_pos rfl

theorem get?_insert_of_ne (map : ShortcutMap α) {shortcut other : Shortcut} (value : α)
    (h : other ≠ shortcut) : (map.insert shortcut value).get? other = map.get? other := if_neg h

theorem get?_filter (map : ShortcutMap α) (keep : α → Bool) (shortcut : Shortcut) :
    (map.filter keep).get? shortcut = (map.get? shortcut).filter keep := rfl

end ShortcutMap

namespace Lexicon

theorem get?_primitives_eq_some_iff {lexicon : Lexicon} {shortcut : Shortcut} {text : Text} :
    lexicon.primitives.get? shortcut = some text ↔
      lexicon.texts.get? shortcut = some text ∧ text.mentionsShortcut = false := by
  simp [primitives, ShortcutMap.get?_filter, Option.filter_eq_some_iff, isPrimitive]

theorem get?_complexes_eq_some_iff {lexicon : Lexicon} {shortcut : Shortcut} {text : Text} :
    lexicon.complexes.get? shortcut = some text ↔
      lexicon.texts.get? shortcut = some text ∧ text.mentionsShortcut = true := by
  simp [complexes, ShortcutMap.get?_filter, Option.filter_eq_some_iff, isPrimitive]

-- A text is of one kind only.
theorem get?_complexes_of_primitive {lexicon : Lexicon} {shortcut : Shortcut} {text : Text}
    (h : lexicon.primitives.get? shortcut = some text) :
    lexicon.complexes.get? shortcut = none := by
  obtain ⟨htext, hmentions⟩ := get?_primitives_eq_some_iff.mp h
  simp [complexes, ShortcutMap.get?_filter, htext, isPrimitive, hmentions]

theorem get?_primitives_of_complex {lexicon : Lexicon} {shortcut : Shortcut} {text : Text}
    (h : lexicon.complexes.get? shortcut = some text) :
    lexicon.primitives.get? shortcut = none := by
  obtain ⟨htext, hmentions⟩ := get?_complexes_eq_some_iff.mp h
  simp [primitives, ShortcutMap.get?_filter, htext, isPrimitive, hmentions]

section CompileAll

variable (primitive : Bool) (recipes : ShortcutMap Recipe)

theorem result_compileAll_cons (shortcut : Shortcut) (text : Text) (rest : List (Shortcut × Text))
    (known : ShortcutMap Recipe) :
    (compileAll primitive recipes ((shortcut, text) :: rest) known).result =
      (Recipe.compile ⟨recipes, .subpattern shortcut⟩ text).result.bind fun recipe =>
        (compileAll primitive recipes rest (known.insert shortcut recipe)).result := by
  rw [compileAll, Logged.result_bind]
  rfl

variable {primitive recipes}

theorem compileAll_cons_eq_ok {shortcut : Shortcut} {text : Text}
    {rest : List (Shortcut × Text)} {known learned : ShortcutMap Recipe}
    (h : (compileAll primitive recipes ((shortcut, text) :: rest) known).result = .ok learned) :
    ∃ recipe, (Recipe.compile ⟨recipes, .subpattern shortcut⟩ text).result = .ok recipe ∧
      (compileAll primitive recipes rest (known.insert shortcut recipe)).result = .ok learned := by
  rw [result_compileAll_cons] at h
  exact except_bind_eq_ok.mp h

-- What stands at no entry is left as it was.
theorem get?_compileAll_of_notMem {entries : List (Shortcut × Text)}
    {known learned : ShortcutMap Recipe}
    (h : (compileAll primitive recipes entries known).result = .ok learned)
    {shortcut : Shortcut} (hnot : ∀ entry ∈ entries, entry.1 ≠ shortcut) :
    learned.get? shortcut = known.get? shortcut := by
  induction entries generalizing known with
  | nil =>
    cases h
    rfl
  | cons entry rest ih =>
    obtain ⟨recipe, -, hrest⟩ := compileAll_cons_eq_ok h
    rw [ih hrest fun other ho => hnot other (List.mem_cons_of_mem _ ho)]
    exact ShortcutMap.get?_insert_of_ne _ _ (hnot entry List.mem_cons_self).symm

theorem get?_compileAll_of_mem {entries : List (Shortcut × Text)}
    {known learned : ShortcutMap Recipe}
    (h : (compileAll primitive recipes entries known).result = .ok learned)
    (hdistinct : entries.Pairwise fun first second => first.1 ≠ second.1)
    {entry : Shortcut × Text} (he : entry ∈ entries) :
    ∃ recipe, (Recipe.compile ⟨recipes, .subpattern entry.1⟩ entry.2).result = .ok recipe ∧
      learned.get? entry.1 = some recipe := by
  induction entries generalizing known with
  | nil => exact absurd he List.not_mem_nil
  | cons head rest ih =>
    obtain ⟨recipe, hrecipe, hrest⟩ := compileAll_cons_eq_ok h
    obtain ⟨hhead, htail⟩ := List.pairwise_cons.mp hdistinct
    rcases List.mem_cons.mp he with rfl | hmem
    · have hkept := get?_compileAll_of_notMem hrest fun other ho => (hhead other ho).symm
      rw [ShortcutMap.get?_insert_self] at hkept
      exact ⟨recipe, hrecipe, hkept⟩
    · exact ih hrest htail hmem

theorem exists_error_of_compileAll {recipes : ShortcutMap Recipe}
    {entries : List (Shortcut × Text)} {fault : Fault}
    (h : (compileAll primitive recipes entries known).result = .error fault) :
    ∃ entry ∈ entries,
      (Recipe.compile ⟨recipes, .subpattern entry.1⟩ entry.2).result = .error fault := by
  induction entries generalizing known with
  | nil => cases h
  | cons entry rest ih =>
    rw [result_compileAll_cons] at h
    cases hr : (Recipe.compile ⟨recipes, .subpattern entry.1⟩ entry.2).result with
    | error other =>
      rw [hr] at h
      cases h
      exact ⟨entry, List.mem_cons_self, hr⟩
    | ok recipe =>
      rw [hr] at h
      obtain ⟨later, hl, hfault⟩ := ih h
      exact ⟨later, List.mem_cons_of_mem _ hl, hfault⟩

end CompileAll

-- What a round of subpatterns adds to the recipes that it started with.
structure Round (texts : ShortcutMap Text) (known learned : ShortcutMap Recipe) : Prop where
  compiled : ∀ shortcut text, texts.get? shortcut = some text →
    ∃ recipe, (Recipe.compile ⟨known, .subpattern shortcut⟩ text).result = .ok recipe ∧
      learned.get? shortcut = some recipe
  kept : ∀ shortcut, texts.get? shortcut = none → learned.get? shortcut = known.get? shortcut

theorem round_of_compileAll {primitive : Bool} {texts : ShortcutMap Text}
    {known learned : ShortcutMap Recipe}
    (h : (compileAll primitive known texts.entries known).result = .ok learned) :
    Round texts known learned where
  compiled shortcut text hs :=
    get?_compileAll_of_mem h texts.pairwise_entries (ShortcutMap.mem_entries.mpr hs)
  kept shortcut hs := by
    apply get?_compileAll_of_notMem h
    rintro ⟨other, text⟩ he rfl
    have hsome := ShortcutMap.mem_entries.mp he
    rw [hs] at hsome
    cases hsome

theorem Round.isSome_get? {texts : ShortcutMap Text} {known learned : ShortcutMap Recipe}
    (h : Round texts known learned) (shortcut : Shortcut) :
    (learned.get? shortcut).isSome =
      ((texts.get? shortcut).isSome || (known.get? shortcut).isSome) := by
  cases hs : texts.get? shortcut with
  | none =>
    rw [h.kept shortcut hs]
    rfl
  | some text =>
    obtain ⟨recipe, -, hrecipe⟩ := h.compiled shortcut text hs
    rw [hrecipe]
    rfl

-- What holds of the recipes that a round starts with and of those that it compiles.
theorem Round.forall_learned {texts : ShortcutMap Text} {known learned : ShortcutMap Recipe}
    (h : Round texts known learned) {property : Recipe → Prop}
    (hknown : ∀ shortcut recipe, known.get? shortcut = some recipe → property recipe)
    (hcompiled : ∀ shortcut text recipe, texts.get? shortcut = some text →
      (Recipe.compile ⟨known, .subpattern shortcut⟩ text).result = .ok recipe → property recipe) :
    ∀ shortcut recipe, learned.get? shortcut = some recipe → property recipe := by
  intro shortcut recipe hrecipe
  cases ht : texts.get? shortcut with
  | none =>
    rw [h.kept shortcut ht] at hrecipe
    exact hknown shortcut recipe hrecipe
  | some text =>
    obtain ⟨compiled, hresult, hlearned⟩ := h.compiled shortcut text ht
    rw [hlearned] at hrecipe
    cases hrecipe
    exact hcompiled shortcut text recipe ht hresult

theorem result_compile (lexicon : Lexicon) (main : Text) :
    (lexicon.compile main).result =
      (compileAll true .empty lexicon.primitives.entries .empty).result.bind fun primitives =>
        (compileAll false primitives lexicon.complexes.entries primitives).result.bind
          fun recipes => (Recipe.compile ⟨recipes, .main⟩ main).result := by
  rw [compile, Logged.result_bind]
  congr 1
  funext primitives
  rw [Logged.result_bind]
  congr 1
  funext recipes
  rw [Logged.result_bind]
  cases (Recipe.compile ⟨recipes, .main⟩ main).result <;> rfl

theorem exists_rounds {lexicon : Lexicon} {main : Text} {recipe : Recipe}
    (h : (lexicon.compile main).result = .ok recipe) :
    ∃ primitives recipes, Round lexicon.primitives .empty primitives ∧
      Round lexicon.complexes primitives recipes ∧
      (Recipe.compile ⟨recipes, .main⟩ main).result = .ok recipe := by
  rw [result_compile] at h
  obtain ⟨primitives, hp, h⟩ := except_bind_eq_ok.mp h
  obtain ⟨recipes, hc, h⟩ := except_bind_eq_ok.mp h
  exact ⟨primitives, recipes, round_of_compileAll hp, round_of_compileAll hc, h⟩

end Lexicon

end Coinage
